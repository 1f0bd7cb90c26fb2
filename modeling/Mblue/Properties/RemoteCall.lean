import Mblue.System.Calls
import Mblue.System.Reduction

/-!
# Synchronous calls

`mblue_remote_call` in all interleavings of callers, bus and services, as long as nothing disturbs the
calls (`Undisturbed`): it returns only after `bus_call_return` has processed the return with the
call's own major and sequence number, it returns that return's payload, nothing is written through
its cell afterwards, and a token of a task's `call_sem` is taken by the call it was posted for
(`callsAnswered_of_run`).

The proof has two layers. `Life` is one call seen by itself: how many commands stand for it, how
many tokens, and its cell; `Life.Step` lists what can happen to it and `Life.Fine` is what stays
true. The invariant `Calls` follows all calls through the system, and `life_step` says that what the
system does to one of them is a step of its life. That a call is answered once is the clause
`closed`: once it is answered its request is past the bus, and has no entry in a call list but the
one the bus is about to remove.
-/

set_option linter.unusedSectionVars false

namespace Mblue

variable {ι σ : Type}

/-! ### The life of a call -/

/-- The caller has taken a token. -/
def Cell.taken (cell : Cell ι) : ℕ := cell.token.toList.length

/-- The call has returned. -/
def Cell.ended (cell : Cell ι) : ℕ := cell.result.toList.length

/-- A call seen by itself: the commands that stand for its being under way, for its return and for
the post of its token, the tokens in the semaphores, and its cell. -/
@[ext]
structure Life (ι : Type) where
  front : ℕ
  ret : ℕ
  tpost : ℕ
  posted : ℕ
  cell : Cell ι

/-- What happens to a call. -/
inductive Life.Step (c : CellId) (L L' : Life ι) : Prop
  /-- Its caller takes its token. -/
  | took (hfront : L.front = L'.front + 1) (hret : L'.ret = L.ret) (htpost : L'.tpost = L.tpost)
      (hposted : L.posted = L'.posted + 1) (hcell : L'.cell = { L.cell with token := some c })
  /-- It returns, its front commands being done. -/
  | returned (hdone : L.front = 0) (hfront : L'.front = L.front) (hret : L.ret = L'.ret + 1)
      (htpost : L'.tpost = L.tpost) (hposted : L'.posted = L.posted)
      (hcell : L'.cell = { L.cell with result := some L.cell.out })
  /-- Its first answer is written. -/
  | wrote (w : Word) (hopen : L.cell.answers = []) (hfront : L'.front = L.front)
      (hret : L'.ret = L.ret) (htpost : L'.tpost = L.tpost + 1) (hposted : L'.posted = L.posted)
      (hcell : L'.cell = { L.cell with
        out := some w
        answers := L.cell.answers ++ [(L.cell.major, L.cell.seq, w)]
        late := L.cell.late || L.cell.result.isSome })
  /-- Its token is posted. -/
  | tposted (hfront : L'.front = L.front) (hret : L'.ret = L.ret)
      (htpost : L.tpost = L'.tpost + 1) (hposted : L'.posted = L.posted + 1)
      (hcell : L'.cell = L.cell)

/-- **What is true of a call all its life.** Of the commands at its front and the token its caller
took there is exactly one, likewise of its return to come and its result; tokens to be posted,
posted and taken are as many as its answers. -/
structure Life.Fine (c : CellId) (L : Life ι) : Prop where
  fronts : L.front + L.cell.taken = 1
  returns : L.ret + L.cell.ended = 1
  tokens : L.tpost + L.posted + L.cell.taken = L.cell.answers.length
  own_token : ∀ d, L.cell.token = some d → d = c
  ended_le : L.cell.ended ≤ L.cell.taken
  result_eq : ∀ r, L.cell.result = some r → r = L.cell.out
  answered : L.cell.answers = [] ∨ ∃ w, L.cell.out = some w ∧
    L.cell.answers = [(L.cell.major, L.cell.seq, w)]
  late : L.cell.late = false

namespace Life

variable {c : CellId} {L L' : Life ι}

/-- A call begins its life with its return and one command at its front. -/
theorem Fine.begin (i : ι) (major : Major) (seq : Uint16) :
    Fine c ⟨1, 1, 0, 0, ⟨none, i, major, seq, [], none, none, false⟩⟩ :=
  ⟨rfl, rfl, rfl, by simp, le_rfl, by simp, .inl rfl, rfl⟩

theorem Fine.answers_le (h : L.Fine c) : L.cell.answers.length ≤ 1 := by
  rcases h.answered with hnil | ⟨w, -, hw⟩
  · rw [hnil]
    exact Nat.zero_le 1
  · rw [hw]
    exact le_rfl

theorem Fine.step (h : L.Fine c) (hstep : Step c L L') : L'.Fine c := by
  obtain ⟨hfronts, hreturns, htokens, hown, hended, hresult, hanswered, hlate⟩ := h
  cases hstep with
  | took hfront hret htpost hposted hcell =>
    have htaken : L'.cell.taken = 1 := by rw [hcell]; rfl
    have hendedEq : L'.cell.ended = L.cell.ended := by rw [hcell]; rfl
    have hanswers : L'.cell.answers = L.cell.answers := by rw [hcell]
    have hzero : L.cell.taken = 0 := by omega
    refine ⟨by omega, by omega, by rw [hanswers]; omega, ?_, by omega, ?_, ?_, ?_⟩
    · rw [hcell]
      exact fun d hd ↦ (Option.some.inj hd).symm
    · rw [hcell]
      exact hresult
    · rw [hcell]
      exact hanswered
    · rw [hcell]
      exact hlate
  | returned hdone hfront hret htpost hposted hcell =>
    have htaken : L'.cell.taken = L.cell.taken := by rw [hcell]; rfl
    have hendedEq : L'.cell.ended = 1 := by rw [hcell]; rfl
    have hanswers : L'.cell.answers = L.cell.answers := by rw [hcell]
    refine ⟨by omega, by omega, by rw [hanswers]; omega, ?_, by omega, ?_, ?_, ?_⟩
    · rw [hcell]
      exact hown
    · rw [hcell]
      exact fun r hr ↦ (Option.some.inj hr).symm
    · rw [hcell]
      exact hanswered
    · rw [hcell]
      exact hlate
  | wrote w hopen hfront hret htpost hposted hcell =>
    rw [hopen, List.length_nil] at htokens
    have htaken : L'.cell.taken = L.cell.taken := by rw [hcell]; rfl
    have hendedEq : L'.cell.ended = L.cell.ended := by rw [hcell]; rfl
    have hanswers : L'.cell.answers = [(L.cell.major, L.cell.seq, w)] := by
      rw [hcell, hopen, List.nil_append]
    -- not answered means no token taken, so that the call has not returned
    have hresultNone : L.cell.result = none := by
      have hzero : L.cell.ended = 0 := by omega
      unfold Cell.ended at hzero
      cases hr : L.cell.result with
      | none => rfl
      | some r =>
        rw [hr] at hzero
        exact absurd hzero Nat.one_ne_zero
    refine ⟨by omega, by omega, ?_, ?_, by omega, ?_, ?_, ?_⟩
    · rw [hanswers, List.length_singleton]
      omega
    · rw [hcell]
      exact hown
    · rw [hcell]
      intro r hr
      rw [hresultNone] at hr
      cases hr
    · refine .inr ⟨w, by rw [hcell], ?_⟩
      rw [hanswers, hcell]
    · rw [hcell, hresultNone, hlate]
      rfl
  | tposted hfront hret htpost hposted hcell =>
    rw [← hcell] at hfronts hreturns htokens hown hended hresult hanswered hlate
    exact ⟨by omega, by omega, by omega, hown, hended, hresult, hanswered, hlate⟩

end Life

/-! ### The invariant -/

section Invariant

variable [Fintype ι] [DecidableEq ι] [DecidableEq σ]

/-- The tokens in the semaphores that belong to a call. -/
def posted (sh : Shared ι σ) (c : CellId) : ℕ := ∑ t, (sh.callSem t).count c

/-- A call of the system, seen by itself. -/
def life (s : State ι σ) (c : CellId) : Life ι where
  front := mentions Cmd.front? s.threads c
  ret := mentions Cmd.return? s.threads c
  tpost := mentions Cmd.tpost? s.threads c
  posted := posted s.shared c
  cell := s.shared.cells c

/-- What the thread that is going to execute a command knows about the call it is for. -/
def Cmd.Serves (sh : Shared ι σ) (i : ι) : Cmd ι σ → Prop
  | .send a => ∀ c, a.out = some c → c < sh.ncells ∧ (sh.cells c).caller = i ∧
    a.type = .syncCall ∧ a.src = .task i ∧ a.major = (sh.cells c).major ∧ a.seq = (sh.cells c).seq ∧
      (sh.cells c).answers = [] ∧ ∀ m, m ∉ sh.msgList → (sh.pool m).aux ≠ .ipcReturn c
  | .syncCheck _ o => ∀ c, o = some c → c < sh.ncells ∧ (sh.cells c).caller = i
  | .tpend t o => t = i ∧ ∃ c, o = some c ∧ c < sh.ncells ∧ (sh.cells c).caller = i
  | .remoteReturn c => c < sh.ncells ∧ (sh.cells c).caller = i
  | .tpost t c => c < sh.ncells ∧ (sh.cells c).caller = t
  | _ => True

/-- The invariant of the synchronous calls. -/
structure Calls (cfg : Config ι σ) (s : State ι σ) : Prop extends Once cfg s where
  fine : ∀ c < s.shared.ncells, (life s c).Fine c
  bearer : ∀ m, m ∉ s.shared.msgList → ∀ c, (s.shared.pool m).aux = .ipcReturn c →
    c < s.shared.ncells ∧ (s.shared.pool m).type = some .syncCall ∧
      (s.shared.pool m).src = .task (s.shared.cells c).caller ∧
      (s.shared.pool m).major = some (s.shared.cells c).major ∧
      (s.shared.pool m).seq = (s.shared.cells c).seq
  bearer_unique : ∀ m n c, m ∉ s.shared.msgList → n ∉ s.shared.msgList →
    (s.shared.pool m).aux = .ipcReturn c → (s.shared.pool n).aux = .ipcReturn c → m = n
  closed : ∀ c, (s.shared.cells c).answers ≠ [] → ∀ m, m ∉ s.shared.msgList →
    (s.shared.pool m).aux = .ipcReturn c → (s.shared.pool m).dst ≠ some cfg.bus ∧
      ∀ major, ∀ e ∈ s.shared.callList major, e.msg = m →
        .complete major e ∈ s.threads cfg.busTask
  serves : ∀ i, ∀ c ∈ s.threads i, c.Serves s.shared i
  held : ∀ t, ∀ c ∈ s.shared.callSem t, c < s.shared.ncells ∧ (s.shared.cells c).caller = t

variable {cfg : Config ι σ} {s : State ι σ} {i : ι} {c : Cmd ι σ} {a : Choice ι σ}
  {rest cs : List (Cmd ι σ)} {sh sh' : Shared ι σ} {x : CellId}

/-! ### What a move keeps -/

/-- Who called what does not change. -/
theorem CallMove.cell_eq (h : CallMove cfg i c sh sh' cs) (hx : x < sh.ncells) :
    (sh'.cells x).caller = (sh.cells x).caller ∧ (sh'.cells x).major = (sh.cells x).major ∧
      (sh'.cells x).seq = (sh.cells x).seq := by
  have hupdate : ∀ (y : CellId) (cell : Cell ι), cell.caller = (sh.cells y).caller →
      cell.major = (sh.cells y).major → cell.seq = (sh.cells y).seq →
      (Function.update sh.cells y cell x).caller = (sh.cells x).caller ∧
        (Function.update sh.cells y cell x).major = (sh.cells x).major ∧
        (Function.update sh.cells y cell x).seq = (sh.cells x).seq := by
    intro y cell hcaller hmajor hseq
    by_cases hxy : x = y
    · rw [hxy, Function.update_self]
      exact ⟨hcaller, hmajor, hseq⟩
    · rw [Function.update_of_ne hxy]
      exact ⟨rfl, rfl, rfl⟩
  cases h with
  | quiet hsame => rw [hsame.cells_eq]; exact ⟨rfl, rfl, rfl⟩
  | called =>
    have hne : x ≠ sh.ncells := hx.ne
    show (Function.update sh.cells sh.ncells _ x).caller = _ ∧ _
    simp only [callApi, Shared.newCell, Shared.getSequence, Function.update_of_ne hne, and_self]
  | took => exact hupdate _ _ rfl rfl rfl
  | returned => exact hupdate _ _ rfl rfl rfl
  | wrote => exact hupdate _ _ rfl rfl rfl
  | tposted => exact ⟨rfl, rfl, rfl⟩

theorem CallMove.ncells_le (h : CallMove cfg i c sh sh' cs) : sh.ncells ≤ sh'.ncells := by
  cases h with
  | quiet hsame => exact hsame.ncells_eq.ge
  | called => exact Nat.le_succ _
  | _ => exact le_rfl

/-- Only the bus adds an answer, to the call of an entry it then completes. -/
theorem CallMove.answers_origin (h : CallMove cfg i c sh sh' cs) (hx : x < sh.ncells) :
    (sh'.cells x).answers = (sh.cells x).answers ∨
      ∃ d major, ∃ e ∈ sh.callList major, c = .busCallReturn d ∧
        (sh.pool e.msg).aux = .ipcReturn x ∧ sh'.callList = sh.callList ∧ sh'.pool = sh.pool ∧
        .complete major e ∈ cs := by
  have hupdate : ∀ (y : CellId) (cell : Cell ι), (y = x → cell.answers = (sh.cells y).answers) →
      (Function.update sh.cells y cell x).answers = (sh.cells x).answers := by
    intro y cell hanswers
    by_cases hxy : x = y
    · rw [hxy, Function.update_self]
      exact hanswers hxy.symm
    · rw [Function.update_of_ne hxy]
  cases h with
  | quiet hsame => exact .inl (by rw [hsame.cells_eq])
  | called =>
    refine .inl ?_
    show (Function.update sh.cells sh.ncells _ x).answers = _
    rw [Function.update_of_ne hx.ne]
  | took => exact .inl (hupdate _ _ fun _ ↦ rfl)
  | returned => exact .inl (hupdate _ _ fun _ ↦ rfl)
  | wrote hmajor hmem hseq hsrc haux =>
    rename_i d major e t y
    by_cases hxy : y = x
    · exact .inr ⟨d, major, e, hmem, rfl, hxy ▸ haux, rfl, rfl, by simp⟩
    · exact .inl (hupdate _ _ fun heq ↦ absurd heq hxy)
  | tposted => exact .inl rfl

omit [Fintype ι] in
theorem eq_of_rank_one {l : List (Cmd ι σ)} {d d' : Cmd ι σ} (h : l.Pairwise precedes)
    (hd : d ∈ l) (hd' : d' ∈ l) (hr : d.rank = 1) (hr' : d'.rank = 1) : d = d' := by
  have hnot : ∀ {b b' : Cmd ι σ}, b.rank = 1 → b'.rank = 1 → ¬ precedes b b' := by
    intro b b' hb hb' hprec
    unfold precedes at hprec
    omega
  induction h with
  | nil => cases hd
  | cons hhead _ ih =>
    rcases List.mem_cons.1 hd with rfl | hmem <;> rcases List.mem_cons.1 hd' with rfl | hmem'
    · rfl
    · exact absurd (hhead _ hmem') (hnot hr hr')
    · exact absurd (hhead _ hmem) (hnot hr' hr)
    · exact ih hmem hmem'

namespace Calls

/-- The caller's thread is at the front of its call. -/
theorem caller_of_front (h : Calls cfg s) {j : ι} {d : Cmd ι σ} (hd : d ∈ s.threads j)
    (hx : d.front? = some x) : x < s.shared.ncells ∧ (s.shared.cells x).caller = j := by
  have hserves := h.serves j d hd
  cases d with
  | send args =>
    obtain ⟨hlt, hcaller, -⟩ := hserves x hx
    exact ⟨hlt, hcaller⟩
  | syncCheck m o => exact hserves x hx
  | tpend t o =>
    obtain ⟨-, y, hy, hlt, hcaller⟩ := hserves
    obtain rfl : x = y := Option.some.inj (hx.symm.trans hy)
    exact ⟨hlt, hcaller⟩
  | _ => cases hx

omit [Fintype ι] in
theorem rank_of_front {d : Cmd ι σ} (hx : d.front? = some x) : d.rank = 0 := by
  cases d <;> first | rfl | cases hx

/-- A call that has not begun is not mentioned. -/
theorem not_begun (h : Calls cfg s) (hx : s.shared.ncells ≤ x) :
    mentions Cmd.front? s.threads x = 0 ∧ mentions Cmd.return? s.threads x = 0 ∧
      mentions Cmd.tpost? s.threads x = 0 ∧ posted s.shared x = 0 := by
  refine ⟨?_, ?_, ?_, ?_⟩
  · by_contra hne
    obtain ⟨j, d, hd, hdx⟩ := exists_of_mentions_pos (Nat.pos_of_ne_zero hne)
    exact absurd (h.caller_of_front hd hdx).1 (Nat.not_lt_of_le hx)
  · by_contra hne
    obtain ⟨j, d, hd, hdx⟩ := exists_of_mentions_pos (Nat.pos_of_ne_zero hne)
    have hserves := h.serves j d hd
    cases d <;> cases hdx
    exact absurd hserves.1 (Nat.not_lt_of_le hx)
  · by_contra hne
    obtain ⟨j, d, hd, hdx⟩ := exists_of_mentions_pos (Nat.pos_of_ne_zero hne)
    have hserves := h.serves j d hd
    cases d <;> cases hdx
    exact absurd hserves.1 (Nat.not_lt_of_le hx)
  · refine Finset.sum_eq_zero fun t _ ↦ List.count_eq_zero.2 fun hmem ↦ ?_
    exact absurd (h.held t x hmem).1 (Nat.not_lt_of_le hx)

/-- A call that has taken no token is still to return, by a command of its caller. -/
theorem return_pending (h : Calls cfg s) (hx : x < s.shared.ncells)
    (hzero : (s.shared.cells x).taken = 0) :
    .remoteReturn x ∈ s.threads (s.shared.cells x).caller := by
  obtain ⟨-, hreturns, -, -, hended, -⟩ := h.fine x hx
  have hpos : 0 < mentions Cmd.return? s.threads x := by
    simp only [life] at hreturns hended
    omega
  obtain ⟨j, d, hd, hdx⟩ := exists_of_mentions_pos hpos
  have hserves := h.serves j d hd
  cases d <;> cases hdx
  exact hserves.2 ▸ hd

/-- **A token is taken by the call it was posted for.** The call waiting and the call the token
belongs to have both still to return in the same thread, and a thread is inside one call at a
time. -/
theorem token_eq (h : Calls cfg s) {t : ι} {y d : CellId} {tail : List CellId}
    (hc : s.threads i = .tpend t (some y) :: rest) (hsem : s.shared.callSem t = d :: tail) :
    d = y := by
  obtain ⟨rfl, y', hy', hy, hcaller⟩ := h.serves i _ (Good.mem_head hc)
  cases hy'
  obtain ⟨hd, hdcaller⟩ := h.held t d (hsem ▸ List.mem_cons_self)
  have hytaken : (s.shared.cells y).taken = 0 := by
    have hfronts := (h.fine y hy).fronts
    have hpos := mentions_pos (f := Cmd.front?) (b := y) (Good.mem_head hc) rfl
    simp only [life] at hfronts
    omega
  have hdtaken : (s.shared.cells d).taken = 0 := by
    have htokens := (h.fine d hd).tokens
    have hle := (h.fine d hd).answers_le
    have hpos : 0 < posted s.shared d :=
      (List.count_pos_iff.2 (hsem ▸ List.mem_cons_self)).trans_le
        (le_sum s.shared.callSem (fun l ↦ l.count d) t)
    simp only [life] at htokens hle
    omega
  have hreturnY := h.return_pending hy hytaken
  have hreturnD := h.return_pending hd hdtaken
  rw [hcaller] at hreturnY
  rw [hdcaller] at hreturnD
  exact Cmd.remoteReturn.inj (eq_of_rank_one (h.ordered t) hreturnD hreturnY rfl rfl)

/-- A call returns when nothing is left of its front. -/
theorem front_done (h : Calls cfg s) (hc : s.threads i = .remoteReturn x :: rest) :
    mentions Cmd.front? s.threads x = 0 := by
  by_contra hne
  obtain ⟨j, d, hd, hdx⟩ := exists_of_mentions_pos (Nat.pos_of_ne_zero hne)
  have hcaller := (h.caller_of_front hd hdx).2
  have hserves := (h.serves i _ (Good.mem_head hc)).2
  obtain rfl : j = i := hcaller.symm.trans hserves
  have hordered := h.ordered j
  rw [hc] at hd hordered
  rcases List.mem_cons.1 hd with rfl | hd
  · cases hdx
  · have hprec := List.rel_of_pairwise_cons hordered hd
    have hzero := rank_of_front hdx
    have hone : (Cmd.remoteReturn x : Cmd ι σ).rank = 1 := rfl
    unfold precedes at hprec
    omega

/-- **A call that `bus_call_return` answers has no answer yet.** -/
theorem not_answered (h : Calls cfg s) {d : MsgId} {major : Major} {e : PendingCall}
    (hc : s.threads i = .busCallReturn d :: rest) (hmem : e ∈ s.shared.callList major)
    (haux : (s.shared.pool e.msg).aux = .ipcReturn x) : (s.shared.cells x).answers = [] := by
  by_contra hne
  obtain ⟨-, hcomplete⟩ := h.closed x hne e.msg (h.not_free_of_entry hmem) haux
  have hpending := hcomplete major e hmem rfl
  have hbus := (h.knows i _ (Good.mem_head hc)).1
  rw [← hbus, hc] at hpending
  rcases List.mem_cons.1 hpending with heq | hrest
  · cases heq
  · exact absurd (h.core_unique hc rfl hrest) Nat.one_ne_zero

end Calls

/-! ### One step -/

/-- The commands that stand for a call, and its tokens when one semaphore changes, one step on. -/
theorem life_expand (hc : s.threads i = c :: rest) (sh' : Shared ι σ) (cs : List (Cmd ι σ))
    (x : CellId) :
    (life ⟨sh', Function.update s.threads i (cs ++ rest)⟩ x).front +
        ([c].filterMap Cmd.front?).count x =
      (life s x).front + (cs.filterMap Cmd.front?).count x ∧
    (life ⟨sh', Function.update s.threads i (cs ++ rest)⟩ x).ret +
        ([c].filterMap Cmd.return?).count x =
      (life s x).ret + (cs.filterMap Cmd.return?).count x ∧
    (life ⟨sh', Function.update s.threads i (cs ++ rest)⟩ x).tpost +
        ([c].filterMap Cmd.tpost?).count x =
      (life s x).tpost + (cs.filterMap Cmd.tpost?).count x ∧
    ∀ t l, sh'.callSem = Function.update s.shared.callSem t l →
      (life ⟨sh', Function.update s.threads i (cs ++ rest)⟩ x).posted +
          (s.shared.callSem t).count x =
        (life s x).posted + l.count x := by
  refine ⟨mentions_expand Cmd.front? hc cs x, mentions_expand Cmd.return? hc cs x,
    mentions_expand Cmd.tpost? hc cs x, fun t l h ↦ ?_⟩
  unfold life posted
  rw [h]
  exact sum_update s.shared.callSem (fun l ↦ l.count x) t l

namespace Calls

/-- **What the system does to a call that has begun is a step of its life.** -/
theorem life_step (h : Calls cfg s) (hc : s.threads i = c :: rest)
    (hcall : CallMove cfg i c s.shared sh' cs) (hx : x < s.shared.ncells) :
    life ⟨sh', Function.update s.threads i (cs ++ rest)⟩ x = life s x ∨
      Life.Step x (life s x) (life ⟨sh', Function.update s.threads i (cs ++ rest)⟩ x) := by
  obtain ⟨hfront, hret, htpost, hposted⟩ := life_expand hc sh' cs x
  cases hcall with
  | quiet hsame hf hr ht =>
    rw [hf] at hfront
    rw [hr] at hret
    rw [ht] at htpost
    refine .inl (Life.ext (by omega) (by omega) (by omega) ?_ ?_)
    · show posted sh' x = posted s.shared x
      rw [posted, posted, hsame.callSem_eq]
    · show sh'.cells x = s.shared.cells x
      rw [hsame.cells_eq]
  | called =>
    -- the new call has a cell of its own
    have hne : s.shared.ncells ≠ x := hx.ne'
    simp [callApi, List.filterMap_cons, Cmd.front?, Cmd.return?, Cmd.tpost?, hne]
      at hfront hret htpost
    refine .inl (Life.ext hfront hret htpost rfl ?_)
    exact Function.update_of_ne hne.symm _ _
  | took hsem =>
    rename_i t y d tail
    -- the token is that of the call the thread waits for
    obtain rfl := h.token_eq hc hsem
    replace hposted := hposted t tail rfl
    rw [hsem] at hposted
    by_cases hxd : d = x
    · subst hxd
      rw [List.count_cons_self] at hposted
      simp [List.filterMap_cons, Cmd.front?, Cmd.return?, Cmd.tpost?] at hfront hret htpost
      refine .inr (.took hfront.symm hret htpost ?_ ?_)
      · omega
      · exact Function.update_self _ _ _
    · rw [List.count_cons_of_ne hxd] at hposted
      simp [List.filterMap_cons, Cmd.front?, Cmd.return?, Cmd.tpost?, hxd] at hfront hret htpost
      refine .inl (Life.ext hfront hret htpost (by omega) ?_)
      exact Function.update_of_ne (Ne.symm hxd) _ _
  | returned =>
    rename_i y
    by_cases hxy : y = x
    · subst hxy
      simp [List.filterMap_cons, Cmd.front?, Cmd.return?, Cmd.tpost?] at hfront hret htpost
      exact .inr (.returned (h.front_done hc) hfront hret.symm htpost rfl
        (Function.update_self _ _ _))
    · simp [List.filterMap_cons, Cmd.front?, Cmd.return?, Cmd.tpost?, hxy] at hfront hret htpost
      exact .inl (Life.ext hfront hret htpost rfl (Function.update_of_ne (Ne.symm hxy) _ _))
  | wrote hmajor hmem hseq hsrc haux =>
    rename_i d major e t y
    by_cases hxy : y = x
    · subst hxy
      simp [List.filterMap_cons, Cmd.front?, Cmd.return?, Cmd.tpost?] at hfront hret htpost
      -- the request knows the numbers of its call, and the return has them
      obtain ⟨-, -, -, hmajorEq, hseqEq⟩ := h.bearer e.msg (h.not_free_of_entry hmem) y haux
      have hmajorOf := (h.linked major e hmem).1
      have hmajor' : (s.shared.cells y).major = major :=
        Option.some.inj (hmajorEq.symm.trans hmajorOf)
      have hseq' : (s.shared.cells y).seq = (s.shared.pool d).seq := hseqEq.symm.trans hseq
      refine .inr (.wrote (s.shared.pool d).smartPayload (h.not_answered hc hmem haux) hfront hret
        htpost rfl ?_)
      show Function.update s.shared.cells y _ y = _
      rw [Function.update_self]
      simp only [life, hmajor', hseq']
    · simp [List.filterMap_cons, Cmd.front?, Cmd.return?, Cmd.tpost?, hxy] at hfront hret htpost
      exact .inl (Life.ext hfront hret htpost rfl (Function.update_of_ne (Ne.symm hxy) _ _))
  | tposted =>
    rename_i t y
    replace hposted := hposted t (s.shared.callSem t ++ [y]) rfl
    rw [List.count_append] at hposted
    by_cases hxy : y = x
    · subst hxy
      rw [List.count_singleton_self] at hposted
      simp [List.filterMap_cons, Cmd.front?, Cmd.return?, Cmd.tpost?] at hfront hret htpost
      exact .inr (.tposted hfront hret htpost.symm (by omega) rfl)
    · rw [List.count_eq_zero.2 (fun hmem ↦ hxy (List.mem_singleton.1 hmem).symm)] at hposted
      simp [List.filterMap_cons, Cmd.front?, Cmd.return?, Cmd.tpost?, hxy] at hfront hret htpost
      exact .inl (Life.ext hfront hret htpost (by omega) rfl)

theorem fine_step (h : Calls cfg s) (hc : s.threads i = c :: rest)
    (hcall : CallMove cfg i c s.shared sh' cs) : ∀ x < sh'.ncells,
      (life ⟨sh', Function.update s.threads i (cs ++ rest)⟩ x).Fine x := by
  intro x hx
  by_cases hlt : x < s.shared.ncells
  · rcases h.life_step hc hcall hlt with hsame | hstep
    · rw [hsame]
      exact h.fine x hlt
    · exact (h.fine x hlt).step hstep
  · -- the call begins with this step
    obtain ⟨hfront, hret, htpost, -⟩ := life_expand hc sh' cs x
    obtain ⟨hf, hr, ht, hp⟩ := h.not_begun (Nat.le_of_not_lt hlt)
    cases hcall with
    | quiet hsame => exact absurd (hsame.ncells_eq ▸ hx) hlt
    | called htask =>
      rename_i k major minor input
      obtain rfl : x = s.shared.ncells :=
        (Nat.lt_succ_iff.1 hx).antisymm (Nat.le_of_not_lt hlt)
      simp [callApi, List.filterMap_cons, Cmd.front?, Cmd.return?, Cmd.tpost?]
        at hfront hret htpost
      have hcell : (life ⟨(callApi cfg i s.shared (.mblueRemoteCall major minor input)).1,
          Function.update s.threads i ((callApi cfg i s.shared
            (.mblueRemoteCall major minor input)).2 ++ [.userCode k] ++ rest)⟩
            s.shared.ncells).cell = ⟨none, i, major, mblueMessageGetSequence s.shared.sequence, [],
              none, none, false⟩ := Function.update_self _ _ _
      have hbegin := Life.Fine.begin (c := s.shared.ncells) i major
        (mblueMessageGetSequence s.shared.sequence)
      rw [← hcell] at hbegin
      convert hbegin using 1
      exact Life.ext (hfront.trans (congrArg (· + 1) hf)) (hret.trans (congrArg (· + 1) hr))
        (htpost.trans ht) hp rfl
    | _ => exact absurd hx hlt

/-- A message in use that carries the cell of a call was in use before, or its sender has just
written it. -/
theorem bearer_origin (h : Calls cfg s) (hc : s.threads i = c :: rest)
    (hmove : Move cfg i c s.shared sh' cs) {m : MsgId} (hm : m ∉ sh'.msgList)
    (haux : (sh'.pool m).aux = .ipcReturn x) :
    (m ∉ s.shared.msgList ∧ (sh'.pool m).header = (s.shared.pool m).header ∧
      (s.shared.pool m).aux = .ipcReturn x) ∨
    ∃ args, c = .send args ∧ args.out = some x ∧ sh'.pool m = initMessage cfg args ∧
      carried cs = [m] := by
  rcases hmove.origin hm with hold | ⟨⟨args, rfl, hpool⟩ | ⟨n, ms, subs, rfl, hpool⟩, hcarried⟩
  · have hheader := hmove.header_eq hold
    exact .inl ⟨hold, hheader, (Message.aux_eq hheader).symm.trans haux⟩
  · rw [hpool] at haux
    exact .inr ⟨args, rfl, (out_of_initMessage haux).2, hpool, hcarried⟩
  · -- what is copied to subscribers is a signal
    have hcopied : (s.shared.pool n).aux = .ipcReturn x := by
      rw [hpool] at haux
      exact haux
    have htype := (h.bearer n (h.not_free (Good.mem_head hc) rfl) x hcopied).2.1
    rw [(h.knows i _ (Good.mem_head hc)).2.1] at htype
    cases htype

theorem bearer_step (h : Calls cfg s) (hc : s.threads i = c :: rest)
    (hmove : Move cfg i c s.shared sh' cs) (hcall : CallMove cfg i c s.shared sh' cs) :
    ∀ m, m ∉ sh'.msgList → ∀ x, (sh'.pool m).aux = .ipcReturn x →
      x < sh'.ncells ∧ (sh'.pool m).type = some .syncCall ∧
        (sh'.pool m).src = .task (sh'.cells x).caller ∧
        (sh'.pool m).major = some (sh'.cells x).major ∧ (sh'.pool m).seq = (sh'.cells x).seq := by
  intro m hm x haux
  rcases h.bearer_origin hc hmove hm haux with ⟨hold, hheader, hauxOld⟩ | ⟨args, rfl, hout, hpool, -⟩
  · obtain ⟨hlt, htype, hsrc, hmajor, hseq⟩ := h.bearer m hold x hauxOld
    obtain ⟨hcaller, hmajorEq, hseqEq⟩ := hcall.cell_eq hlt
    rw [Message.type_eq hheader, Message.src_eq hheader, Message.major_eq hheader,
      Message.seq_eq hheader, hcaller, hmajorEq, hseqEq]
    exact ⟨hlt.trans_le hcall.ncells_le, htype, hsrc, hmajor, hseq⟩
  · obtain ⟨hlt, hcaller, htype, hsrc, hmajor, hseq, -⟩ := h.serves i _ (Good.mem_head hc) x hout
    obtain ⟨hcallerEq, hmajorEq, hseqEq⟩ := hcall.cell_eq hlt
    rw [hpool, hcallerEq, hmajorEq, hseqEq, hcaller, ← hsrc, ← hmajor, ← hseq, ← htype]
    exact ⟨hlt.trans_le hcall.ncells_le, getType_mkCode _ _ _, rfl, getMajor_mkCode _ _ _, rfl⟩

theorem bearer_unique_step (h : Calls cfg s) (hc : s.threads i = c :: rest)
    (hmove : Move cfg i c s.shared sh' cs) :
    ∀ m n x, m ∉ sh'.msgList → n ∉ sh'.msgList → (sh'.pool m).aux = .ipcReturn x →
      (sh'.pool n).aux = .ipcReturn x → m = n := by
  have hserves := h.serves i c (Good.mem_head hc)
  intro m n x hm hn hauxM hauxN
  rcases h.bearer_origin hc hmove hm hauxM with ⟨hmOld, -, hmAux⟩ | ⟨args, rfl, hout, -, hcarried⟩
  · rcases h.bearer_origin hc hmove hn hauxN with ⟨hnOld, -, hnAux⟩ | ⟨args, rfl, hout, -, -⟩
    · exact h.bearer_unique m n x hmOld hnOld hmAux hnAux
    · obtain ⟨-, -, -, -, -, -, -, hno⟩ := hserves x hout
      exact absurd hmAux (hno m hmOld)
  · rcases h.bearer_origin hc hmove hn hauxN with ⟨hnOld, -, hnAux⟩ | ⟨_, _, _, -, hcarried'⟩
    · obtain ⟨-, -, -, -, -, -, -, hno⟩ := hserves x hout
      exact absurd hnAux (hno n hnOld)
    · exact List.cons.inj (hcarried.symm.trans hcarried') |>.1

/-- The entry the bus is to remove is there as long as this is still to be done. -/
theorem complete_kept (h : Calls cfg s) (hc : s.threads i = c :: rest)
    (he : Effect cfg i c a s.shared sh' cs) {major : Major} {e : PendingCall}
    (hmem : e ∈ sh'.callList major) (hpending : .complete major e ∈ s.threads cfg.busTask) :
    .complete major e ∈ Function.update s.threads i (cs ++ rest) cfg.busTask := by
  rcases mem_cases hc hpending with ⟨rfl, rfl⟩ | hrest
  · -- it has just been removed, and a request has one entry at most
    cases he
    have hold : e ∈ (s.shared.release e.msg).callList major := by
      rw [callList_release]
      exact (h.knows _ _ (Good.mem_head hc)).2
    have hunlink := congrFun (entries_unlink hold) e.msg
    rw [entries_release, Pi.add_apply, Pi.single_eq_same] at hunlink
    have hle := h.entries_le e.msg
    have hpos : 0 < entries ((s.shared.release e.msg).unlink major e) e.msg :=
      entries_pos_of_mem hmem
    omega
  · exact mem_expand_iff.2 (.inr hrest)

theorem closed_step (h : Calls cfg s) (hc : s.threads i = c :: rest)
    (he : Effect cfg i c a s.shared sh' cs) (hcall : CallMove cfg i c s.shared sh' cs) :
    ∀ x, (sh'.cells x).answers ≠ [] → ∀ m, m ∉ sh'.msgList →
      (sh'.pool m).aux = .ipcReturn x → (sh'.pool m).dst ≠ some cfg.bus ∧
        ∀ major, ∀ e ∈ sh'.callList major, e.msg = m →
          .complete major e ∈ Function.update s.threads i (cs ++ rest) cfg.busTask := by
  have hmove := move_of_effect he
  intro x hanswers m hm haux
  rcases h.bearer_origin hc hmove hm haux with ⟨hold, -, hauxOld⟩ | ⟨args, rfl, hout, -, -⟩
  · have hlt := (h.bearer m hold x hauxOld).1
    rcases hcall.answers_origin hlt with hsame | ⟨d, major, e, hmem, rfl, hauxE, hlists, hpool, hnew⟩
    · obtain ⟨hdst, hcomplete⟩ := h.closed x (hsame ▸ hanswers) m hold hauxOld
      have hne : c ≠ .busCall m := by
        rintro rfl
        exact hdst (h.knows i _ (Good.mem_head hc)).2.2
      refine ⟨by rwa [hmove.dst_eq hold hne], fun major e hmem hmsg ↦ ?_⟩
      rcases hmove.entry_origin hmem with hmemOld | ⟨heq, -, -⟩
      · exact h.complete_kept hc he hmem (hcomplete major e hmemOld hmsg)
      · exact absurd (hmsg ▸ heq) hne
    · -- the answer has just been written, for the only entry of the request
      obtain rfl := h.bearer_unique m e.msg x hold (h.not_free_of_entry hmem) hauxOld hauxE
      rw [hpool, hlists]
      refine ⟨h.entry_dst major e hmem, fun major' e' hmem' hmsg ↦ ?_⟩
      obtain ⟨hmajorE, -, hentryE⟩ := h.linked major e hmem
      obtain ⟨hmajorE', -, hentryE'⟩ := h.linked major' e' hmem'
      rw [hmsg] at hmajorE' hentryE'
      obtain rfl := Option.some.inj (hmajorE'.symm.trans hmajorE)
      obtain rfl := Option.some.inj (hentryE'.symm.trans hentryE)
      rw [← (h.knows i _ (Good.mem_head hc)).1, Function.update_self]
      exact List.mem_append_left _ hnew
  · -- a call has no answer before it is sent
    obtain ⟨hlt, -, -, -, -, -, hopen, -⟩ := h.serves i _ (Good.mem_head hc) x hout
    cases hcall with
    | quiet hsame => exact absurd (hsame.cells_eq ▸ hopen) hanswers

theorem held_step (h : Calls cfg s) (hc : s.threads i = c :: rest)
    (hcall : CallMove cfg i c s.shared sh' cs) :
    ∀ t, ∀ x ∈ sh'.callSem t, x < sh'.ncells ∧ (sh'.cells x).caller = t := by
  have hkeep : ∀ t, ∀ x ∈ s.shared.callSem t, x < sh'.ncells ∧ (sh'.cells x).caller = t := by
    intro t x hx
    obtain ⟨hlt, hcaller⟩ := h.held t x hx
    exact ⟨hlt.trans_le hcall.ncells_le, (hcall.cell_eq hlt).1.trans hcaller⟩
  intro t x hx
  cases hcall with
  | quiet hsame => exact hkeep t x (hsame.callSem_eq ▸ hx)
  | took hsem =>
    rename_i t' y d tail
    refine hkeep t x ?_
    have hmem : x ∈ Function.update s.shared.callSem t' tail t := hx
    by_cases ht : t = t'
    · subst ht
      rw [Function.update_self] at hmem
      rw [hsem]
      exact List.mem_cons_of_mem _ hmem
    · rwa [Function.update_of_ne ht] at hmem
  | tposted =>
    rename_i t' y
    have hmem : x ∈ Function.update s.shared.callSem t' (s.shared.callSem t' ++ [y]) t := hx
    by_cases ht : t = t'
    · subst ht
      rw [Function.update_self, List.mem_append, List.mem_singleton] at hmem
      rcases hmem with hmem | rfl
      · exact hkeep t x hmem
      · exact h.serves i _ (Good.mem_head hc)
    · rw [Function.update_of_ne ht] at hmem
      exact hkeep t x hmem
  | _ => exact hkeep t x hx

theorem serves_new (h : Calls cfg s) (hc : s.threads i = c :: rest)
    (he : Effect cfg i c a s.shared sh' cs) (hok : Undisturbed cfg i c a s.shared) :
    ∀ d ∈ cs, d.Serves sh' i := by
  have hserves := h.serves i c (Good.mem_head hc)
  cases he with
  | removed hmq hdst htype hhandler =>
    rw [List.forall_mem_singleton]
    cases handles_of_getHandler hhandler <;> trivial
  | userCall hmay =>
    rename_i k f
    cases f with
    | mblueRemoteCall major minor input =>
      have htask : cfg.isTask i = true := hok
      have hcell : (s.shared.getSequence.newCell i major
          (mblueMessageGetSequence s.shared.sequence)).cells s.shared.ncells =
            ⟨none, i, major, mblueMessageGetSequence s.shared.sequence, [], none, none, false⟩ :=
        Function.update_self _ _ _
      simp only [callApi, List.cons_append, List.nil_append, List.forall_mem_cons,
        List.not_mem_nil, false_imp_iff, implies_true, and_true]
      refine ⟨?_, ⟨Nat.lt_succ_self _, congrArg Cell.caller hcell⟩, trivial⟩
      rintro _ ⟨⟩
      refine ⟨Nat.lt_succ_self _, congrArg Cell.caller hcell, rfl, ?_,
        (congrArg Cell.major hcell).symm, (congrArg Cell.seq hcell).symm,
        congrArg Cell.answers hcell, fun m hm haux ↦ ?_⟩
      · show cfg.getCurrentContext i = _
        rw [Config.getCurrentContext, if_pos htask]
      -- no message bears the new cell yet
      · exact absurd (h.bearer m hm _ haux).1 (lt_irrefl _)
    | _ =>
      simp only [callApi, List.cons_append, List.nil_append, List.forall_mem_cons,
        List.not_mem_nil, false_imp_iff, implies_true, and_true, Cmd.Serves, drawnArgs,
        ipcReturnArgs, reduceCtorEq]
  | sendDone halloc hctx =>
    obtain ⟨free, -, rfl⟩ := alloc_eq_some halloc
    simp only [List.forall_mem_cons, List.not_mem_nil, false_imp_iff, implies_true, and_true,
      Cmd.Serves, true_and]
    intro x hx
    obtain ⟨hlt, hcaller, -⟩ := hserves x hx
    exact ⟨hlt, hcaller⟩
  | checkedTask htype hsrc =>
    rename_i m o t
    rw [List.forall_mem_singleton]
    cases o with
    | none =>
      have hne : ((s.shared.pool m).type != some .syncCall) = true := hok
      rw [htype, bne_self_eq_false] at hne
      cases hne
    | some x =>
      -- the message still is the request of this call
      have hboth : ((s.shared.pool m).type == some .syncCall &&
        (s.shared.pool m).src == .task i) = true := hok
      rw [Bool.and_eq_true, beq_iff_eq, beq_iff_eq, hsrc, Source.task.injEq] at hboth
      exact ⟨hboth.2, x, rfl, hserves x rfl⟩
  | returnSync hmajor hfind htype hsrc haux =>
    rename_i d major e t y
    have hmem := List.mem_of_find?_eq_some hfind
    obtain ⟨hlt, -, hsrcEq, -⟩ := h.bearer e.msg (h.not_free_of_entry hmem) y haux
    rw [hsrc, Source.task.injEq] at hsrcEq
    simp only [List.forall_mem_cons, List.not_mem_nil, false_imp_iff, implies_true, and_true,
      Cmd.Serves]
    refine ⟨hlt, ?_⟩
    show (Function.update s.shared.cells y _ y).caller = t
    rw [Function.update_self]
    exact hsrcEq.symm
  | serviceFinished | requestRefused =>
    simp only [List.forall_mem_cons, List.not_mem_nil, false_imp_iff, implies_true, and_true,
      Cmd.Serves, ipcReturnArgs, reduceCtorEq]
  | _ =>
    simp only [List.forall_mem_cons, List.not_mem_nil, false_imp_iff, implies_true, and_true,
      Cmd.Serves]

theorem serves_kept (h : Calls cfg s) (hc : s.threads i = c :: rest)
    (hmove : Move cfg i c s.shared sh' cs) (hcall : CallMove cfg i c s.shared sh' cs) :
    ∀ j, ∀ d ∈ Function.update s.threads i rest j, d.Serves sh' j := by
  have hcell : ∀ {x k}, x < s.shared.ncells ∧ (s.shared.cells x).caller = k →
      x < sh'.ncells ∧ (sh'.cells x).caller = k := fun hx ↦
    ⟨hx.1.trans_le hcall.ncells_le, (hcall.cell_eq hx.1).1.trans hx.2⟩
  intro j d hd
  have hserves := h.serves j d (mem_of_mem_rest hc hd)
  cases d with
  | send args =>
    intro x hx
    obtain ⟨hlt, hcaller, htype, hsrc, hmajor, hseq, hopen, hno⟩ := hserves x hx
    obtain ⟨hcallerEq, hmajorEq, hseqEq⟩ := hcall.cell_eq hlt
    refine ⟨hlt.trans_le hcall.ncells_le, hcallerEq.trans hcaller, htype, hsrc,
      hmajor.trans hmajorEq.symm, hseq.trans hseqEq.symm, ?_, fun m hm haux ↦ ?_⟩
    · rcases hcall.answers_origin hlt with hsame | ⟨_, _, e, hmem, -, haux, -⟩
      · exact hsame.trans hopen
      · exact absurd haux (hno e.msg (h.not_free_of_entry hmem))
    · rcases h.bearer_origin hc hmove hm haux with ⟨hold, -, hauxOld⟩ | ⟨args', rfl, hout, -, -⟩
      · exact hno m hold hauxOld
      · -- two commands would be at the front of one call
        have htwo := two_le_mentions (f := Cmd.front?) hc hout hd hx
        have hone := (h.fine x hlt).fronts
        simp only [life] at hone
        omega
  | syncCheck m o => exact fun x hx ↦ hcell (hserves x hx)
  | tpend t o =>
    obtain ⟨ht, x, hx, hlt⟩ := hserves
    exact ⟨ht, x, hx, hcell hlt⟩
  | remoteReturn x => exact hcell hserves
  | tpost t x => exact hcell hserves
  | _ => trivial

/-- **The step lemma.** -/
theorem step (h : Calls cfg s) {l : ι × Choice ι σ} {t : State ι σ}
    (hok : AtHead (Undisturbed cfg) s l) (hstep : (fused cfg).step s l = some t) :
    Calls cfg t := by
  have honce : Once cfg t := h.toOnce.step (hok.mono Undisturbed.noSelf) hstep
  obtain ⟨c, rest, sh', cs, hc, he, rfl⟩ := effect_of_step hstep
  have hmove := move_of_effect he
  have hcall := callMove_of_effect he (hok.cmd hc) fun t o heq ho ↦ by
    obtain ⟨-, x, hx, -⟩ := heq ▸ h.serves l.1 c (Good.mem_head hc)
    rw [ho] at hx
    cases hx
  exact ⟨honce, h.fine_step hc hcall, h.bearer_step hc hmove hcall, h.bearer_unique_step hc hmove,
    h.closed_step hc he hcall, forall_expand (h.serves_new hc he (hok.cmd hc))
      (h.serves_kept hc hmove hcall), h.held_step hc hcall⟩

theorem initial (cfg : Config ι σ) : Calls cfg (Mblue.initial cfg) :=
  ⟨Once.initial cfg, fun x hx ↦ absurd hx (Nat.not_lt_zero x),
    fun m hm ↦ absurd (List.mem_finRange m) hm, fun m _ _ hm ↦ absurd (List.mem_finRange m) hm,
    fun _ hne ↦ absurd rfl hne, fun i c hc ↦ by
      unfold Mblue.initial at hc
      dsimp only at hc
      split at hc <;> simp at hc <;> rcases hc with rfl | rfl <;> trivial,
    fun _ _ hx ↦ absurd hx List.not_mem_nil⟩

theorem of_run (h : Run (fused cfg).step (AtHead (Undisturbed cfg)) (Mblue.initial cfg) s) :
    Calls cfg s :=
  h.invariant (initial cfg) fun ha hok hstep ↦ ha.step hok hstep

end Calls

/-! ### The result -/

/-- **What callers rely on.** A call that has returned has been answered once, under its own major
and sequence number, and returned that answer; nothing was written through a cell after its call
had returned; a token that was taken belonged to the call that took it, and a token still to be
taken belongs to a call of that task which has not returned. -/
structure CallsAnswered (sh : Shared ι σ) : Prop where
  answered : ∀ c < sh.ncells, ∀ r, (sh.cells c).result = some r → ∃ w, r = some w ∧
    (sh.cells c).answers = [((sh.cells c).major, (sh.cells c).seq, w)]
  never_late : ∀ c < sh.ncells, (sh.cells c).late = false
  own_token : ∀ c < sh.ncells, ∀ d, (sh.cells c).token = some d → d = c
  pending : ∀ t, ∀ d ∈ sh.callSem t, d < sh.ncells ∧ (sh.cells d).caller = t ∧
    (sh.cells d).result = none

theorem Calls.callsAnswered (h : Calls cfg s) : CallsAnswered s.shared where
  answered := by
    intro x hx r hr
    obtain ⟨-, -, htokens, -, hended, hresult, hanswered, -⟩ := h.fine x hx
    simp only [life] at htokens hended hresult hanswered
    rcases hanswered with hnil | ⟨w, hout, hw⟩
    · rw [hnil, List.length_nil] at htokens
      have hone : (s.shared.cells x).ended = 1 := by
        unfold Cell.ended
        rw [hr]
        rfl
      omega
    · exact ⟨w, (hresult r hr).trans hout, hw⟩
  never_late x hx := (h.fine x hx).late
  own_token x hx := (h.fine x hx).own_token
  pending := by
    intro t d hd
    obtain ⟨hlt, hcaller⟩ := h.held t d hd
    refine ⟨hlt, hcaller, ?_⟩
    have htokens := (h.fine d hlt).tokens
    have hended := (h.fine d hlt).ended_le
    have hle := (h.fine d hlt).answers_le
    have hpos : 0 < posted s.shared d :=
      (List.count_pos_iff.2 hd).trans_le (le_sum s.shared.callSem (fun l ↦ l.count d) t)
    simp only [life] at htokens hended hle
    cases hr : (s.shared.cells d).result with
    | none => rfl
    | some r =>
      have hone : (s.shared.cells d).ended = 1 := by
        unfold Cell.ended
        rw [hr]
        rfl
      omega

theorem Undisturbed.unseen : Unseen (Undisturbed cfg) := by
  intro i c a sh major e _ hok
  have hpool : (sh.unlink major e).pool = sh.pool := rfl
  simpa only [Undisturbed, undisturbed, hpool, isSome_alloc_unlink] using hok

/-- **Synchronous calls are safe** in every run in which nothing disturbs them. -/
theorem callsAnswered_of_run
    (h : Run (system cfg).step (AtHead (Undisturbed cfg)) (Mblue.initial cfg) s) :
    CallsAnswered s.shared := by
  have hrun := (Split.of_run h Undisturbed.unseen fun hr ↦ (Calls.of_run hr).toGood).2
  exact of_fuse (fun _ _ _ hanswered ↦
      ⟨hanswered.answered, hanswered.never_late, hanswered.own_token, hanswered.pending⟩)
    (Calls.of_run hrun).callsAnswered

end Invariant

/-- The application's task calls the log service, and gets the word that another task returns under
the call's sequence number. -/
theorem callsAnswered_returned : ∃ t, exec (system (.small 4 [] [])).step
    (AtHead (Undisturbed (.small 4 [] []))) (initial (.small 4 [] []))
      [(2, .api (.mblueRemoteCall mblueLogService 0 0)), (2, .go), (2, .go), (2, .go), (2, .go),
        (1, .api (.ipcReturn mblueLogService 1 20)), (1, .go), (1, .go), (1, .go), (1, .go),
        (0, .finish 0), (0, .go), (0, .go), (0, .go), (0, .go), (0, .go),
        (0, .go), (0, .go), (0, .go), (0, .go), (2, .go), (2, .go)] = some t ∧
      (t.shared.cells 0).result = some (some 20) ∧ CallsAnswered t.shared :=
  exists_of_exec_eq rfl fun _ h ↦ callsAnswered_of_run h

/-- **Without the condition** a call returns unanswered: its pend is interrupted. -/
theorem not_callsAnswered :
    ¬ ∀ t, Run (system (.small 4 [] [])).step (fun _ _ ↦ True) (initial (.small 4 [] [])) t →
      CallsAnswered t.shared := by
  intro hall
  obtain ⟨t, -, hvalue, hsafe⟩ : ∃ t, exec (system (.small 4 [] [])).step (fun _ _ ↦ True)
      (initial (.small 4 [] []))
      [(2, .api (.mblueRemoteCall mblueLogService 0 0)), (2, .go), (2, .go), (2, .go), (2, .go),
        (2, .fail), (2, .go)] = some t ∧
      (t.shared.ncells, (t.shared.cells 0).result) = (1, some none) ∧ CallsAnswered t.shared :=
    exists_of_exec_eq rfl hall
  obtain ⟨hcells, hresult⟩ := Prod.mk.inj hvalue
  obtain ⟨w, hw, -⟩ := hsafe.answered 0 (hcells ▸ Nat.zero_lt_one) none hresult
  cases hw

end Mblue
