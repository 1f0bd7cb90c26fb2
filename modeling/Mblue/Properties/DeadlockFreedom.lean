import Mblue.Properties.RemoteCall
import Mblue.Properties.StrandedCallers
import Mblue.System.Wakeups

/-!
# Calls that go down do not block each other

A task that waits in `ipc_invoke` handles no messages, so tasks that call each other's services can
wait for each other for ever. They cannot when the tasks are **layered**: there is a rank such that a
task calls synchronously only services on tasks of a lower rank, and the bus has a lower rank than
any caller (`Serving`). A service may call further services, and notifiers may call asynchronously.

`settled_of_waiting` says it for every state of every run: if every thread waits, then none waits for
a call. All calls have returned with the value they were answered with, every queue and every call
list is empty, and no token is left in a semaphore.

The argument is a descent along the rank. A task that waits for a call is not stranded
(`Properties/StrandedCallers.lean`): its request or the return for it is with the bus or with the
task of the service. That task waits too, but not for a message, since its queue is not empty
(`Awake.mq_eq_nil`); so it waits for a call, and its rank is lower.
-/

set_option linter.unusedSectionVars false

namespace Mblue

variable {ι σ : Type} [Fintype ι] [DecidableEq ι] [DecidableEq σ]

/-! ### The condition -/

/-- A call goes down: the bus and the task of the called service have a lower rank than the
caller. -/
def callsDown (cfg : Config ι σ) (rank : ι → ℕ) (i : ι) : Cmd ι σ → Choice ι σ → Bool
  | .userCode _, .api (.mblueRemoteCall major _ _) => decide (rank cfg.busTask < rank i) &&
    ((cfg.node major).bind cfg.context).all fun t ↦ decide (rank t < rank i)
  | _, _ => true

/-- No request or return is lost, nothing disturbs the calls, and calls go down. -/
def Serving (cfg : Config ι σ) (rank : ι → ℕ) (i : ι) (c : Cmd ι σ) (a : Choice ι σ)
    (sh : Shared ι σ) : Prop :=
  (Answerable cfg i c a sh ∧ Undisturbed cfg i c a sh) ∧ callsDown cfg rank i c a = true

instance (cfg : Config ι σ) (rank : ι → ℕ) (i : ι) (c : Cmd ι σ) (a : Choice ι σ)
    (sh : Shared ι σ) : Decidable (Serving cfg rank i c a sh) :=
  inferInstanceAs (Decidable ((_ ∧ _) ∧ _))

/-- The thread has ended, or waits at one of its semaphores. -/
def WaitsAt (s : State ι σ) (i : ι) : Prop :=
  match s.threads i with
  | [] => True
  | .templateProc :: _ => s.shared.msgSem i = 0
  | .tpend t _ :: _ => s.shared.callSem t = []
  | _ => False

instance (s : State ι σ) (i : ι) : Decidable (WaitsAt s i) := by
  unfold WaitsAt
  split <;> infer_instance

/-- **Every thread waits.** -/
def Waiting (s : State ι σ) : Prop := ∀ i, WaitsAt s i

instance (s : State ι σ) : Decidable (Waiting s) := inferInstanceAs (Decidable (∀ _, _))

/-! ### What calls go down means -/

/-- The calls so far went down, and a request is on its way to the bus or to its service. -/
structure Layered (cfg : Config ι σ) (rank : ι → ℕ) (s : State ι σ) : Prop extends Good cfg s where
  isTask : ∀ x < s.shared.ncells, cfg.isTask (s.shared.cells x).caller = true
  bus_lt : ∀ x < s.shared.ncells, rank cfg.busTask < rank (s.shared.cells x).caller
  service_lt : ∀ x < s.shared.ncells, ∀ ms t, cfg.node (s.shared.cells x).major = some ms →
    cfg.context ms = some t → rank t < rank (s.shared.cells x).caller
  request_dst : ∀ m, m ∉ s.shared.msgList → (s.shared.pool m).isCall = true →
    (s.shared.pool m).dst = some cfg.bus ∨
      ∃ major, (s.shared.pool m).major = some major ∧ cfg.node major = (s.shared.pool m).dst

variable {cfg : Config ι σ} {rank : ι → ℕ} {s : State ι σ} {i t : ι} {c d : Cmd ι σ}
  {a : Choice ι σ} {rest cs : List (Cmd ι σ)} {sh sh' : Shared ι σ} {x : CellId} {m : MsgId}

/-- **A new cell belongs to the call that is made.** -/
theorem Effect.called_of_new (he : Effect cfg i c a sh sh' cs) (hx : x < sh'.ncells) :
    x < sh.ncells ∨ ∃ k major minor input, c = .userCode k ∧
      a = .api (.mblueRemoteCall major minor input) ∧ (sh'.cells x).caller = i ∧
        (sh'.cells x).major = major := by
  have hrelease (m : MsgId) : (sh.release m).ncells = sh.ncells :=
    (sameCells_release sh m).ncells_eq
  cases he with
  | userCall =>
    rename_i k f _
    cases f with
    | mblueRemoteCall major minor input =>
      by_cases hold : x < sh.ncells
      · exact .inl hold
      · obtain rfl : x = sh.ncells := Nat.eq_of_lt_succ_of_not_lt hx hold
        refine .inr ⟨k, major, minor, input, rfl, rfl, ?_, ?_⟩ <;>
          exact congrArg _ (Function.update_self (f := sh.cells) sh.ncells _)
    | targetSignal source major minor dest data extra =>
      refine .inl ?_
      unfold callApi at hx
      dsimp only at hx
      split at hx <;> exact hx
    | _ => exact .inl hx
  | sendDone halloc | loopReplicated _ halloc =>
    obtain ⟨_, -, rfl⟩ := alloc_eq_some halloc
    exact .inl hx
  | tpendTaken =>
    rename_i t o y tail _
    cases o <;> exact .inl hx
  | subscribeReleased | released => exact .inl (hrelease _ ▸ hx)
  | completed =>
    rename_i major e
    have hlt : x < (sh.release e.msg).ncells := hx
    exact .inl (hrelease e.msg ▸ hlt)
  | _ => exact .inl hx

namespace Layered

theorem request_dst_step (h : Layered cfg rank s) (hc : s.threads i = c :: rest)
    (he : Effect cfg i c a s.shared sh' cs) (hm : m ∉ sh'.msgList)
    (hcall : (sh'.pool m).isCall = true) : (sh'.pool m).dst = some cfg.bus ∨
      ∃ major, (sh'.pool m).major = some major ∧ cfg.node major = (sh'.pool m).dst := by
  have hhead := Good.mem_head hc
  have hmove := move_of_effect he
  rcases hmove.origin hm with hold | ⟨⟨b, rfl, hpool⟩ | ⟨n, ms, subs, rfl, hpool⟩, -⟩
  · by_cases hbusCall : c = .busCall m
    · -- `bus_call` keeps the request, or passes it on to its segment
      subst hbusCall
      cases he with
      | callNoSegment | callNoMemory => exact h.request_dst m hold hcall
      | callNoEntry hmajor hnode | callLinked hmajor hnode =>
        right
        rw [pool_forward, Function.update_self]
        exact ⟨_, hmajor, hnode⟩
    · rw [Message.isCall_eq (hmove.header_eq hold)] at hcall
      rw [Message.major_eq (hmove.header_eq hold), hmove.dst_eq hold hbusCall]
      exact h.request_dst m hold hcall
  · left
    have htype : b.type ≠ .signal := fun heq ↦ by
      rw [hpool, Message.isCall_of_type (type_initMessage cfg b), heq] at hcall
      cases hcall
    rw [hpool]
    show some (b.dst.getD cfg.bus) = some cfg.bus
    rw [h.knows i _ hhead htype, Option.getD_none]
  · have htype : (sh'.pool m).type = some .signal := by
      rw [hpool]
      exact (h.knows i _ hhead).2.1
    rw [Message.isCall_of_type htype] at hcall
    cases hcall

/-- **The step lemma.** -/
theorem step (h : Layered cfg rank s) {l : ι × Choice ι σ} {u : State ι σ}
    (hok : AtHead (Serving cfg rank) s l) (hstep : (fused cfg).step s l = some u) :
    Layered cfg rank u := by
  have hgood := h.toGood.step (hok.mono fun hserving ↦ hserving.1.1.1) hstep
  obtain ⟨i, a⟩ := l
  obtain ⟨c, rest, sh', cs, hc, he, rfl⟩ := effect_of_step hstep
  obtain ⟨⟨-, hundisturbed⟩, hdown⟩ := hok.cmd hc
  have hcell : ∀ x < sh'.ncells, cfg.isTask (sh'.cells x).caller = true ∧
      rank cfg.busTask < rank (sh'.cells x).caller ∧
      ∀ ms t, cfg.node (sh'.cells x).major = some ms → cfg.context ms = some t →
        rank t < rank (sh'.cells x).caller := by
    intro x hx
    rcases he.called_of_new hx with hold | ⟨k, major, minor, input, rfl, rfl, hcaller, hmajor⟩
    · obtain ⟨-, hcaller, hmajor, -⟩ := he.sameCall hold
      rw [hcaller, hmajor]
      exact ⟨h.isTask x hold, h.bus_lt x hold, h.service_lt x hold⟩
    · rw [hcaller, hmajor]
      rw [callsDown, Bool.and_eq_true, decide_eq_true_eq] at hdown
      refine ⟨hundisturbed, hdown.1, fun ms t hnode hctx ↦ ?_⟩
      have hall := hdown.2
      rw [hnode, Option.bind_some, hctx, Option.all_some] at hall
      exact of_decide_eq_true hall
  exact ⟨hgood, fun x hx ↦ (hcell x hx).1, fun x hx ↦ (hcell x hx).2.1,
    fun x hx ↦ (hcell x hx).2.2, fun m hm hcall ↦ h.request_dst_step hc he hm hcall⟩

theorem of_run (h : Run (fused cfg).step (AtHead (Serving cfg rank)) (Mblue.initial cfg) s) :
    Layered cfg rank s :=
  h.invariant ⟨Good.initial cfg, fun x hx ↦ absurd hx (Nat.not_lt_zero x),
    fun x hx ↦ absurd hx (Nat.not_lt_zero x), fun x hx ↦ absurd hx (Nat.not_lt_zero x),
    fun m hm ↦ absurd (List.mem_finRange m) hm⟩ fun ha hok hstep ↦ ha.step hok hstep

end Layered

/-! ### Where every thread waits -/

/-- A thread that does not wait for a call has ended, or its task sleeps. -/
theorem WaitsAt.eq_loop (h : WaitsAt s i) (hgood : Good cfg s)
    (hcall : ∀ t o rest, s.threads i ≠ .tpend t o :: rest) :
    s.threads i = [] ∨ s.threads i = [.templateProc] ∧ s.shared.msgSem i = 0 := by
  unfold WaitsAt at h
  split at h
  · next hnil => exact .inl hnil
  · next hloop =>
    have hordered := hgood.ordered i
    rw [hloop] at hordered
    rw [hloop, eq_nil_of_templateProc hordered]
    exact .inr ⟨rfl, h⟩
  · next hpend => exact absurd hpend (hcall _ _ _)
  · cases h

/-- A command that leads is a pend, in a thread that waits. -/
theorem Awake.eq_tpend (h : Awake cfg s) (hwait : WaitsAt s i) (hd : d ∈ s.threads i)
    (hleads : d.leads = true) : ∃ t o, d = .tpend t o := by
  have htail := h.leading i
  unfold WaitsAt at hwait
  split at hwait
  · next hnil =>
    rw [hnil] at hd
    cases hd
  · next hloop =>
    rw [hloop] at hd htail
    rcases List.mem_cons.1 hd with rfl | hd
    · cases hleads
    · rw [htail d hd] at hleads
      cases hleads
  · next hpend =>
    rw [hpend] at hd htail
    rcases List.mem_cons.1 hd with rfl | hd
    · exact ⟨_, _, rfl⟩
    · rw [htail d hd] at hleads
      cases hleads
  · cases hwait

/-- What the argument uses of a run. -/
structure Served (cfg : Config ι σ) (rank : ι → ℕ) (s : State ι σ) : Prop
    extends Layered cfg rank s, Awake cfg s where
  calls : Calls cfg s
  followed : Followed cfg s

theorem Served.of_run (h : Run (fused cfg).step (AtHead (Serving cfg rank)) (initial cfg) s) :
    Served cfg rank s where
  toLayered := Layered.of_run h
  toAwake := Awake.of_run h
  calls := Calls.of_run (h.mono fun hok ↦ hok.mono fun hserving ↦ hserving.1.2)
  followed := Followed.of_run (h.mono fun hok ↦ hok.mono fun hserving ↦ hserving.1.1)

namespace Served

/-- A task that waits, but not for a call, has nothing to do: its thread holds no other command, and
its queue is empty. -/
theorem at_rest (h : Served cfg rank s) (hwired : ∀ ms t, cfg.context ms = some t →
    cfg.isTask t = true) (hwait : Waiting s)
    (hcall : ∀ t' o rest, s.threads t ≠ .tpend t' o :: rest) :
    (∀ d ∈ s.threads t, d = .templateProc) ∧ s.shared.mq t = [] := by
  have hposts : ∀ j u rest, s.threads j ≠ .semPost u :: rest := fun j u rest hj ↦ by
    obtain ⟨_, _, heq⟩ := h.eq_tpend (hwait j) (Good.mem_head hj) rfl
    cases heq
  rcases (hwait t).eq_loop h.toGood hcall with hnil | ⟨hloop, hsem⟩
  · refine ⟨fun d hd ↦ ?_, List.eq_nil_iff_forall_not_mem.2 fun m hm ↦ ?_⟩
    · rw [hnil] at hd
      cases hd
    · obtain ⟨ms, -, hctx⟩ := h.routed t m hm
      have hmem := h.loops t (hwired ms t hctx)
      rw [hnil] at hmem
      cases hmem
  · refine ⟨fun d hd ↦ ?_, h.mq_eq_nil hloop hsem hposts⟩
    rw [hloop] at hd
    exact List.mem_singleton.1 hd

/-- A request of a call is with the bus or with a task of a lower rank than the caller. -/
theorem rank_lt (h : Served cfg rank s) (hx : x < s.shared.ncells) {ms : σ}
    (hfree : m ∉ s.shared.msgList) (hcall : (s.shared.pool m).isCall = true)
    (hmajor : (s.shared.pool m).major = some (s.shared.cells x).major)
    (hdst : (s.shared.pool m).dst = some ms) (hctx : cfg.context ms = some t) :
    rank t < rank (s.shared.cells x).caller := by
  rcases h.request_dst m hfree hcall with hbus | ⟨major, hmajor', hnode⟩
  · obtain rfl := Option.some.inj (hdst.symm.trans hbus)
    obtain rfl := Option.some.inj (hctx.symm.trans cfg.context_bus)
    exact h.bus_lt x hx
  · obtain rfl := Option.some.inj (hmajor'.symm.trans hmajor)
    exact h.service_lt x hx ms t (hnode.trans hdst) hctx

/-- **No return is to come from tasks that have nothing to do**: neither from the bus nor from the
task of the service. -/
theorem not_replyToCome (h : Served cfg rank s) (hwait : Waiting s) {k : CallNumber} {P : ι → Prop}
    (hbus : P cfg.busTask) (hservice : ∀ m ms t, m ∉ s.shared.msgList →
      (s.shared.pool m).isCall = true → (s.shared.pool m).major = some k.major →
        (s.shared.pool m).dst = some ms → cfg.context ms = some t → P t)
    (hrest : ∀ j, P j → (∀ d ∈ s.threads j, d = .templateProc) ∧ s.shared.mq j = []) :
    ¬ ReplyToCome cfg s k := by
  have hloop := (hrest cfg.busTask hbus).1
  intro hcome
  cases hcome with
  | passed _ _ hpost => cases hloop _ hpost
  | @queued ms t m hcall hk _ hctx hq =>
    obtain ⟨ms', hdst, hctx'⟩ := h.routed t m hq
    have hP := hservice m ms' t (h.not_free_of_mq hq) hcall hk.1 hdst hctx'
    rw [(hrest t hP).2] at hq
    cases hq
  | handled hk hd =>
    obtain ⟨hctx, -, hcall, hdst⟩ := h.knows _ _ hd
    cases (hrest _ (hservice _ _ _ (h.not_free hd rfl) hcall hk.1 hdst hctx)).1 _ hd
  | called hk hd =>
    obtain ⟨hctx, -, hcall, hdst⟩ := h.knows _ _ hd
    cases (hrest _ (hservice _ _ _ (h.not_free hd rfl) hcall hk.1 hdst hctx)).1 _ hd
  | sent _ _ hd =>
    obtain ⟨_, _, heq⟩ := h.eq_tpend (hwait _) hd rfl
    cases heq
  | posted _ _ hd =>
    obtain ⟨_, _, heq⟩ := h.eq_tpend (hwait _) hd rfl
    cases heq
  | returned _ _ hq =>
    rw [(hrest cfg.busTask hbus).2] at hq
    cases hq
  | matched _ hd => cases hloop _ hd
  | completed _ hd => cases hloop _ hd

/-- **No thread waits for a call**, by descent along the rank. -/
theorem not_tpend (h : Served cfg rank s) (hwired : ∀ ms t, cfg.context ms = some t →
    cfg.isTask t = true) (hwait : Waiting s) (i : ι) :
    ∀ t o rest, s.threads i ≠ .tpend t o :: rest := by
  induction hrank : rank i using Nat.strong_induction_on generalizing i with
  | _ n ih =>
    subst hrank
    intro t o rest hc
    have hhead := Good.mem_head hc
    obtain ⟨rfl, x, rfl, hx, rfl⟩ := h.calls.serves i _ hhead
    have hrest : ∀ j, rank j < rank (s.shared.cells x).caller →
        (∀ d ∈ s.threads j, d = .templateProc) ∧ s.shared.mq j = [] :=
      fun j hj ↦ h.at_rest hwired hwait (ih (rank j) hj j rfl)
    have hbus := hrest cfg.busTask (h.bus_lt x hx)
    by_cases hopen : (s.shared.cells x).answers = []
    · -- its request or a return is with a task of a lower rank, but that has nothing to do
      obtain ⟨m, -, -, hplace⟩ :=
        h.followed.notStranded _ _ x rest (h.isTask x hx) hc hopen
      rcases hplace with (hq | hd | hd) | ⟨-, hcome⟩
      · rw [hbus.2] at hq
        cases hq
      · cases hbus.1 _ hd
      · cases hbus.1 _ hd
      · exact h.not_replyToCome hwait (h.bus_lt x hx)
          (fun m ms t hfree hcall hmajor ↦ h.rank_lt hx hfree hcall hmajor) hrest hcome
    · -- its token is in its semaphore, or the bus is about to post it
      have hfine := h.calls.fine x hx
      have hfronts := hfine.fronts
      have htokens := hfine.tokens
      have hpos := mentions_pos (f := Cmd.front?) (b := x) hhead rfl
      have hlength := List.length_pos_iff.2 hopen
      have hposts : mentions Cmd.tpost? s.threads x = 0 := mentions_eq_zero fun j d hd htpost ↦ by
        cases d with
        | tpost u y =>
          obtain rfl : j = cfg.busTask := h.knows j _ hd
          cases hbus.1 _ hd
        | _ => cases htpost
      have hposted : posted s.shared x = 0 := Finset.sum_eq_zero fun u _ ↦ by
        refine List.count_eq_zero.2 fun hmem ↦ ?_
        have hcaller := (h.calls.held u x hmem).2
        have hempty := hwait (s.shared.cells x).caller
        unfold WaitsAt at hempty
        rw [hc] at hempty
        have hnil : s.shared.callSem (s.shared.cells x).caller = [] := hempty
        rw [← hcaller, hnil] at hmem
        cases hmem
      simp only [life] at hfronts htokens
      omega

end Served

/-! ### The result -/

/-- Everything is done. -/
structure AllDone (cfg : Config ι σ) (s : State ι σ) : Prop where
  /-- Only the loops of the tasks are left. -/
  threads : ∀ i, ∀ d ∈ s.threads i, d = .templateProc
  /-- No message is queued. -/
  queues : ∀ t, s.shared.mq t = []
  /-- Every call has returned the value it was answered with. -/
  calls : ∀ x < s.shared.ncells, ∃ w, (s.shared.cells x).result = some (some w) ∧
    (s.shared.cells x).answers = [((s.shared.cells x).major, (s.shared.cells x).seq, w)]
  /-- No request waits for a return. -/
  entries : ∀ major, s.shared.callList major = []
  /-- No token is left. -/
  tokens : ∀ t, s.shared.callSem t = []

/-- Where every thread waits, the bus is not at a `list_del`. -/
theorem Waiting.fuse_eq (h : Waiting s) (cfg : Config ι σ) : fuse cfg s = s := by
  rcases fuse_cases cfg s with ⟨major, e, rest, hbus⟩ | hfuse
  · have hwaits := h cfg.busTask
    unfold WaitsAt at hwaits
    rw [hbus] at hwaits
    cases hwaits
  · exact hfuse

theorem Serving.unseen : Unseen (Serving cfg rank) := fun _ _ _ _ major e huses hok ↦
  ⟨⟨Answerable.unseen major e huses hok.1.1, Undisturbed.unseen major e huses hok.1.2⟩, hok.2⟩

/-- **There is no deadlock**: where every thread waits, everything is done. -/
theorem settled_of_waiting (hwired : ∀ ms t, cfg.context ms = some t → cfg.isTask t = true)
    (h : Run (system cfg).step (AtHead (Serving cfg rank)) (initial cfg) s) (hwait : Waiting s) :
    AllDone cfg s := by
  have hrun := (Split.of_noWrap h Serving.unseen fun hok ↦ hok.1.1.1).2
  rw [hwait.fuse_eq] at hrun
  have hserved := Served.of_run hrun
  have hrest (t : ι) := hserved.at_rest hwired hwait (hserved.not_tpend hwired hwait t)
  have hanswered := hserved.calls.callsAnswered
  have hcalls : ∀ x < s.shared.ncells, ∃ w, (s.shared.cells x).result = some (some w) ∧
      (s.shared.cells x).answers = [((s.shared.cells x).major, (s.shared.cells x).seq, w)] := by
    intro x hx
    have hreturns := (hserved.calls.fine x hx).returns
    have hzero : mentions Cmd.return? s.threads x = 0 := mentions_eq_zero fun j d hd hreturn ↦ by
      rw [(hrest j).1 d hd] at hreturn
      cases hreturn
    simp only [life] at hreturns
    cases hresult : (s.shared.cells x).result with
    | none =>
      rw [hzero, Cell.ended, hresult] at hreturns
      cases hreturns
    | some r =>
      obtain ⟨w, rfl, hanswers⟩ := hanswered.answered x hx r hresult
      exact ⟨w, rfl, hanswers⟩
  refine ⟨fun i ↦ (hrest i).1, fun t ↦ (hrest t).2, hcalls, fun major ↦ ?_, fun t ↦ ?_⟩
  · refine List.eq_nil_iff_forall_not_mem.2 fun e he ↦ ?_
    -- the request is not on its way to the bus, so a return would be to come
    have hnode : cfg.node major ≠ some cfg.bus := fun hbus ↦
      hserved.calls.entry_dst major e he (hserved.followed.circulating major hbus e he).1
    have hpos := (entriesAt_pos he).trans_le (hserved.followed.covered _ hnode)
    exact hserved.not_replyToCome hwait (P := fun _ ↦ True) trivial (fun _ _ _ _ _ _ _ _ ↦ trivial)
      (fun j _ ↦ hrest j) (hserved.followed.replyToCome hpos)
  · refine List.eq_nil_iff_forall_not_mem.2 fun x hx ↦ ?_
    obtain ⟨hlt, -, hnone⟩ := hanswered.pending t x hx
    obtain ⟨w, hresult, -⟩ := hcalls x hlt
    rw [hnone] at hresult
    cases hresult

/-- A call of the log service from its handler to the return of the caller. -/
def layeredRun : List (Fin 3 × Choice (Fin 3) Bool) :=
  blockedRun mblueLogService ++ [(0, .go), (0, .go), (0, .go), (1, .go), (1, .go), (1, .go)] ++
    (1, .finish 20) :: List.replicate 6 (1, .go) ++ List.replicate 7 (0, .go) ++
    [(2, .go), (2, .go), (2, .finish 0)]

theorem settled_of_waiting_answered : ∃ t, exec (system strandConfig).step
      (AtHead (Serving strandConfig Fin.val)) (initial strandConfig) layeredRun = some t ∧
    (decide (Waiting t), (t.shared.cells 0).result) = (true, some (some 20)) ∧
      AllDone strandConfig t := by
  obtain ⟨t, ht, hvalues⟩ : ∃ t, exec (system strandConfig).step
      (AtHead (Serving strandConfig Fin.val)) (initial strandConfig) layeredRun = some t ∧
    (decide (Waiting t), (t.shared.cells 0).result) = (true, some (some 20)) :=
    Option.map_eq_some_iff.1 rfl
  have hwait : Waiting t := of_decide_eq_true (congrArg Prod.fst hvalues)
  exact ⟨t, ht, hvalues, settled_of_waiting (fun _ _ _ ↦ rfl) (run_exec ht) hwait⟩

end Mblue
