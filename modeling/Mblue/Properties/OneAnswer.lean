import Mblue.Properties.RemoteCall
import Mblue.Properties.StrandedCallers
import Mblue.System.HeapEvents

/-!
# A request is answered once

What becomes of a request whose handler has returned a word, over every run that goes on from there.
`default_ipc_handler` sends the word in a return, and nothing else sends a return with the numbers
of the request: `Relay` says that there is one such return, to be put into the bus's queue or put
there already (`Relay.one`), that every return with these numbers carries the word
(`Relay.carries`), and that the call is answered with nothing else (`Relay.answers`). The main
results:

* `answered_of_run` — **every word is answered once**;
* `kept_of_run` — the request and its entry are kept until the bus handles a return.

The condition of the first is `Relaying`: the return finds a free message and room in the bus's
queue, user code sends no return of its own with these numbers, no other request with them is sent,
and nothing disturbs the synchronous calls.
-/

set_option linter.unusedSectionVars false

namespace Mblue

variable {ι σ : Type}

/-! ### Returns with the numbers of a request -/

section Numbers

variable [DecidableEq ι] [DecidableEq σ]

/-- The message is a return with these numbers. -/
def ReturnsTo (sh : Shared ι σ) (m : MsgId) (k : CallNumber) : Prop :=
  (sh.pool m).type = some .callReturn ∧ HasNumber sh m k

instance (sh : Shared ι σ) (m : MsgId) (k : CallNumber) : Decidable (ReturnsTo sh m k) :=
  inferInstanceAs (Decidable (_ ∧ _ ∧ _))

/-- The numbers of what is sent. -/
def SendArgs.number (b : SendArgs ι σ) : CallNumber := ⟨b.major, b.seq⟩

/-- The numbers of a return. -/
def returnNumber (sh : Shared ι σ) (m : MsgId) : Option CallNumber :=
  if (sh.pool m).type = some .callReturn then
    (sh.pool m).major.map fun major ↦ ⟨major, (sh.pool m).seq⟩
  else none

/-- The returns that are still to be put into the bus's queue. -/
def unsent : Tally ι σ CallNumber where
  cmd sh c :=
    match c with
    | .send b => if b.type = .callReturn then some b.number else none
    | .post _ m => returnNumber sh m
    | _ => none
  msg _ _ := none
  cmd_congr := by
    intro sh sh' c h _
    cases c with
    | post t m =>
      obtain ⟨hheader, -⟩ := h m rfl
      exact congrArg₂ (fun (type : Option MessageType) number ↦
        if type = some .callReturn then number else none) (Message.type_eq hheader)
        (by rw [Message.major_eq hheader, Message.seq_eq hheader])
    | _ => rfl
  msg_congr _ := rfl

theorem returnNumber_eq_some {sh : Shared ι σ} {m : MsgId} {k : CallNumber} :
    returnNumber sh m = some k ↔ ReturnsTo sh m k := by
  obtain ⟨major, seq⟩ := k
  rw [returnNumber, Option.ite_none_right_eq_some, Option.map_eq_some_iff, ReturnsTo, HasNumber]
  refine and_congr_right fun _ ↦ ⟨?_, fun h ↦ ⟨major, h.1, by rw [h.2]⟩⟩
  rintro ⟨major', hmajor, heq⟩
  obtain ⟨rfl, rfl⟩ := CallNumber.mk.inj heq
  exact ⟨hmajor, rfl⟩

/-- The command puts a return with these numbers into a queue. -/
def putsReturn (cfg : Config ι σ) (k : CallNumber) (c : Cmd ι σ) (sh : Shared ι σ) : ℕ :=
  match c with
  | .post t m => if ReturnsTo sh m k ∧ (sh.mq t).length < cfg.capacity t then 1 else 0
  | _ => 0

/-! ### The condition -/

/-- What the answer to a request with these numbers needs: it finds a free message and room in the
bus's queue, no other request with these numbers is sent, and user code returns nothing for it. -/
def relaying (cfg : Config ι σ) (k : CallNumber) (c : Cmd ι σ) (a : Choice ι σ)
    (sh : Shared ι σ) : Bool :=
  match c, a with
  | .send b, _ => b.number != k ||
    b.type == .callReturn && (sh.alloc (initMessage cfg b)).isSome
  | .post t m, _ => decide (ReturnsTo sh m k → (sh.mq t).length < cfg.capacity t)
  | .userCode _, .api (.ipcReturn major seq _) => CallNumber.mk major seq != k
  | _, _ => true

/-- Nothing disturbs the calls, and the answer is relayed. -/
def Relaying (cfg : Config ι σ) (k : CallNumber) (i : ι) (c : Cmd ι σ) (a : Choice ι σ)
    (sh : Shared ι σ) : Prop :=
  Undisturbed cfg i c a sh ∧ relaying cfg k c a sh = true

instance (cfg : Config ι σ) (k : CallNumber) (i : ι) (c : Cmd ι σ) (a : Choice ι σ)
    (sh : Shared ι σ) : Decidable (Relaying cfg k i c a sh) :=
  inferInstanceAs (Decidable (_ ∧ _))

end Numbers

/-! ### The invariant -/

section Invariant

variable [Fintype ι] [DecidableEq ι] [DecidableEq σ]

/-- The thread is about to allocate a return with these numbers, or to put it into a queue. -/
def Returning (s : State ι σ) (i : ι) (k : CallNumber) : Prop :=
  ∃ c rest, s.threads i = c :: rest ∧ unsent.cmd s.shared c = some k

/-- **The answer of thread `i` with the word `w` to the request with the numbers `k`**, made by the
calls `X` (one or none), when `n` returns with these numbers have been put into a queue. -/
structure Relay (cfg : Config ι σ) (i : ι) (k : CallNumber) (w : Word) (X : CellId → Prop)
    (s : State ι σ) (n : ℕ) : Prop extends Calls cfg s where
  /-- A request with these numbers is with nobody who would answer it. -/
  handled : ∀ j, ∀ d ∈ s.threads j, ∀ m, d.msg? = some m → (s.shared.pool m).isCall = true →
    HasNumber s.shared m k → d = .finish m ∨ d = .release m
  unqueued : ∀ t, ∀ m ∈ s.shared.mq t, (s.shared.pool m).isCall = true → ¬HasNumber s.shared m k
  sends : ∀ j b, .send b ∈ s.threads j → b.type = .callReturn → b.number = k → b.input = w
  carries : ∀ m, m ∉ s.shared.msgList → ReturnsTo s.shared m k → (s.shared.pool m).smartPayload = w
  begun : ∀ x, X x → x < s.shared.ncells ∧ (s.shared.cells x).major = k.major ∧
    (s.shared.cells x).seq = k.seq
  answers : ∀ x, X x → ∀ r ∈ (s.shared.cells x).answers, r.2.2 = w
  one : n + mentions (unsent.cmd s.shared) s.threads k = 1
  returning : n = 0 → Returning s i k

variable {cfg : Config ι σ} {k : CallNumber} {w : Word} {X : CellId → Prop} {s : State ι σ} {n : ℕ}
  {i j : ι} {c d : Cmd ι σ} {a : Choice ι σ} {rest cs : List (Cmd ι σ)} {sh sh' : Shared ι σ}
  {m : MsgId} {b : SendArgs ι σ}

theorem HasNumber.of_header (hheader : (sh'.pool m).header = (sh.pool m).header)
    (h : HasNumber sh' m k) : HasNumber sh m k :=
  ⟨Message.major_eq hheader ▸ h.1, Message.seq_eq hheader ▸ h.2⟩

theorem hasNumber_initMessage (hpool : sh.pool m = initMessage cfg b) :
    HasNumber sh m k ↔ b.number = k := by
  obtain ⟨major, seq⟩ := k
  have hmajor : (initMessage cfg b).major = some b.major := getMajor_mkCode _ _ _
  rw [HasNumber, hpool, hmajor, Option.some_inj, SendArgs.number, CallNumber.mk.injEq]
  rfl

omit [Fintype ι] [DecidableEq ι] [DecidableEq σ] in
theorem answers_writeCell (sh : Shared ι σ) (x : CellId) (major : Major) (seq : Uint16)
    (value : Word) : ((sh.writeCell x major seq value).cells x).answers =
      (sh.cells x).answers ++ [(major, seq, value)] :=
  congrArg Cell.answers (Function.update_self x _ sh.cells)

omit [Fintype ι] [DecidableEq ι] [DecidableEq σ] in
theorem answers_writeCell_of_ne {x y : CellId} {major : Major} {seq : Uint16} {value : Word}
    (h : x ≠ y) : ((sh.writeCell y major seq value).cells x).answers = (sh.cells x).answers :=
  congrArg Cell.answers (Function.update_of_ne h _ sh.cells)

theorem returnsTo_initMessage (hpool : sh.pool m = initMessage cfg b) :
    ReturnsTo sh m k ↔ b.type = .callReturn ∧ b.number = k := by
  rw [ReturnsTo, hasNumber_initMessage hpool, hpool, type_initMessage, Option.some_inj]

omit [Fintype ι] in
theorem unsent_send : unsent.cmd sh (.send b) = some k ↔ b.type = .callReturn ∧ b.number = k := by
  show (if b.type = .callReturn then some b.number else none) = some k ↔ _
  rw [Option.ite_none_right_eq_some, Option.some_inj]

omit [Fintype ι] in
theorem unsent_post {t : ι} : unsent.cmd sh (.post t m) = some k ↔ ReturnsTo sh m k :=
  returnNumber_eq_some

omit [Fintype ι] in
/-- Only a command that sends or posts is counted. -/
theorem unsent_cases (h : unsent.cmd sh c = some k) :
    (∃ b, c = .send b) ∨ ∃ t m, c = .post t m := by
  cases c with
  | send b => exact .inl ⟨b, rfl⟩
  | post t m => exact .inr ⟨t, m, rfl⟩
  | _ => cases h

/-- A message the command carries afterwards it carried before, took from its queue or allocated. -/
theorem Move.carried_origin (h : Move cfg i c sh sh' cs) (hm : m ∈ carried cs) :
    m ∈ carried [c] ∨ m ∈ sh.mq i ∨ m ∈ sh.msgList := by
  cases h with
  | quiet hsame hcarried => exact .inl (hcarried ▸ hm)
  | removed hmq hdst htype hhandler =>
    rw [carried_getHandler hhandler, List.mem_singleton] at hm
    exact .inr (.inl (hmq ▸ hm ▸ List.mem_cons_self))
  | taken hmakes halloc hsame hcarried =>
    obtain ⟨free, hlist, -⟩ := alloc_eq_some halloc
    rw [hcarried, List.mem_cons] at hm
    exact hm.elim (fun heq ↦ .inr (.inr (hlist ▸ heq ▸ List.mem_cons_self))) .inl
  | lost _ hcarried | dropped _ hcarried =>
    rw [hcarried] at hm
    cases hm
  | forwarded | linked => exact .inl hm
  | posted | completed => cases hm

namespace Relay

/-! ### One step -/

/-- Who carries a request with these numbers is past its answer. -/
theorem past (h : Relay cfg i k w X s n) (hd : d ∈ s.threads j) (hm : d.msg? = some m)
    (hcall : (s.shared.pool m).isCall = true) (hfinish : d ≠ .finish m)
    (hrelease : d ≠ .release m) : ¬HasNumber s.shared m k := fun hk ↦
  (h.handled j d hd m hm hcall hk).elim hfinish hrelease

/-- A message that is used for the first time is no request with these numbers. -/
theorem not_made (h : Relay cfg i k w X s n) (hc : s.threads j = c :: rest)
    (hok : relaying cfg k c a s.shared = true) (hmakes : Makes cfg s.shared c (sh'.pool m))
    (hcall : (sh'.pool m).isCall = true) : ¬HasNumber sh' m k := by
  intro hk
  rcases hmakes with ⟨b, rfl, hpool⟩ | ⟨o, ms, subs, rfl, hpool⟩
  · have hnumber := (hasNumber_initMessage hpool).1 hk
    rw [hpool, Message.isCall_of_type (type_initMessage cfg b)] at hcall
    rw [relaying, hnumber, bne_self_eq_false, Bool.false_or, Bool.and_eq_true, beq_iff_eq] at hok
    rw [hok.1] at hcall
    cases hcall
  · have htype : (sh'.pool m).type = some .signal := by
      rw [hpool]
      exact (h.knows j _ (Good.mem_head hc)).2.1
    rw [Message.isCall_of_type htype] at hcall
    cases hcall

/-- **No second return** with these numbers is sent. -/
theorem not_resent (h : Relay cfg i k w X s n) (hc : s.threads j = c :: rest)
    (he : Effect cfg j c a s.shared sh' cs) (hok : relaying cfg k c a s.shared = true)
    (hb : .send b ∈ cs) (htype : b.type = .callReturn) : b.number ≠ k := by
  rintro rfl
  have hknows := h.knows j c (Good.mem_head hc)
  cases he with
  | removed hmq hdst htype hhandler =>
    rw [← List.mem_singleton.1 hb] at hhandler
    cases handles_of_getHandler hhandler
  | userCall hmay =>
    rename_i u f
    have hmem := (List.mem_append.1 hb).resolve_right fun hmem ↦ by simp at hmem
    cases f with
    | ipcReturn major seq data =>
      obtain rfl := Cmd.send.inj (List.mem_singleton.1 hmem)
      exact absurd rfl (bne_iff_ne.1 hok)
    | mblueRemoteCall major minor input =>
      rcases List.mem_cons.1 hmem with heq | hmem
      · rw [Cmd.send.inj heq] at htype
        cases htype
      · cases List.mem_singleton.1 hmem
    | _ =>
      rw [Cmd.send.inj (List.mem_singleton.1 hmem)] at htype
      cases htype
  | serviceFinished hmajor | requestRefused _ _ hmajor =>
    -- the request that is answered would be one with these numbers
    rcases List.mem_cons.1 hb with heq | hmem
    · obtain rfl := Cmd.send.inj heq
      exact h.past (Good.mem_head hc) rfl hknows.2.2.1 (by simp) (by simp) ⟨hmajor, rfl⟩
    · cases List.mem_singleton.1 hmem
  | _ => simp at hb

theorem handled_step (h : Relay cfg i k w X s n) (hc : s.threads j = c :: rest)
    (he : Effect cfg j c a s.shared sh' cs) (hok : relaying cfg k c a s.shared = true)
    (hgood : Good cfg ⟨sh', Function.update s.threads j (cs ++ rest)⟩) :
    ∀ j', ∀ d ∈ Function.update s.threads j (cs ++ rest) j', ∀ m, d.msg? = some m →
      (sh'.pool m).isCall = true → HasNumber sh' m k → d = .finish m ∨ d = .release m := by
  have hmove := move_of_effect he
  intro j' d hd m hm hcall hk
  rcases hmove.origin (hgood.not_free hd hm) with hold | ⟨hmakes, -⟩
  swap
  · exact absurd hk (h.not_made hc hok hmakes hcall)
  have hheader := hmove.header_eq hold
  have hcallOld : (s.shared.pool m).isCall = true := Message.isCall_eq hheader ▸ hcall
  have hkOld : HasNumber s.shared m k := hk.of_header hheader
  rcases mem_expand_iff.1 hd with ⟨rfl, hnew⟩ | hrest
  swap
  · exact h.handled j' d (mem_of_mem_rest hc hrest) m hm hcallOld hkOld
  rcases hmove.carried_origin (List.mem_filterMap.2 ⟨d, hnew, hm⟩) with hcarried | hmq | hfree
  · obtain ⟨c', hc', hmsg⟩ := List.mem_filterMap.1 hcarried
    obtain rfl := List.mem_singleton.1 hc'
    -- after the payload is freed the request is released
    rcases h.handled j' c' (Good.mem_head hc) m hmsg hcallOld hkOld with rfl | rfl
    · cases he <;> exact .inr (List.mem_singleton.1 hnew)
    · cases he
      cases hnew
  · exact absurd hkOld (h.unqueued j' m hmq hcallOld)
  · exact absurd hfree hold

theorem unqueued_step (h : Relay cfg i k w X s n) (hc : s.threads j = c :: rest)
    (hmove : Move cfg j c s.shared sh' cs) :
    ∀ t, ∀ m ∈ sh'.mq t, (sh'.pool m).isCall = true → ¬HasNumber sh' m k := by
  intro t m hm hcall hk
  rcases hmove.mq_origin hm with hold | rfl
  · have hheader := (h.kept_of_mq hc hmove hold).1
    exact h.unqueued t m hold (Message.isCall_eq hheader ▸ hcall) (hk.of_header hheader)
  · have hheader := hmove.header_eq (h.not_free (Good.mem_head hc) rfl)
    exact h.past (Good.mem_head hc) rfl (Message.isCall_eq hheader ▸ hcall) (by simp) (by simp)
      (hk.of_header hheader)

theorem sends_step (h : Relay cfg i k w X s n) (hc : s.threads j = c :: rest)
    (he : Effect cfg j c a s.shared sh' cs) (hok : relaying cfg k c a s.shared = true) :
    ∀ j' b, .send b ∈ Function.update s.threads j (cs ++ rest) j' → b.type = .callReturn →
      b.number = k → b.input = w := by
  intro j' b hb htype hk
  rcases mem_expand_iff.1 hb with ⟨-, hnew⟩ | hrest
  · exact absurd hk (h.not_resent hc he hok hnew htype)
  · exact h.sends j' b (mem_of_mem_rest hc hrest) htype hk

theorem carries_step (h : Relay cfg i k w X s n) (hc : s.threads j = c :: rest)
    (hmove : Move cfg j c s.shared sh' cs) :
    ∀ m, m ∉ sh'.msgList → ReturnsTo sh' m k → (sh'.pool m).smartPayload = w := by
  rintro m hm ⟨htype, hk⟩
  rcases hmove.origin hm with hold | ⟨⟨b, rfl, hpool⟩ | ⟨o, ms, subs, rfl, hpool⟩, -⟩
  · have hheader := hmove.header_eq hold
    rw [Message.smartPayload_eq hheader]
    exact h.carries m hold ⟨Message.type_eq hheader ▸ htype, hk.of_header hheader⟩
  · rw [hpool, type_initMessage, Option.some_inj] at htype
    have hinput := h.sends j b (Good.mem_head hc) htype ((hasNumber_initMessage hpool).1 hk)
    rw [hpool]
    exact hinput
  · have hsignal : (sh'.pool m).type = some .signal := by
      rw [hpool]
      exact (h.knows j _ (Good.mem_head hc)).2.1
    rw [hsignal] at htype
    cases htype

theorem begun_step (h : Relay cfg i k w X s n) (hcall : CallMove cfg j c s.shared sh' cs) :
    ∀ x, X x → x < sh'.ncells ∧ (sh'.cells x).major = k.major ∧ (sh'.cells x).seq = k.seq := by
  intro x hx
  obtain ⟨hlt, hmajor, hseq⟩ := h.begun x hx
  obtain ⟨-, hmajorEq, hseqEq⟩ := hcall.cell_eq hlt
  exact ⟨hlt.trans_le hcall.ncells_le, hmajorEq.trans hmajor, hseqEq.trans hseq⟩

/-- What is written through the cell of a call is the payload of a return with its numbers. -/
theorem answers_step (h : Relay cfg i k w X s n) (hc : s.threads j = c :: rest)
    (hcall : CallMove cfg j c s.shared sh' cs) :
    ∀ x, X x → ∀ r ∈ (sh'.cells x).answers, r.2.2 = w := by
  intro x hx r hr
  obtain ⟨hlt, hmajorX, hseqX⟩ := h.begun x hx
  rcases hcall.answers_origin hlt with hsame | ⟨d, -, -, -, rfl, -⟩
  · exact h.answers x hx r (hsame ▸ hr)
  cases hcall with
  | quiet hcells => exact h.answers x hx r (hcells.cells_eq ▸ hr)
  | wrote hmajor hmem hseq hsrc haux =>
    rename_i major e t y
    by_cases hxy : x = y
    · subst hxy
      have hcell := answers_writeCell s.shared x major (s.shared.pool d).seq
        (s.shared.pool d).smartPayload
      rcases List.mem_append.1 (hcell ▸ hr) with hold | hnew
      · exact h.answers x hx r hold
      · obtain ⟨-, -, -, hmajorE, hseqE⟩ := h.bearer e.msg (h.not_free_of_entry hmem) x haux
        obtain rfl : major = k.major := hmajorX ▸
          Option.some.inj ((h.linked major e hmem).1.symm.trans hmajorE)
        have hk : HasNumber s.shared d k := ⟨hmajor, hseq.symm.trans (hseqE.trans hseqX)⟩
        rw [List.mem_singleton.1 hnew]
        exact h.carries d (h.not_free (Good.mem_head hc) rfl)
          ⟨(h.knows j _ (Good.mem_head hc)).2.1, hk⟩
    · exact h.answers x hx r (answers_writeCell_of_ne hxy ▸ hr)

/-- What is sent is posted next, and a return with these numbers finds a free message. -/
theorem send_cases (hok : relaying cfg k (.send b) a sh = true)
    (he : Effect cfg j (.send b) a sh sh' cs) :
    cs = [] ∧ unsent.cmd sh (.send b) ≠ some k ∨ ∃ t m, cs = [.post t m, .syncCheck m b.out] ∧
      (unsent.cmd sh (.send b) = some k ↔ unsent.cmd sh' (.post t m) = some k) := by
  cases he with
  | sendFailed hnone =>
    refine .inl ⟨rfl, fun hk ↦ ?_⟩
    rw [relaying, (unsent_send.1 hk).2, bne_self_eq_false, Bool.false_or, Bool.and_eq_true,
      hnone] at hok
    cases hok.2
  | sendDone halloc hctx =>
    rename_i m t
    obtain ⟨free, -, rfl⟩ := alloc_eq_some halloc
    have hpool : (Function.update sh.pool m (initMessage cfg b)) m = initMessage cfg b :=
      Function.update_self _ _ _
    exact .inr ⟨t, m, rfl, unsent_send.trans (unsent_post.trans (returnsTo_initMessage hpool)).symm⟩

/-- A command that sends and posts nothing is not followed by one that sends or posts a return with
these numbers. -/
theorem none_unsent (h : Relay cfg i k w X s n) (hc : s.threads j = c :: rest)
    (he : Effect cfg j c a s.shared sh' cs) (hok : relaying cfg k c a s.shared = true)
    (hsend : ∀ b, c ≠ .send b) (hd : d ∈ cs) : unsent.cmd sh' d ≠ some k := by
  intro hk
  have hknows := h.knows j c (Good.mem_head hc)
  have hmove := move_of_effect he
  rcases unsent_cases hk with ⟨b, rfl⟩ | ⟨t, m, rfl⟩
  · exact h.not_resent hc he hok hd (unsent_send.1 hk).1 (unsent_send.1 hk).2
  · -- what the bus passes on is a signal or a request
    have htype := (unsent_post.1 hk).1
    have hcases : (sh'.pool m).type = some .signal ∨ (sh'.pool m).isCall = true := by
      cases he with
      | removed hmq hdst htype hhandler =>
        rw [← List.mem_singleton.1 hd] at hhandler
        cases handles_of_getHandler hhandler
      | userCall hmay =>
        rename_i u f
        cases f <;> simp [callApi] at hd
      | sendFailed | sendDone => exact absurd rfl (hsend _)
      | loopReplicated hctx halloc =>
        rename_i o ms subs t' r sh₁
        obtain ⟨free, -, rfl⟩ := alloc_eq_some halloc
        obtain ⟨-, rfl⟩ : t = t' ∧ m = r := by simpa using hd
        refine .inl ?_
        show (Function.update s.shared.pool m (replicate (s.shared.pool o) ms) m).type = _
        rw [Function.update_self]
        exact hknows.2.1
      | callNoEntry hmajor | callLinked hmajor =>
        obtain ⟨-, rfl⟩ := Cmd.post.inj (List.mem_singleton.1 hd)
        have hheader := hmove.header_eq (h.not_free (Good.mem_head hc) rfl)
        exact .inr (Message.isCall_eq hheader ▸ hknows.2.1)
      | _ => simp at hd
    rcases hcases with hsignal | hcall
    · rw [hsignal] at htype
      cases htype
    · rw [Message.isCall_of_type htype] at hcall
      cases hcall

/-- A post of a return with these numbers finds room. -/
theorem post_room {t : ι} (hok : relaying cfg k (.post t m) a sh = true)
    (hk : unsent.cmd sh (.post t m) = some k) :
    ReturnsTo sh m k ∧ (sh.mq t).length < cfg.capacity t :=
  have hreturns := unsent_post.1 hk
  ⟨hreturns, of_decide_eq_true hok hreturns⟩

/-- A return that was to be sent is still to be sent, or is put into a queue. -/
theorem passed (h : Relay cfg i k w X s n) (hc : s.threads j = c :: rest)
    (he : Effect cfg j c a s.shared sh' cs) (hok : relaying cfg k c a s.shared = true) :
    putsReturn cfg k c s.shared + (cs.filterMap (unsent.cmd sh')).count k =
      ([c].filterMap (unsent.cmd s.shared)).count k := by
  by_cases hsend : ∃ b, c = .send b
  · obtain ⟨b, rfl⟩ := hsend
    have hzero : putsReturn cfg k (.send b) s.shared = 0 := rfl
    rcases send_cases hok he with ⟨rfl, hne⟩ | ⟨t, m, rfl, hiff⟩
    · rw [count_token_of_ne hne]
      rfl
    · have hcheck : [.post t m, .syncCheck m b.out].filterMap (unsent.cmd sh') =
          [.post t m].filterMap (unsent.cmd sh') := rfl
      rw [hzero, Nat.zero_add, hcheck, count_token_congr hiff]
  by_cases hpost : ∃ t m, c = .post t m
  · obtain ⟨t, m, rfl⟩ := hpost
    have hnil : cs.filterMap (unsent.cmd sh') = [] := by
      cases he <;> rfl
    rw [hnil, List.count_nil, Nat.add_zero, putsReturn]
    by_cases hk : unsent.cmd s.shared (.post t m) = some k
    · rw [if_pos (post_room hok hk), count_token hk]
    · rw [if_neg fun hboth ↦ hk (unsent_post.2 hboth.1), count_token_of_ne hk]
  · have hnone : unsent.cmd s.shared c ≠ some k := fun hk ↦ (unsent_cases hk).elim hsend hpost
    have hzero : putsReturn cfg k c s.shared = 0 := by
      cases c <;> first | rfl | exact absurd ⟨_, _, rfl⟩ hpost
    rw [hzero, count_token_of_ne hnone, count_tokens_of_ne fun d hd ↦
      h.none_unsent hc he hok (fun b heq ↦ hsend ⟨b, heq⟩) hd]

/-- **One return**: what was to be sent is sent, and nothing else is to be. -/
theorem one_step (h : Relay cfg i k w X s n) (hc : s.threads j = c :: rest)
    (he : Effect cfg j c a s.shared sh' cs) (hok : relaying cfg k c a s.shared = true) :
    n + putsReturn cfg k c s.shared +
      mentions (unsent.cmd sh') (Function.update s.threads j (cs ++ rest)) k = 1 := by
  have hone := h.one
  have hpassed := h.passed hc he hok
  have hkept : ∀ j', ∀ d ∈ Function.update s.threads j rest j',
      unsent.cmd sh' d = unsent.cmd s.shared d := fun _ _ ↦
    Tally.cmd_kept h.toGood hc (move_of_effect he)
  have htrade := mentions_trade (unsent.cmd s.shared) hc cs k hkept
  omega

/-- Until the return is in a queue the thread that sends it does nothing else. -/
theorem returning_step (h : Relay cfg i k w X s n) (hc : s.threads j = c :: rest)
    (he : Effect cfg j c a s.shared sh' cs) (hok : relaying cfg k c a s.shared = true)
    (hn : n + putsReturn cfg k c s.shared = 0) :
    Returning ⟨sh', Function.update s.threads j (cs ++ rest)⟩ i k := by
  obtain ⟨c', rest', hc', hk⟩ := h.returning (by omega)
  by_cases hji : j = i
  · subst hji
    obtain ⟨rfl, rfl⟩ := List.cons.inj (hc'.symm.trans hc)
    rcases unsent_cases hk with ⟨b, rfl⟩ | ⟨t, m, rfl⟩
    · rcases send_cases hok he with ⟨-, hne⟩ | ⟨t, m, rfl, hiff⟩
      · exact absurd hk hne
      · exact ⟨.post t m, _, Function.update_self _ _ _, hiff.1 hk⟩
    · rw [putsReturn, if_pos (post_room hok hk)] at hn
      omega
  · have hkept : c' ∈ Function.update s.threads j rest i := by
      rw [Function.update_of_ne (Ne.symm hji), hc']
      exact List.mem_cons_self
    refine ⟨c', rest', (Function.update_of_ne (Ne.symm hji) _ _).trans hc', ?_⟩
    exact (Tally.cmd_kept (T := unsent) h.toGood hc (move_of_effect he) hkept).trans hk

/-- **The step lemma.** -/
theorem step {p q : State ι σ × ℕ} {l : ι × Choice ι σ} (h : Relay cfg i k w X p.1 p.2)
    (hok : AtHead (Relaying cfg k) p.1 l)
    (hstep : counted (fused cfg).step (putsReturn cfg k) p l = some q) :
    Relay cfg i k w X q.1 q.2 := by
  obtain ⟨t, ht, rfl⟩ := Option.map_eq_some_iff.1 hstep
  have hcalls := h.toCalls.step (hok.mono And.left) ht
  obtain ⟨c, rest, sh', cs, hc, he, rfl⟩ := effect_of_step ht
  obtain ⟨hundisturbed, hrelaying⟩ := hok.cmd hc
  have hmove := move_of_effect he
  have hcall := callMove_of_effect he hundisturbed fun t o heq ho ↦ by
    obtain ⟨-, x, hx, -⟩ := heq ▸ h.serves l.1 c (Good.mem_head hc)
    rw [ho] at hx
    cases hx
  have hcount : ((p.1.threads l.1).head?.elim 0 fun c ↦ putsReturn cfg k c p.1.shared) =
      putsReturn cfg k c p.1.shared := by
    rw [hc]
    rfl
  dsimp only
  rw [hcount]
  exact ⟨hcalls, h.handled_step hc he hrelaying hcalls.toGood, h.unqueued_step hc hmove,
    h.sends_step hc he hrelaying, h.carries_step hc hmove, h.begun_step hcall,
    h.answers_step hc hcall, h.one_step hc he hrelaying, h.returning_step hc he hrelaying⟩

end Relay

/-! ### The result -/

/-- The handler of a service has the request `m` with the numbers `k`, and nothing else has these
numbers: no other request and no return; the call is not answered, and its entry not about to be
removed. -/
structure Handling (s : State ι σ) (i : ι) (m : MsgId) (k : CallNumber) : Prop where
  called : ∃ ms f args rest, s.threads i = .userCode (.service ms m f args) :: rest
  number : HasNumber s.shared m k
  sole : ∀ o, o ∉ s.shared.msgList → (s.shared.pool o).isCall = true → HasNumber s.shared o k →
    o = m
  no_return : ∀ d, d ∉ s.shared.msgList → ¬ReturnsTo s.shared d k
  no_send : ∀ j b, .send b ∈ s.threads j → b.type = .callReturn → b.number ≠ k
  unanswered : ∀ x, (s.shared.pool m).aux = .ipcReturn x → (s.shared.cells x).answers = []
  unmatched : ∀ j e, e.msg = m → .complete k.major e ∉ s.threads j ∧ .unlink k.major e ∉ s.threads j

/-- **What becomes of the word `w`** that the handler of the request `m` returned in the state `s`,
when `n` returns with its numbers have been put into a queue. -/
structure Answered (s : State ι σ) (i : ι) (m : MsgId) (k : CallNumber) (w : Word) (t : State ι σ)
    (n : ℕ) : Prop where
  /-- One return is sent, or is still to be sent. -/
  sent : n = 1 ∨ n = 0 ∧ ∃ c ∈ t.threads i, unsent.cmd t.shared c = some k
  /-- When `default_ipc_handler` goes on to free the payload it is sent. -/
  through : ∀ rest, t.threads i = .finish m :: rest → n = 1
  carries : ∀ d, d ∉ t.shared.msgList → ReturnsTo t.shared d k → (t.shared.pool d).smartPayload = w
  /-- `mblue_remote_call` returns the word. -/
  value : ∀ x, (s.shared.pool m).aux = .ipcReturn x →
    ∀ r, (t.shared.cells x).result = some r → r = some w

namespace Relay

/-- The answer begins when the handler returns. -/
theorem begin {t : State ι σ} (h : Calls cfg s) (hs : Handling s i m k)
    (hstep : (fused cfg).step s (i, .finish w) = some t) :
    Relay cfg i k w (fun x ↦ (s.shared.pool m).aux = .ipcReturn x) t 0 := by
  obtain ⟨ms, f, args, rest, hc⟩ := hs.called
  have hok : AtHead (Undisturbed cfg) s (i, .finish w) := AtHead.of_head hc rfl
  have hcalls := h.step hok hstep
  obtain ⟨c, rest', sh', cs, hc', he, rfl⟩ := effect_of_step hstep
  obtain ⟨rfl, rfl⟩ := List.cons.inj (hc.symm.trans hc')
  have hm : m ∉ s.shared.msgList := h.not_free (Good.mem_head hc) rfl
  cases he with
  | serviceFinished hmajor =>
    obtain rfl := Option.some.inj (hmajor.symm.trans hs.number.1)
    have hsent : (ipcReturnArgs cfg i k.major (s.shared.pool m).seq w).number = k := by
      rw [hs.number.2]
      rfl
    refine ⟨hcalls, fun j d hd o ho hcall hk ↦ ?_, fun t o ho hcall hk ↦ ?_,
      fun j b hb htype hk ↦ ?_, fun d hd hreturns ↦ absurd hreturns (hs.no_return d hd),
      fun x hx ↦ ?_, fun x hx r hr ↦ ?_, ?_, fun _ ↦ ?_⟩
    · -- the request is the only one with these numbers, and `.finish` has it
      obtain rfl := hs.sole o (hcalls.not_free hd ho) hcall hk
      rcases mem_expand_iff.1 hd with ⟨-, hnew⟩ | hrest
      · rcases List.mem_cons.1 hnew with rfl | hnew
        · cases ho
        · exact .inl (List.mem_singleton.1 hnew)
      · exact absurd rfl (h.carrier_unique hc hrest ho)
    · obtain rfl := hs.sole o (h.not_free_of_mq ho) hcall hk
      exact h.carrier_ne_of_mq (Good.mem_head hc) rfl t ho
    · rcases mem_expand_iff.1 hb with ⟨-, hnew⟩ | hrest
      · rcases List.mem_cons.1 hnew with heq | hnew
        · rw [Cmd.send.inj heq]
          rfl
        · cases List.mem_singleton.1 hnew
      · exact absurd hk (hs.no_send j b (mem_of_mem_rest hc hrest) htype)
    · obtain ⟨hlt, -, -, hmajorX, hseqX⟩ := h.bearer m hm x hx
      exact ⟨hlt, Option.some.inj (hmajorX.symm.trans hs.number.1), hseqX.symm.trans hs.number.2⟩
    · rw [hs.unanswered x hx] at hr
      cases hr
    · -- nothing was to be sent before
      have hnone : mentions (unsent.cmd s.shared) s.threads k = 0 := by
        refine mentions_eq_zero fun j d hd hk ↦ ?_
        rcases unsent_cases hk with ⟨b, rfl⟩ | ⟨t, o, rfl⟩
        · obtain ⟨htype, hnumber⟩ := unsent_send.1 hk
          exact hs.no_send j b hd htype hnumber
        · exact hs.no_return o (h.not_free hd rfl) (unsent_post.1 hk)
      have hexpand := mentions_expand (unsent.cmd s.shared) hc
        [.send (ipcReturnArgs cfg i k.major (s.shared.pool m).seq w), .finish m] k
      have hone : ([.send (ipcReturnArgs cfg i k.major (s.shared.pool m).seq w),
          .finish m].filterMap (unsent.cmd s.shared)).count k = 1 :=
        count_token (f := unsent.cmd s.shared) (unsent_send.2 ⟨rfl, hsent⟩)
      rw [hnone, hone] at hexpand
      exact (Nat.zero_add _).trans hexpand
    · exact ⟨_, _, Function.update_self _ _ _, unsent_send.2 ⟨rfl, hsent⟩⟩

theorem of_run {t : State ι σ} {y : State ι σ × ℕ} (h : Relay cfg i k w X t 0)
    (hrun : Run (counted (fused cfg).step (putsReturn cfg k))
      (fun x l ↦ AtHead (Relaying cfg k) x.1 l) (t, 0) y) : Relay cfg i k w X y.1 y.2 :=
  hrun.invariant (P := fun y ↦ Relay cfg i k w X y.1 y.2) h fun h hok hstep ↦ h.step hok hstep

theorem answered {t : State ι σ}
    (h : Relay cfg i k w (fun x ↦ (s.shared.pool m).aux = .ipcReturn x) t n) :
    Answered s i m k w t n where
  sent := by
    rcases Nat.eq_zero_or_pos n with hzero | hpos
    · obtain ⟨c, rest, hc, hk⟩ := h.returning hzero
      exact .inr ⟨hzero, c, hc ▸ List.mem_cons_self, hk⟩
    · have hone := h.one
      exact .inl (by omega)
  through rest hfinish := by
    rcases Nat.eq_zero_or_pos n with hzero | hpos
    · obtain ⟨c, rest', hc, hk⟩ := h.returning hzero
      obtain ⟨rfl, -⟩ := List.cons.inj (hfinish.symm.trans hc)
      cases hk
    · have hone := h.one
      omega
  carries := h.carries
  value x hx r hr := by
    obtain ⟨v, rfl, hanswers⟩ := h.callsAnswered.answered x (h.begun x hx).1 r hr
    exact congrArg some (h.answers x hx _ (hanswers ▸ List.mem_singleton_self _))

end Relay

theorem Answered.of_fuse {t : State ι σ} (h : Answered s i m k w (fuse cfg t) n) :
    Answered s i m k w t n where
  sent := h.sent.imp_right fun hunsent ↦ by
    obtain ⟨hzero, c, hc, hk⟩ := hunsent
    exact ⟨hzero, c, mem_of_mem_fuse hc,
      (Tally.cmd_of_pool (T := unsent) (fuse_pool cfg t) c).symm.trans hk⟩
  through rest hfinish :=
    h.through rest (threads_fuse_of_ne hfinish fun _ _ heq ↦ by cases heq)
  carries := by simpa only [ReturnsTo, HasNumber, fuse_pool, fuse_msgList] using h.carries
  value := by simpa only [fuse_cells] using h.value

theorem Handling.fuse (h : Handling s i m k) : Handling (fuse cfg s) i m k where
  called := by
    obtain ⟨ms, f, args, rest, hc⟩ := h.called
    exact ⟨ms, f, args, rest, threads_fuse_of_ne hc fun _ _ heq ↦ by cases heq⟩
  number := by simpa only [HasNumber, fuse_pool] using h.number
  sole := by simpa only [HasNumber, fuse_pool, fuse_msgList] using h.sole
  no_return := by simpa only [ReturnsTo, HasNumber, fuse_pool, fuse_msgList] using h.no_return
  no_send j b hb := h.no_send j b (mem_of_mem_fuse hb)
  unanswered := by simpa only [fuse_pool, fuse_cells] using h.unanswered
  unmatched j e he := ⟨fun hd ↦ (h.unmatched j e he).1 (mem_of_mem_fuse hd),
    fun hd ↦ (h.unmatched j e he).2 (mem_of_mem_fuse hd)⟩

theorem Relaying.unseen : Unseen (Relaying cfg k) := by
  intro i c a sh major e huses hok
  refine ⟨Undisturbed.unseen major e huses hok.1, ?_⟩
  have hrelaying := hok.2
  cases c with
  | send b => simpa only [relaying, isSome_alloc_unlink] using hrelaying
  | userCode u => cases a with
    | api f => cases f <;> exact hrelaying
    | _ => rfl
  | _ => exact hrelaying

/-- **Every word is answered once**, in every run in which nothing disturbs the answer. -/
theorem answered_of_run {t : State ι σ} {y : State ι σ × ℕ}
    (hr : Run (system cfg).step (AtHead (Undisturbed cfg)) (initial cfg) s)
    (hs : Handling s i m k) (hstep : (system cfg).step s (i, .finish w) = some t)
    (hrun : Run (counted (system cfg).step (putsReturn cfg k))
      (fun x l ↦ AtHead (Relaying cfg k) x.1 l) (t, 0) y) : Answered s i m k w y.1 y.2 := by
  obtain ⟨ms, f, args, rest, hc⟩ := hs.called
  obtain ⟨hsplit, hfused⟩ := Split.of_run hr Undisturbed.unseen fun h ↦ (Calls.of_run h).toGood
  have hok : AtHead (Undisturbed cfg) s (i, .finish w) := AtHead.of_head hc rfl
  have hsplit' := (Split.of_run (.tail hr hok hstep) Undisturbed.unseen fun h ↦
    (Calls.of_run h).toGood).1
  have hstep' := hsplit.step_fused (fun ⟨major, e, tail, hbus, hi⟩ ↦ by
    rw [hi, hbus] at hc
    cases hc) hstep
  have hs' : Handling (fuse cfg s) i m k := hs.fuse
  have hbegin := Relay.begin (Calls.of_run hfused) hs' hstep'
  obtain ⟨hsplitY, hrunY⟩ := Split.run_counted hrun hsplit' Relaying.unseen (fun c sh major e ↦ rfl)
    (fun _ _ _ ↦ rfl) fun h ↦ (hbegin.of_run h).toGood
  have h := hbegin.of_run hrunY
  rw [fuse_pool] at h
  exact h.answered.of_fuse

/-! ### Until a return is processed -/

/-- Nothing disturbs the calls, and the bus handles no return with these numbers. -/
def Awaiting (cfg : Config ι σ) (k : CallNumber) (i : ι) (c : Cmd ι σ) (a : Choice ι σ)
    (sh : Shared ι σ) : Prop :=
  Undisturbed cfg i c a sh ∧ ∀ d, c = .busCallReturn d → ¬ReturnsTo sh d k

theorem Awaiting.unseen : Unseen (Awaiting cfg k) := fun _ _ _ _ major e huses hok ↦
  ⟨Undisturbed.unseen major e huses hok.1, hok.2⟩

/-- The entry is in its list, and nothing is going to remove it. -/
structure Kept (cfg : Config ι σ) (k : CallNumber) (e : PendingCall) (s : State ι σ) : Prop
    extends Calls cfg s where
  entry : e ∈ s.shared.callList k.major
  number : HasNumber s.shared e.msg k
  unmatched : ∀ j, .complete k.major e ∉ s.threads j

variable {e : PendingCall}

omit [Fintype ι] in
/-- An entry is to be removed when it was found for a return. -/
theorem Effect.complete_origin {major : Major} (h : Effect cfg i c a sh sh' cs)
    (he : .complete major e ∈ cs) : ∃ d, c = .busCallReturn d ∧
      (sh.pool d).major = some major ∧ (sh.pool e.msg).seq = (sh.pool d).seq := by
  cases h with
  | userCall hmay =>
    rename_i u f
    cases f <;> simp [callApi] at he
  | removed hmq hdst htype hhandler =>
    rw [← List.mem_singleton.1 he] at hhandler
    cases handles_of_getHandler hhandler
  | returnOther hmajor hfind | returnSync hmajor hfind | returnAsync hmajor hfind =>
    have hfound := List.find?_some hfind
    rw [beq_iff_eq] at hfound
    simp only [List.mem_cons, Cmd.complete.injEq, reduceCtorEq, List.not_mem_nil, or_false,
      false_or] at he
    obtain ⟨rfl, rfl⟩ := he
    exact ⟨_, rfl, hmajor, hfound⟩
  | _ => simp at he

theorem Kept.step {l : ι × Choice ι σ} {t : State ι σ} (h : Kept cfg k e s)
    (hok : AtHead (Awaiting cfg k) s l) (hstep : (fused cfg).step s l = some t) :
    Kept cfg k e t := by
  have hcalls := h.toCalls.step (hok.mono And.left) hstep
  obtain ⟨c, rest, sh', cs, hc, he, rfl⟩ := effect_of_step hstep
  have hmove := move_of_effect he
  have hheader := hmove.header_eq (h.not_free_of_entry h.entry)
  refine ⟨hcalls, hmove.entry_kept h.entry fun heq ↦ ?_, ?_, fun j hd ↦ ?_⟩
  · exact h.unmatched l.1 (heq ▸ Good.mem_head hc)
  · exact ⟨(Message.major_eq hheader).trans h.number.1, (Message.seq_eq hheader).trans h.number.2⟩
  · rcases mem_expand_iff.1 hd with ⟨-, hnew⟩ | hrest
    · obtain ⟨d, rfl, hmajor, hseq⟩ := he.complete_origin hnew
      exact (hok.cmd hc).2 d rfl ⟨(h.knows l.1 _ (Good.mem_head hc)).2.1, hmajor,
        hseq.symm.trans h.number.2⟩
    · exact h.unmatched j (mem_of_mem_rest hc hrest)

/-- **A request is kept with its entry** until the bus handles a return with its numbers, whatever
its handler has returned. -/
theorem kept_of_run {t u : State ι σ}
    (hr : Run (system cfg).step (AtHead (Undisturbed cfg)) (initial cfg) s)
    (hs : Handling s i m k) (hstep : (system cfg).step s (i, .finish w) = some t)
    (he : e ∈ s.shared.callList k.major) (hmsg : e.msg = m)
    (hrun : Run (system cfg).step (AtHead (Awaiting cfg k)) t u) :
    e ∈ u.shared.callList k.major ∧ m ∉ u.shared.msgList := by
  obtain ⟨ms, f, args, rest, hc⟩ := hs.called
  obtain ⟨hsplit, hfused⟩ := Split.of_run hr Undisturbed.unseen fun h ↦ (Calls.of_run h).toGood
  have hbegin : Kept cfg k e (fuse cfg s) := by
    refine ⟨Calls.of_run hfused, mem_callList_fuse he (hs.unmatched _ e hmsg).2, ?_, fun j hd ↦
      (hs.unmatched j e hmsg).1 (mem_of_mem_fuse hd)⟩
    have hnumber := hs.number
    rw [← hmsg] at hnumber
    simpa only [HasNumber, fuse_pool] using hnumber
  have hkept {v : State ι σ} (h : Run (fused cfg).step (AtHead (Awaiting cfg k)) (fuse cfg s) v) :
      Kept cfg k e v := h.invariant hbegin fun ha hok hstep ↦ ha.step hok hstep
  have hok : AtHead (Awaiting cfg k) s (i, .finish w) := AtHead.of_head hc ⟨rfl, by simp⟩
  have hall := Run.trans (.single hok hstep) hrun
  have h := hkept (Split.run hall hsplit Awaiting.unseen fun h ↦ (hkept h).toGood).2
  have hfree := h.not_free_of_entry h.entry
  rw [fuse_msgList, hmsg] at hfree
  exact ⟨mem_callList_of_fuse h.entry, hfree⟩

end Invariant

end Mblue
