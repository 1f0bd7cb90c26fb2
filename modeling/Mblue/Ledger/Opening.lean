import Mblue.Ledger.Notifier
import Mblue.Ledger.Payload

/-!
# The ledger along a run

Every step that does not break the call off keeps the ledger (`Ledger.step`), and a remote call
opens it (`HandsOver.ledger`): its draw and its notifier are new, so that nothing stood for them
before.
-/

set_option linter.unusedSectionVars false

namespace Mblue

variable {ι σ : Type} [Fintype ι] [DecidableEq ι] [DecidableEq σ] {cfg : Config ι σ}
  {A : SendArgs ι σ} {block : List UInt8} {s : State ι σ} {i : ι} {c : Cmd ι σ} {a : Choice ι σ}
  {rest cs : List (Cmd ι σ)} {sh' : Shared ι σ} {m : MsgId}

namespace Ledger

/-! ### The accounts along a run -/

/-- **The step lemma.** -/
theorem step (h : Ledger cfg A block s) {l : ι × Choice ι σ} {t : State ι σ}
    (hok : AtHead (Unbroken cfg A) s l) (hstep : (fused cfg).step s l = some t) :
    Ledger cfg A block t := by
  have hgood := h.toGood.step (hok.mono fun hunbroken ↦ hunbroken.1) hstep
  obtain ⟨c, rest, sh', cs, hc, he, rfl⟩ := effect_of_step hstep
  have hunbroken := (hok.cmd hc).2
  have hmove := move_of_effect he
  have hhanded := h.handed.step hc he hgood fun k f hk ha hpayload ↦ by
    rw [hk, ha, unbroken, hpayload, bne_self_eq_false, Bool.false_or,
      List.contains_iff_mem] at hunbroken
    exact hunbroken
  exact {
    toGood := hgood
    gives := h.gives
    draw_le := hhanded.draw_le
    pn_lt := fun p hp ↦ (h.pn_lt p hp).trans_le he.numbers_le.2
    send_eq := hhanded.send_eq
    send_pn := h.send_pn_step hc he
    msg_eq := hhanded.msg_eq
    msg_pn := h.msg_pn_step hc hmove
    payload := h.payload_step hc he hunbroken
    sole := hhanded.sole
    live := hhanded.live
    notifier := fun p hp ↦ h.notifier_step hc he hunbroken hp
    notified := fun p hp ↦ h.notified_step hc he hp
    unused := fun p hp ↦ h.unused_step hc he hp }

theorem of_run {t : State ι σ} (h : Ledger cfg A block s)
    (hr : Run (fused cfg).step (AtHead (Unbroken cfg A)) s t) : Ledger cfg A block t :=
  hr.invariant h fun ha hok hstep ↦ ha.step hok hstep

end Ledger

/-! ### The first state -/

/-- User code is about to hand a block over to a remote call, and to nothing else. -/
structure HandsOver (cfg : Config ι σ) (i : ι) (f : Api ι σ) (A : SendArgs ι σ)
    (block : List UInt8) (s : State ι σ) : Prop where
  inUserCode : ∃ k rest, s.threads i = .userCode k :: rest
  isRemoteCall : f.isRemoteCall = true
  sends : .send A ∈ (callApi cfg i s.shared f).2
  isBlock : pbPayload A.input = true
  allocated : s.shared.heap A.input = some block
  sole : ∀ d, ¬Holds s A.input d

namespace HandsOver

variable {f : Api ι σ} {k : UserCode ι σ}

/-- What a remote call sends: one message, with a new draw, and for an asynchronous call a new
notifier. -/
theorem sent (h : HandsOver cfg i f A block s) :
    (∃ ds, (callApi cfg i s.shared f).2 = .send A :: ds ∧ ∀ x ∈ ds, ∃ o, x = .remoteReturn o) ∧
      A.draw = s.shared.draws + 1 ∧ A.type.isCall = true ∧ A.dst = none ∧
      ∀ p, A.pn = some p → A.type = .asyncCall ∧ p = s.shared.notifiers := by
  have hsends := h.sends
  have hcall := h.isRemoteCall
  cases f with
  | mblueRemoteCall major minor input =>
    simp only [callApi, List.mem_cons, Cmd.send.injEq, reduceCtorEq, List.not_mem_nil,
      or_false] at hsends
    subst hsends
    refine ⟨⟨_, rfl, fun x hx ↦ ⟨_, List.mem_singleton.1 hx⟩⟩, rfl, rfl, rfl, fun p hp ↦ ?_⟩
    cases hp
  | mblueRemoteCallAsync major minor input =>
    simp only [callApi, List.mem_singleton, Cmd.send.injEq] at hsends
    subst hsends
    refine ⟨⟨[], rfl, fun x hx ↦ absurd hx List.not_mem_nil⟩, rfl, rfl, rfl, fun p hp ↦ ?_⟩
    exact ⟨rfl, (Option.some.inj hp).symm⟩
  | _ => cases hcall

/-- The request is about to be sent. -/
theorem opens (h : HandsOver cfg i f A block s) : Opens cfg i f A block s :=
  ⟨⟨h.inUserCode, h.sent.1, h.sent.2.1⟩, h.isBlock, h.allocated, h.sole⟩

/-- The call's notifier has no number that is in use. -/
theorem not_lt (h : HandsOver cfg i f A block s) {p : NotifierId} (hp : A.pn = some p) :
    ¬p < s.shared.notifiers :=
  (h.sent.2.2.2.2 p hp).2 ▸ Nat.lt_irrefl _

theorem payload_opened (h : HandsOver cfg i f A block s) (hgood : Good cfg s) (hnum : Numbered s)
    {rest : List (Cmd ι σ)} (hc : s.threads i = .userCode k :: rest)
    (he : Effect cfg i (.userCode k) (.api f) s.shared (callApi cfg i s.shared f).1
      ((callApi cfg i s.shared f).2 ++ [.userCode k])) :
    payloads.total ⟨(callApi cfg i s.shared f).1, Function.update s.threads i
        (((callApi cfg i s.shared f).2 ++ [.userCode k]) ++ rest)⟩ A.draw +
      (heapEvents (callApi cfg i s.shared f).1).count (.freed A.draw A.input) = 1 := by
  have hcmd : ∀ j, ∀ x ∈ s.threads j, payloads.cmd s.shared x ≠ some A.draw := by
    intro j x hx hxd
    obtain ⟨hsend, hmessage⟩ := h.opens.draw_unused hgood hnum hx
    rcases payloads_eq_some hxd with ⟨b, hb, hdraw⟩ | ⟨m, hm, hdraw⟩
    · exact hsend b hb hdraw
    · exact hmessage m (Cmd.msg_of_frees hm) hdraw
  have hmsg : ∀ t, ∀ m ∈ s.shared.mq t, payloads.msg s.shared m ≠ some A.draw :=
    fun t m hm hmd ↦ h.opens.draw_ne hnum (hgood.not_free_of_mq hm) (Option.some.inj hmd)
  have hone := h.opens.total_eq_one hgood hc he hcmd hmsg rfl fun o heq ↦ by cases heq
  rw [hone, h.opens.freed_eq_zero hnum]

theorem notifier_opened (h : HandsOver cfg i f A block s) (hgood : Good cfg s) (hnum : Numbered s)
    {rest : List (Cmd ι σ)} (hc : s.threads i = .userCode k :: rest)
    (he : Effect cfg i (.userCode k) (.api f) s.shared (callApi cfg i s.shared f).1
      ((callApi cfg i s.shared f).2 ++ [.userCode k]))
    (hgood' : Good cfg ⟨(callApi cfg i s.shared f).1, Function.update s.threads i
      (((callApi cfg i s.shared f).2 ++ [.userCode k]) ++ rest)⟩)
    {p : NotifierId} (hp : A.pn = some p) :
    (looseNotifiers cfg).total ⟨(callApi cfg i s.shared f).1, Function.update s.threads i
        (((callApi cfg i s.shared f).2 ++ [.userCode k]) ++ rest)⟩ p +
        notifierEntries (callApi cfg i s.shared f).1 p +
        (heapEvents (callApi cfg i s.shared f).1).count (.notifierFreed p) =
      1 + mentions Cmd.completes? (Function.update s.threads i
        (((callApi cfg i s.shared f).2 ++ [.userCode k]) ++ rest)) p := by
  have hcmd : ∀ j, ∀ x ∈ s.threads j, (looseNotifiers cfg).cmd s.shared x ≠ some p := by
    intro j x hx hxp
    rcases looseNotifiers_eq_some hxp with ⟨b, rfl, hb⟩ | ⟨m, hm, hmp⟩ | rfl
    · exact h.not_lt hp (hnum.send_lt j b hx p hb)
    · exact h.not_lt hp (hnum.pool_lt m (hgood.not_free hx hm) p hmp)
    · exact h.not_lt hp (hnum.freeing_lt j p hx)
  have hmsg : ∀ t, ∀ m ∈ s.shared.mq t, (looseNotifiers cfg).msg s.shared m ≠ some p :=
    fun t m hm hmp ↦ h.not_lt hp
      (hnum.pool_lt m (hgood.not_free_of_mq hm) p (waiting_eq_some.1 hmp).2)
  have hone := h.opens.total_eq_one hgood hc he hcmd hmsg hp fun o heq ↦ by cases heq
  have hentries : notifierEntries (callApi cfg i s.shared f).1 p = 0 := by
    rw [notifierEntries_congr (sameMessages_callApi cfg i s.shared f).callList_eq]
    refine Finset.sum_eq_zero fun major _ ↦ count_tokens_of_ne fun e hmem hep ↦ ?_
    exact h.not_lt hp (hnum.entry_lt hgood hmem hep)
  have hfreed : (heapEvents (callApi cfg i s.shared f).1).count (.notifierFreed p) = 0 := by
    rw [heapEvents_callApi]
    exact List.count_eq_zero.2 fun hmem ↦ h.not_lt hp (hnum.notifierFreed_lt p hmem)
  have hcompletes := Ledger.completes_le hgood' p
  dsimp only at hcompletes
  omega

theorem notified_opened (h : HandsOver cfg i f A block s) (hnum : Numbered s)
    {rest : List (Cmd ι σ)} (hc : s.threads i = .userCode k :: rest) {p : NotifierId}
    (hp : A.pn = some p) :
    ((heapEvents (callApi cfg i s.shared f).1).filterMap Event.notifies?).count p =
      mentions Cmd.freesNotifier? (Function.update s.threads i
        (((callApi cfg i s.shared f).2 ++ [.userCode k]) ++ rest)) p +
        (heapEvents (callApi cfg i s.shared f).1).count (.notifierFreed p) := by
  rw [heapEvents_callApi]
  have hcalled : ((heapEvents s.shared).filterMap Event.notifies?).count p = 0 := by
    refine count_tokens_of_ne fun e he hep ↦ ?_
    obtain ⟨q, w, rfl⟩ : ∃ q w, e = .notified q w := by
      cases e <;> first | exact ⟨_, _, rfl⟩ | cases hep
    obtain rfl := Option.some.inj hep
    exact h.not_lt hp (hnum.notified_lt q w he)
  have hfrees : mentions Cmd.freesNotifier? (Function.update s.threads i
      (((callApi cfg i s.shared f).2 ++ [.userCode k]) ++ rest)) p = 0 := by
    refine mentions_eq_zero fun j x hx hxp ↦ ?_
    rcases h.opens.mem_cases hc hx with rfl | ⟨o, rfl⟩ | hbefore
    · cases hxp
    · cases hxp
    · obtain rfl : x = .freeNotifier p := by
        cases x <;> first | exact congrArg _ (Option.some.inj hxp) | cases hxp
      exact h.not_lt hp (hnum.freeing_lt j p hbefore)
  have hfreed : (heapEvents s.shared).count (.notifierFreed p) = 0 :=
    List.count_eq_zero.2 fun hmem ↦ h.not_lt hp (hnum.notifierFreed_lt p hmem)
  rw [hcalled, hfrees, hfreed]

/-- **The accounts are open when the call has been made.** -/
theorem ledger (h : HandsOver cfg i f A block s) (hgood : Good cfg s) (hnum : Numbered s)
    {t : State ι σ} (hstep : (fused cfg).step s (i, .api f) = some t) :
    Ledger cfg A block t := by
  have hhanded := h.opens.handed hgood hnum hstep
  obtain ⟨k, rest, hc, rfl, he⟩ := h.opens.step_eq hstep
  obtain ⟨-, hdraw, hcall, hdst, hpn⟩ := h.sent
  obtain ⟨-, -, hlt, -⟩ := send_of_callApi h.sends
  have hsame := sameMessages_callApi cfg i s.shared f
  constructor
  case toGood => exact hhanded.toGood
  case gives => exact ⟨hcall, hdst, h.isBlock, by omega, fun p hp ↦ (hpn p hp).1⟩
  case draw_le => exact hhanded.draw_le
  case pn_lt => exact fun p hp ↦ (hlt p hp).2
  case send_eq => exact hhanded.send_eq
  case send_pn =>
    intro j b p hb hp hbp
    rcases h.opens.mem_cases hc hb with heq | ⟨o, heq⟩ | hbefore
    · rw [Cmd.send.inj heq]
    · cases heq
    · exact absurd (hnum.send_lt j b hbefore p hbp) (h.not_lt hp)
  case msg_eq => exact hhanded.msg_eq
  case msg_pn =>
    intro m p hm hp hmp
    dsimp only at hm hmp
    rw [hsame.pool_eq] at hmp
    exact absurd (hnum.pool_lt m (hsame.msgList_eq ▸ hm) p hmp) (h.not_lt hp)
  case payload => exact h.payload_opened hgood hnum hc he
  case sole => exact hhanded.sole
  case live => exact hhanded.live
  case notifier => exact fun p hp ↦ h.notifier_opened hgood hnum hc he hhanded.toGood hp
  case notified => exact fun p hp ↦ h.notified_opened hnum hc hp
  case unused =>
    intro p hp
    dsimp only
    rw [heapEvents_callApi]
    refine List.pairwise_of_forall_mem_list fun e he e' _ heq ↦ ?_
    exact absurd (hnum.notifierFreed_lt p (heq ▸ he)) (h.not_lt hp)

end HandsOver

end Mblue
