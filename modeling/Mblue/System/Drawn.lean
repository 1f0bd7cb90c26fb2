import Mblue.System.HeapEvents
import Mblue.System.Tokens

/-!
# The message of one draw

Every message that user code sends has a draw of its own, its number in the order they are made.
So whatever is sent or carried under this draw afterwards is this message, or a replica of it: it has
the header `send_message` wrote (`Drawn`). Every step keeps that, whatever else happens in the
system.

`Draws` is the state before the message is sent. Its draw is new, so nothing stands for it yet
(`Draws.total_eq_one`).
-/

set_option linter.unusedSectionVars false

namespace Mblue

variable {ι σ : Type} [Fintype ι] [DecidableEq ι] [DecidableEq σ]

/-- What has the draw of these arguments has their header. -/
structure Drawn (cfg : Config ι σ) (A : SendArgs ι σ) (s : State ι σ) : Prop
    extends Good cfg s where
  draw_pos : 0 < A.draw
  draw_le : A.draw ≤ s.shared.draws
  send_eq : ∀ i a, .send a ∈ s.threads i → a.draw = A.draw → a = A
  msg_eq : ∀ m, m ∉ s.shared.msgList → (s.shared.pool m).draw = A.draw →
    (s.shared.pool m).header = (initMessage cfg A).header

variable {cfg : Config ι σ} {A : SendArgs ι σ} {s : State ι σ} {i : ι} {c : Cmd ι σ}
  {a : Choice ι σ} {rest cs : List (Cmd ι σ)} {sh' : Shared ι σ} {m : MsgId}

namespace Drawn

/-- A message with the draw has the header of the arguments. -/
theorem message (h : Drawn cfg A s) (hm : m ∉ s.shared.msgList)
    (hdraw : (s.shared.pool m).draw = A.draw) : (s.shared.pool m).type = some A.type ∧
      (s.shared.pool m).smartPayload = A.input ∧ (s.shared.pool m).aux = A.aux := by
  have hheader := h.msg_eq m hm hdraw
  exact ⟨(Message.type_eq hheader).trans (type_initMessage cfg A),
    Message.smartPayload_eq hheader, Message.aux_eq hheader⟩

/-- What user code or an answer sends is another message. -/
theorem new_send (h : Drawn cfg A s) (he : Effect cfg i c a s.shared sh' cs)
    {b : SendArgs ι σ} (hb : .send b ∈ cs) : b.draw ≠ A.draw := by
  have hpos := h.draw_pos
  have hle := h.draw_le
  rcases he.send_origin hb with ⟨k, f, -, -, hmem, -⟩ | ⟨hdraw, -⟩
  · obtain ⟨hdraw, -⟩ := send_of_callApi hmem
    omega
  · rw [hdraw]
    exact hpos.ne

theorem send_eq_step (h : Drawn cfg A s) (hc : s.threads i = c :: rest)
    (he : Effect cfg i c a s.shared sh' cs) :
    ∀ j b, .send b ∈ Function.update s.threads i (cs ++ rest) j → b.draw = A.draw → b = A := by
  intro j b hb hdraw
  rcases mem_expand_iff.1 hb with ⟨-, hb⟩ | hb
  · exact absurd hdraw (h.new_send he hb)
  · exact h.send_eq j b (mem_of_mem_rest hc hb) hdraw

theorem msg_eq_step (h : Drawn cfg A s) (hc : s.threads i = c :: rest)
    (hmove : Move cfg i c s.shared sh' cs) :
    ∀ m, m ∉ sh'.msgList → (sh'.pool m).draw = A.draw →
      (sh'.pool m).header = (initMessage cfg A).header := by
  intro m hm hdraw
  rcases hmove.origin hm with hfree | ⟨⟨b, rfl, heq⟩ | ⟨n, ms, subs, rfl, heq⟩, -⟩
  · have hheader := hmove.header_eq hfree
    rw [hheader]
    exact h.msg_eq m hfree (Message.draw_eq hheader ▸ hdraw)
  · rw [heq] at hdraw ⊢
    rw [h.send_eq i b (Good.mem_head hc) hdraw]
  · rw [heq] at hdraw ⊢
    exact h.msg_eq n (h.not_free (Good.mem_head hc) rfl) hdraw

/-- **The step lemma.** -/
theorem step (h : Drawn cfg A s) (hc : s.threads i = c :: rest)
    (he : Effect cfg i c a s.shared sh' cs)
    (hgood : Good cfg ⟨sh', Function.update s.threads i (cs ++ rest)⟩) :
    Drawn cfg A ⟨sh', Function.update s.threads i (cs ++ rest)⟩ :=
  ⟨hgood, h.draw_pos, h.draw_le.trans he.numbers_le.1, h.send_eq_step hc he,
    h.msg_eq_step hc (move_of_effect he)⟩

end Drawn

/-! ### The first state -/

/-- User code is about to send a message with these arguments and a new draw; all it does after that
is to return. -/
structure Draws (cfg : Config ι σ) (i : ι) (f : Api ι σ) (A : SendArgs ι σ) (s : State ι σ) :
    Prop where
  inUserCode : ∃ k rest, s.threads i = .userCode k :: rest
  sent : ∃ ds, (callApi cfg i s.shared f).2 = .send A :: ds ∧ ∀ x ∈ ds, ∃ o, x = .remoteReturn o
  draw_eq : A.draw = s.shared.draws + 1

namespace Draws

variable {f : Api ι σ} {k : UserCode ι σ}

/-- The state after the call. -/
theorem step_eq (h : Draws cfg i f A s) {t : State ι σ}
    (hstep : (fused cfg).step s (i, .api f) = some t) : ∃ k rest,
      s.threads i = .userCode k :: rest ∧
      t = ⟨(callApi cfg i s.shared f).1, Function.update s.threads i
        (((callApi cfg i s.shared f).2 ++ [.userCode k]) ++ rest)⟩ ∧
      Effect cfg i (.userCode k) (.api f) s.shared (callApi cfg i s.shared f).1
        ((callApi cfg i s.shared f).2 ++ [.userCode k]) := by
  obtain ⟨k, rest, hc⟩ := h.inUserCode
  obtain ⟨c, rest', sh', cs, hc', he, rfl⟩ := effect_of_step hstep
  rw [hc, List.cons.injEq] at hc'
  obtain ⟨rfl, rfl⟩ := hc'
  cases he with
  | userCall hmay => exact ⟨k, rest, hc, rfl, .userCall hmay⟩

/-- A command after the call is the send, the return, or was there. -/
theorem mem_cases (h : Draws cfg i f A s) {rest : List (Cmd ι σ)}
    (hc : s.threads i = .userCode k :: rest) {j : ι} {x : Cmd ι σ}
    (hx : x ∈ Function.update s.threads i (((callApi cfg i s.shared f).2 ++ [.userCode k]) ++ rest)
      j) : x = .send A ∨ (∃ o, x = .remoteReturn o) ∨ x ∈ s.threads j := by
  obtain ⟨ds, hsent, hds⟩ := h.sent
  rcases mem_expand_iff.1 hx with ⟨rfl, hx⟩ | hx
  · rw [hsent, List.mem_append, List.mem_cons, List.mem_singleton] at hx
    rcases hx with (rfl | hx) | rfl
    · exact .inl rfl
    · exact .inr (.inl (hds x hx))
    · exact .inr (.inr (Good.mem_head hc))
  · exact .inr (.inr (mem_of_mem_rest hc hx))

/-- A thing that nothing stood for before the call has one token after it, if the call's `send`
stands for it. -/
theorem total_eq_one {β : Type} [DecidableEq β] {T : Tally ι σ β} {b : β}
    (h : Draws cfg i f A s) (hgood : Good cfg s) {rest : List (Cmd ι σ)}
    (hc : s.threads i = .userCode k :: rest)
    (he : Effect cfg i (.userCode k) (.api f) s.shared (callApi cfg i s.shared f).1
      ((callApi cfg i s.shared f).2 ++ [.userCode k]))
    (hcmd : ∀ j, ∀ x ∈ s.threads j, T.cmd s.shared x ≠ some b)
    (hmsg : ∀ t, ∀ m ∈ s.shared.mq t, T.msg s.shared m ≠ some b)
    (hsend : T.cmd (callApi cfg i s.shared f).1 (.send A) = some b)
    (hreturn : ∀ o, T.cmd (callApi cfg i s.shared f).1 (.remoteReturn o) ≠ some b) :
    T.total ⟨(callApi cfg i s.shared f).1, Function.update s.threads i
      (((callApi cfg i s.shared f).2 ++ [.userCode k]) ++ rest)⟩ b = 1 := by
  obtain ⟨ds, hsent, hds⟩ := h.sent
  have hsame := sameMessages_callApi cfg i s.shared f
  have htotal := Tally.total_step (T := T) hgood hc (move_of_effect he) hsame.mq_eq b
  have hzero : T.total s b = 0 := Tally.total_eq_zero hcmd hmsg
  have huser : T.cmd (callApi cfg i s.shared f).1 (.userCode k) ≠ some b := by
    have hkeep : T.cmd (callApi cfg i s.shared f).1 (.userCode k) = T.cmd s.shared (.userCode k) :=
      Tally.cmd_of_pool hsame.pool_eq _
    rw [hkeep]
    exact hcmd i _ (Good.mem_head hc)
  have hone : (((callApi cfg i s.shared f).2 ++ [Cmd.userCode k]).filterMap
      (T.cmd (callApi cfg i s.shared f).1)).count b = 1 := by
    have hother : (ds.filterMap (T.cmd (callApi cfg i s.shared f).1)).count b = 0 :=
      count_tokens_of_ne fun x hx ↦ by
        obtain ⟨o, rfl⟩ := hds x hx
        exact hreturn o
    rw [hsent, List.filterMap_append, List.count_append, count_token_of_ne huser,
      List.filterMap_cons_some hsend, List.count_cons_self, hother]
  have hbefore := count_token_of_ne (hcmd i _ (Good.mem_head hc))
  omega

/-- No message in use was sent for the call. -/
theorem draw_ne (h : Draws cfg i f A s) (hnum : Numbered s) (hm : m ∉ s.shared.msgList) :
    (s.shared.pool m).draw ≠ A.draw := by
  have hle := hnum.pool_le m hm
  have hdraw := h.draw_eq
  omega

/-- Nothing in the first state has the new draw. -/
theorem draw_unused (h : Draws cfg i f A s) (hgood : Good cfg s) (hnum : Numbered s)
    {j : ι} {x : Cmd ι σ} (hx : x ∈ s.threads j) :
    (∀ b, x = .send b → b.draw ≠ A.draw) ∧
      ∀ m, x.msg? = some m → (s.shared.pool m).draw ≠ A.draw := by
  refine ⟨fun b hb ↦ ?_, fun m hm ↦ h.draw_ne hnum (hgood.not_free hx hm)⟩
  have hle := hnum.send_le j b (hb ▸ hx)
  have hdraw := h.draw_eq
  omega

/-- **The message is the only one with its draw.** -/
theorem drawn (h : Draws cfg i f A s) (hgood : Good cfg s) (hnum : Numbered s) {t : State ι σ}
    (hstep : (fused cfg).step s (i, .api f) = some t) : Drawn cfg A t := by
  have hgood' : Good cfg t := by
    refine hgood.step (AtHead.of_cmd fun c rest hc ↦ ?_) hstep
    obtain ⟨k, rest', hc'⟩ := h.inUserCode
    rw [hc', List.cons.injEq] at hc
    obtain ⟨rfl, rfl⟩ := hc
    exact fun m hm ↦ by cases hm
  obtain ⟨k, rest, hc, rfl, he⟩ := h.step_eq hstep
  obtain ⟨ds, hsent, -⟩ := h.sent
  have hdraw := h.draw_eq
  have hsame := sameMessages_callApi cfg i s.shared f
  refine ⟨hgood', by omega, (send_of_callApi (hsent ▸ List.mem_cons_self)).2.1,
    fun j b hb hbdraw ↦ ?_, fun m hm hmdraw ↦ ?_⟩
  · rcases h.mem_cases hc hb with heq | ⟨o, heq⟩ | hbefore
    · exact Cmd.send.inj heq
    · cases heq
    · have hble := hnum.send_le j b hbefore
      omega
  · dsimp only at hm hmdraw
    rw [hsame.pool_eq] at hmdraw
    exact absurd hmdraw (h.draw_ne hnum (hsame.msgList_eq ▸ hm))

end Draws

end Mblue
