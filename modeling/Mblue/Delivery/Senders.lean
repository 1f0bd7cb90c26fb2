import Mblue.Delivery.Hop
import Mblue.Delivery.Subscriptions

/-!
# The broadcasts and who posts them

What belongs to the broadcasts (`Sender`): the thread that broadcasts a signal sends and posts it, to
the bus, and what is posted with one of their draws elsewhere is a replica the bus has made. So each
hop of a broadcast has one sender. The draws tell the broadcasts apart, and a message that has one of
them carries the signal that was broadcast.
-/

set_option linter.unusedSectionVars false

namespace Mblue

variable {ι σ : Type} [Fintype ι] [DecidableEq ι] [DecidableEq σ]

/-! ### Broadcasts -/

/-- The draw an event of a signal is about. -/
def Event.draw? : Event ι σ → Option ℕ
  | .broadcast _ d _ | .relayed d _ _ | .handled _ d => some d
  | .replica _ copy => some copy.draw
  | _ => none

/-- The draw of a broadcast of the threads `I`. -/
def Event.broadcasts? (I : ι → Bool) : Event ι σ → Option ℕ
  | .broadcast i d _ => if I i then some d else none
  | _ => none

/-- **The broadcasts of the threads `I`**, in their order. -/
def broadcasts (I : ι → Bool) (tr : List (Event ι σ)) : List ℕ := tr.filterMap (Event.broadcasts? I)

/-- A thread of `I` has broadcast the signal with this draw. -/
def broadcastBy (I : ι → Bool) (tr : List (Event ι σ)) (d : ℕ) : Bool :=
  decide (d ∈ broadcasts I tr)

theorem mem_broadcasts {I : ι → Bool} {tr : List (Event ι σ)} {d : ℕ} :
    d ∈ broadcasts I tr ↔ ∃ i major, I i = true ∧ .broadcast i d major ∈ tr := by
  refine ⟨fun h ↦ ?_, fun ⟨i, major, hi, h⟩ ↦ List.mem_filterMap.2 ⟨_, h, if_pos hi⟩⟩
  obtain ⟨e, he, hd⟩ := List.mem_filterMap.1 h
  cases e with
  | broadcast i d' major =>
    obtain ⟨hi, heq⟩ := Option.ite_none_right_eq_some.1 hd
    cases heq
    exact ⟨i, major, hi, he⟩
  | _ => cases hd

theorem broadcastBy_iff {I : ι → Bool} {tr : List (Event ι σ)} {d : ℕ} :
    broadcastBy I tr d = true ↔ ∃ i major, I i = true ∧ .broadcast i d major ∈ tr :=
  decide_eq_true_iff.trans mem_broadcasts

variable {cfg : Config ι σ} {s : State ι σ} {I : ι → Bool} {i j : ι} {c : Cmd ι σ}
  {a : Choice ι σ} {rest cs : List (Cmd ι σ)} {sh sh' : Shared ι σ} {m : MsgId}

/-- A broadcast is announced by the thread that calls for it, under the next draw. -/
theorem broadcast_of_announced {k : ι} {d : ℕ} {major : Major}
    (h : .broadcast k d major ∈ announced cfg i sh c a) : k = i ∧ d = sh.draws + 1 ∧
      ∃ u f, c = .userCode u ∧ a = .api f ∧ f.broadcasts? = some major := by
  cases announces_of_mem h with
  | broadcast ha hf => exact ⟨rfl, rfl, _, _, rfl, ha, hf⟩

/-- What is announced is about a new broadcast, or about the message of the command. -/
theorem draw_of_announced {e : Event ι σ} {d : ℕ} (h : e ∈ announced cfg i sh c a)
    (hd : e.draw? = some d) : (∃ k major, e = .broadcast k d major) ∨
      ∃ m, c.msg? = some m ∧ d = (sh.pool m).draw := by
  cases announces_of_mem h with
  | broadcast ha hf =>
    cases hd
    exact .inl ⟨_, _, rfl⟩
  | relayed | replica | handled => exact .inr ⟨_, rfl, (Option.some.inj hd).symm⟩
  | subscribed | called | freed => cases hd

/-- A signal is relayed when the bus starts on its message. -/
theorem relayed_origin {d : ℕ} {major : Major} {subs : List σ}
    (h : .relayed d major subs ∈ announced cfg i sh c a) :
    ∃ m, c = .busSignal m ∧ d = (sh.pool m).draw ∧ (sh.pool m).major = some major := by
  cases announces_of_mem h with
  | relayed hmajor => exact ⟨_, rfl, rfl, hmajor⟩

/-- A broadcast sends one signal, to the bus. -/
theorem callApi_of_broadcasts (cfg : Config ι σ) (i : ι) (sh : Shared ι σ) {f : Api ι σ}
    {major : Major} (h : f.broadcasts? = some major) :
    ∃ b, (callApi cfg i sh f).2 = [.send b] ∧ b.draw = sh.draws + 1 ∧ b.type = .signal ∧
      b.dst = none ∧ b.major = major := by
  cases f with
  | targetSignal source major' minor dest data extra =>
    cases dest with
    | none => exact ⟨_, rfl, rfl, rfl, rfl, Option.some.inj h⟩
    | some ms => cases h
  | broadcastSignal major' minor data => exact ⟨_, rfl, rfl, rfl, rfl, Option.some.inj h⟩
  | broadcastSignalWithContext c major' minor data =>
    exact ⟨_, rfl, rfl, rfl, rfl, Option.some.inj h⟩
  | _ => cases h

/-- **Where a posted message comes from**: it has just been sent or copied, or is a request. -/
theorem Effect.post_origin (h : Effect cfg i c a sh sh' cs) {u : ι} (hm : .post u m ∈ cs) :
    (∃ b, c = .send b ∧ sh'.pool m = initMessage cfg b) ∨
    (∃ n ms subs, c = .busSignalLoop n (ms :: subs) ∧ sh'.pool m = replicate (sh.pool n) ms) ∨
    c = .busCall m := by
  cases h with
  | sendDone halloc hctx =>
    obtain ⟨free, -, rfl⟩ := alloc_eq_some halloc
    simp only [List.mem_cons, Cmd.post.injEq, reduceCtorEq, List.not_mem_nil, or_false] at hm
    obtain ⟨-, rfl⟩ := hm
    exact .inl ⟨_, rfl, Function.update_self _ _ _⟩
  | loopReplicated hctx halloc =>
    obtain ⟨free, -, rfl⟩ := alloc_eq_some halloc
    simp only [List.mem_cons, Cmd.post.injEq, reduceCtorEq, List.not_mem_nil, or_false] at hm
    obtain ⟨-, rfl⟩ := hm
    exact .inr (.inl ⟨_, _, _, rfl, Function.update_self _ _ _⟩)
  | callNoEntry | callLinked =>
    cases List.mem_singleton.1 hm
    exact .inr (.inr rfl)
  | removed hmq hdst htype hhandler =>
    rw [← List.mem_singleton.1 hm] at hhandler
    cases handles_of_getHandler hhandler
  | userCall hmay =>
    rcases List.mem_append.1 hm with hm | hm
    · rcases cmd_of_callApi hm with ⟨b, heq⟩ | ⟨o, heq⟩ <;> cases heq
    · cases List.mem_singleton.1 hm
  | _ => simp at hm

/-- The broadcasts of the draws that are known stay the same. -/
theorem Effect.broadcast_mem_iff (h : Effect cfg j c a sh sh' cs) {d : ℕ} (hd : d ≤ sh.draws)
    {major : Major} :
    .broadcast i d major ∈ signalEvents sh' ↔ .broadcast i d major ∈ signalEvents sh := by
  rw [h.signalEvents_eq, List.mem_append]
  refine or_iff_left fun hnew ↦ ?_
  obtain ⟨-, hdraw, -⟩ := broadcast_of_announced hnew
  omega

theorem Effect.broadcastBy_eq (h : Effect cfg j c a sh sh' cs) {d : ℕ} (hd : d ≤ sh.draws) :
    broadcastBy I (signalEvents sh') d = broadcastBy I (signalEvents sh) d := by
  rw [Bool.eq_iff_iff, broadcastBy_iff, broadcastBy_iff]
  exact exists_congr fun i ↦ exists_congr fun major ↦ and_congr_right' (h.broadcast_mem_iff hd)

/-! ### What belongs to the broadcasts -/

/-- What has a draw of the broadcasts. -/
structure Sender (cfg : Config ι σ) (s : State ι σ) : Prop extends Listed cfg s where
  numbered : Numbered s
  growing : ∀ I, (broadcasts I (signalEvents s.shared)).Pairwise (· < ·)
  said_le : ∀ e ∈ signalEvents s.shared, ∀ d, e.draw? = some d → d ≤ s.shared.draws
  pos : ∀ i d major, .broadcast i d major ∈ signalEvents s.shared → 0 < d
  sends : ∀ k b, .send b ∈ s.threads k → ∀ i major,
    .broadcast i b.draw major ∈ signalEvents s.shared →
      k = i ∧ b.dst = none ∧ b.type = .signal ∧ b.major = major
  carries : ∀ m, m ∉ s.shared.msgList → ∀ i major,
    .broadcast i (s.shared.pool m).draw major ∈ signalEvents s.shared →
      (s.shared.pool m).type = some .signal ∧ (s.shared.pool m).major = some major
  posts : ∀ k t m, .post t m ∈ s.threads k → ∀ i major,
    .broadcast i (s.shared.pool m).draw major ∈ signalEvents s.shared →
      (s.shared.pool m).dst = some cfg.bus ∧ k = i ∨
        (s.shared.pool m).dst ≠ some cfg.bus ∧ k = cfg.busTask
  relays : ∀ d major subs, .relayed d major subs ∈ signalEvents s.shared → ∀ i major',
    .broadcast i d major' ∈ signalEvents s.shared → major = major'

namespace Sender

/-- A new draw is announced with its message. -/
theorem new_send (h : Sender cfg s) (he : Effect cfg j c a s.shared sh' cs) {b : SendArgs ι σ}
    (hb : .send b ∈ cs) {major : Major} (hmem : .broadcast i b.draw major ∈ signalEvents sh') :
    j = i ∧ b.dst = none ∧ b.type = .signal ∧ b.major = major := by
  have hold : b.draw ≤ s.shared.draws → 0 < b.draw := fun hle ↦
    h.pos _ _ _ ((he.broadcast_mem_iff hle).1 hmem)
  rcases he.send_origin hb with ⟨k, f, rfl, rfl, hsend, -⟩ | ⟨hdraw, -⟩
  · obtain ⟨hdraw, -⟩ := send_of_callApi hsend
    rw [he.signalEvents_eq, List.mem_append] at hmem
    rcases hmem with hmem | hmem
    · have hle := h.said_le _ hmem _ rfl
      have hpos := hold hle
      omega
    · obtain ⟨rfl, -, k', f', -, hf, hbroadcast⟩ := broadcast_of_announced hmem
      cases hf
      obtain ⟨b', hsent, -, htype, hdst, hmajor⟩ := callApi_of_broadcasts cfg i s.shared
        hbroadcast
      rw [hsent, List.mem_singleton, Cmd.send.injEq] at hsend
      exact ⟨rfl, hsend ▸ hdst, hsend ▸ htype, hsend ▸ hmajor⟩
  · have hpos := hold (by omega)
    omega

theorem said_le_step (h : Sender cfg s) (hc : s.threads j = c :: rest)
    (he : Effect cfg j c a s.shared sh' cs) :
    ∀ e ∈ signalEvents sh', ∀ d, e.draw? = some d → d ≤ sh'.draws := by
  intro e hmem d hd
  have hle := he.numbers_le.1
  have hmem' := hmem
  rw [he.signalEvents_eq, List.mem_append] at hmem'
  rcases hmem' with hold | hnew
  · exact (h.said_le e hold d hd).trans hle
  · rcases draw_of_announced hnew hd with ⟨k, major, rfl⟩ | ⟨m, hm, rfl⟩
    · obtain ⟨-, hdraw, u, f, rfl, rfl, hf⟩ := broadcast_of_announced hnew
      obtain ⟨b, hsent, hb, -⟩ := callApi_of_broadcasts cfg j s.shared hf
      obtain ⟨-, hnum, -⟩ := send_of_callApi (hsent ▸ List.mem_singleton_self _)
      cases he
      omega
    · exact (h.numbered.pool_le m (h.not_free (Good.mem_head hc) hm)).trans hle

theorem pos_step (h : Sender cfg s) (he : Effect cfg j c a s.shared sh' cs) :
    ∀ i d major, .broadcast i d major ∈ signalEvents sh' → 0 < d := by
  intro i d major hmem
  by_cases hle : d ≤ s.shared.draws
  · exact h.pos i d major ((he.broadcast_mem_iff hle).1 hmem)
  · omega

/-- A new broadcast has a larger draw than the others. -/
theorem growing_step (h : Sender cfg s) (he : Effect cfg j c a s.shared sh' cs) (I : ι → Bool) :
    (broadcasts I (signalEvents sh')).Pairwise (· < ·) := by
  rw [broadcasts, he.signalEvents_eq, List.filterMap_append, List.pairwise_append]
  refine ⟨h.growing I, ?_, fun d hd d' hd' ↦ ?_⟩
  · unfold announced
    split
    · next f =>
      cases f.broadcasts? with
      | none => exact List.Pairwise.nil
      | some major =>
        rw [Option.elim_some, List.filterMap_cons]
        split
        · exact List.Pairwise.nil
        · exact List.pairwise_singleton _ _
    · exact List.Pairwise.nil
    · next m => cases (s.shared.pool m).major <;> exact List.Pairwise.nil
    · split <;> exact List.Pairwise.nil
    · split <;> exact List.Pairwise.nil
    · split <;> exact List.Pairwise.nil
    · exact List.Pairwise.nil
  · obtain ⟨i, major, -, hmem⟩ := mem_broadcasts.1 hd
    obtain ⟨i', major', -, hmem'⟩ := mem_broadcasts.1 hd'
    obtain ⟨-, hdraw, -⟩ := broadcast_of_announced hmem'
    have hle := h.said_le _ hmem d rfl
    omega

theorem carries_step (h : Sender cfg s) (hc : s.threads j = c :: rest)
    (he : Effect cfg j c a s.shared sh' cs) :
    ∀ m, m ∉ sh'.msgList → ∀ i major, .broadcast i (sh'.pool m).draw major ∈ signalEvents sh' →
      (sh'.pool m).type = some .signal ∧ (sh'.pool m).major = some major := by
  intro m hm i major hmem
  have hmove := move_of_effect he
  have hhead := Good.mem_head hc
  rcases hmove.origin hm with hfree | ⟨⟨b, rfl, heq⟩ | ⟨n, ms, subs, rfl, heq⟩, -⟩
  · have hheader := hmove.header_eq hfree
    rw [Message.draw_eq hheader, he.broadcast_mem_iff (h.numbered.pool_le m hfree)] at hmem
    rw [Message.type_eq hheader, Message.major_eq hheader]
    exact h.carries m hfree i major hmem
  · rw [heq] at hmem ⊢
    have hmem : .broadcast i b.draw major ∈ signalEvents sh' := hmem
    rw [he.broadcast_mem_iff (h.numbered.send_le j b hhead)] at hmem
    obtain ⟨-, -, htype, hmajor⟩ := h.sends j b hhead i major hmem
    exact ⟨(type_initMessage cfg b).trans (congrArg some htype),
      (getMajor_mkCode _ _ _).trans (congrArg some hmajor)⟩
  · have hfree := h.not_free hhead (m := n) rfl
    rw [heq] at hmem ⊢
    have hmem : .broadcast i (s.shared.pool n).draw major ∈ signalEvents sh' := hmem
    rw [he.broadcast_mem_iff (h.numbered.pool_le n hfree)] at hmem
    exact h.carries n hfree i major hmem

theorem posts_step (h : Sender cfg s) (hc : s.threads j = c :: rest)
    (he : Effect cfg j c a s.shared sh' cs) :
    ∀ k t m, .post t m ∈ Function.update s.threads j (cs ++ rest) k → ∀ i major,
      .broadcast i (sh'.pool m).draw major ∈ signalEvents sh' →
        (sh'.pool m).dst = some cfg.bus ∧ k = i ∨
          (sh'.pool m).dst ≠ some cfg.bus ∧ k = cfg.busTask := by
  intro k t m hm i major hmem
  have hmove := move_of_effect he
  have hhead := Good.mem_head hc
  rcases mem_expand_iff.1 hm with ⟨rfl, hnew⟩ | hm
  · rcases he.post_origin hnew with ⟨b, rfl, heq⟩ | ⟨n, ms, subs, rfl, heq⟩ | rfl
    · rw [heq] at hmem ⊢
      have hmem : .broadcast i b.draw major ∈ signalEvents sh' := hmem
      rw [he.broadcast_mem_iff (h.numbered.send_le k b hhead)] at hmem
      obtain ⟨rfl, hdst, -⟩ := h.sends k b hhead i major hmem
      refine .inl ⟨?_, rfl⟩
      show some (b.dst.getD cfg.bus) = _
      rw [hdst, Option.getD_none]
    · refine .inr ⟨?_, (h.knows k _ hhead).1⟩
      rw [heq]
      exact fun hbus ↦ (h.looping k n _ hhead ms List.mem_cons_self).1 (Option.some.inj hbus)
    · have hfree := h.not_free hhead (m := m) rfl
      have hheader := hmove.header_eq hfree
      rw [Message.draw_eq hheader, he.broadcast_mem_iff (h.numbered.pool_le m hfree)] at hmem
      have hknows := h.knows k _ hhead
      have hcall := hknows.2.1
      rw [Message.isCall_of_type (h.carries m hfree i major hmem).1] at hcall
      cases hcall
  · have hold := mem_of_mem_rest hc hm
    obtain ⟨hheader, hdst⟩ := h.kept hc hmove hm rfl
    rw [Message.draw_eq hheader,
      he.broadcast_mem_iff (h.numbered.pool_le m (h.not_free hold rfl))] at hmem
    rw [hdst]
    exact h.posts k t m hold i major hmem

theorem relays_step (h : Sender cfg s) (hc : s.threads j = c :: rest)
    (he : Effect cfg j c a s.shared sh' cs) :
    ∀ d major subs, .relayed d major subs ∈ signalEvents sh' → ∀ i major',
      .broadcast i d major' ∈ signalEvents sh' → major = major' := by
  intro d major subs hmem i major' hmem'
  have hsplit := hmem
  rw [he.signalEvents_eq, List.mem_append] at hsplit
  rcases hsplit with hold | hnew
  · exact h.relays d major subs hold i major'
      ((he.broadcast_mem_iff (h.said_le _ hold d rfl)).1 hmem')
  · obtain ⟨m, rfl, rfl, hmajor⟩ := relayed_origin hnew
    have hfree := h.not_free (Good.mem_head hc) (m := m) rfl
    rw [he.broadcast_mem_iff (h.numbered.pool_le m hfree)] at hmem'
    exact Option.some.inj (hmajor.symm.trans (h.carries m hfree i major' hmem').2)

/-- **The step lemma.** -/
theorem step (h : Sender cfg s) {l : ι × Choice ι σ} {t : State ι σ}
    (hok : AtHead (Delivering cfg) s l) (hstep : (fused cfg).step s l = some t) :
    Sender cfg t := by
  have hlisted := h.toListed.step hok hstep
  obtain ⟨j, a⟩ := l
  obtain ⟨c, rest, sh', cs, hc, he, rfl⟩ := effect_of_step hstep
  refine ⟨hlisted, h.numbered.step h.toGood hc he, h.growing_step he, h.said_le_step hc he,
    h.pos_step he, fun k b hb i major hmem ↦ ?_, h.carries_step hc he, h.posts_step hc he,
    h.relays_step hc he⟩
  rcases mem_expand_iff.1 hb with ⟨rfl, hnew⟩ | hb
  · exact h.new_send he hnew hmem
  · have hold := mem_of_mem_rest hc hb
    exact h.sends k b hold i major ((he.broadcast_mem_iff (h.numbered.send_le k b hold)).1 hmem)

theorem initial (cfg : Config ι σ) : Sender cfg (Mblue.initial cfg) where
  toListed := Listed.initial cfg
  numbered := Numbered.initial cfg
  growing := fun I ↦ List.Pairwise.nil
  said_le := fun e hmem ↦ absurd hmem List.not_mem_nil
  pos := fun i d major hmem ↦ absurd hmem List.not_mem_nil
  sends := fun k b hb ↦ by rcases mem_initial hb with h | h <;> cases h
  carries := fun m hm ↦ absurd (List.mem_finRange m) hm
  posts := fun k t m hm ↦ by rcases mem_initial hm with h | h <;> cases h
  relays := fun d major subs hmem ↦ absurd hmem List.not_mem_nil

theorem of_run (h : Run (fused cfg).step (AtHead (Delivering cfg)) (Mblue.initial cfg) s) :
    Sender cfg s :=
  h.invariant (initial cfg) fun ha hok hstep ↦ ha.step hok hstep

end Sender

end Mblue
