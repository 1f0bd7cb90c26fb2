import Mblue.Delivery.Hop
import Mblue.Delivery.Senders

/-!
# The two hops of a broadcast

On the first hop the broadcasts of a thread go to the bus (`outward`), on the second the replicas of
all broadcasts go to a subscriber (`inward`). Each hop has one sender: the thread, and the bus.

The first hop grows with the broadcasts of the thread and loses those for which there is no free
message (`Sender.outward_step`). The second has just what the bus has made replicas of
(`Sender.inward_step`).
-/

set_option linter.unusedSectionVars false

namespace Mblue

variable {ι σ : Type} [Fintype ι] [DecidableEq ι] [DecidableEq σ]

/-- The broadcasts of thread `i` that the bus has taken, and those on the way to it. -/
def outward (cfg : Config ι σ) (i : ι) (s : State ι σ) : List ℕ :=
  hop cfg cfg.bus cfg.busTask i (broadcastBy (· == i) (signalEvents s.shared)) s

/-- The broadcasts that the segment `ms` on task `t` has taken, and those on the way to it from the
bus. -/
def inward (cfg : Config ι σ) (ms : σ) (t : ι) (s : State ι σ) : List ℕ :=
  hop cfg ms t cfg.busTask (broadcastBy (fun _ ↦ true) (signalEvents s.shared)) s

/-- The draw of a replica for the segment. -/
def Event.copies? (ms : σ) : Event ι σ → Option ℕ
  | .replica _ copy => if copy.dst = some ms then some copy.draw else none
  | _ => none

variable {cfg : Config ι σ} {s : State ι σ} {I : ι → Bool} {i j k t : ι} {ms : σ}
  {p q : ℕ → Bool} {c : Cmd ι σ} {a : Choice ι σ} {rest cs : List (Cmd ι σ)} {sh' : Shared ι σ} {d : ℕ}

/-! ### What is on a hop -/

theorem draw_of_started {e : Event ι σ} (h : started cfg ms e = some d) : e.draw? = some d := by
  cases e with
  | relayed | handled => exact congrArg some (Option.some.inj (Option.ite_none_right_eq_some.1 h).2)
  | _ => cases h

theorem msg_of_handling {sh : Shared ι σ} (h : handling ms sh c = some d) :
    ∃ m, c.msg? = some m ∧ arriving ms sh m = some d := by
  cases c with
  | busSignal m | signalHandler ms' m => exact ⟨m, rfl, h⟩
  | _ => cases h

/-- Nothing is on a hop in the first state. -/
theorem hop_initial (cfg : Config ι σ) (ms : σ) (t j : ι) (p : ℕ → Bool) :
    hop cfg ms t j p (initial cfg) = [] := by
  have hhandling : ((initial cfg).threads t).filterMap (handling ms (initial cfg).shared) = [] :=
    List.filterMap_eq_nil_iff.2 fun x hx ↦ by rcases mem_initial hx with rfl | rfl <;> rfl
  have hposting : ((initial cfg).threads j).filterMap (posting cfg ms (initial cfg).shared) = [] :=
    List.filterMap_eq_nil_iff.2 fun x hx ↦ by rcases mem_initial hx with rfl | rfl <;> rfl
  rw [hop, hhandling, hposting]
  rfl

namespace Sender

/-- What is on a hop was drawn. -/
theorem le_of_mem_hop (h : Sender cfg s) (hd : d ∈ hop cfg ms t j p s) :
    d ≤ s.shared.draws := by
  have hmsg : ∀ {m}, m ∉ s.shared.msgList → arriving ms s.shared m = some d →
      d ≤ s.shared.draws := fun hm harr ↦ (arriving_eq_some.1 harr).2 ▸ h.numbered.pool_le _ hm
  have hmem := (List.mem_filter.1 hd).1
  simp only [List.mem_append, List.mem_filterMap] at hmem
  rcases hmem with ((⟨e, he, heq⟩ | ⟨x, hx, heq⟩) | ⟨m, hm, heq⟩) | ⟨x, hx, heq⟩
  · exact h.said_le e he d (draw_of_started heq)
  · obtain ⟨m, hxm, harr⟩ := msg_of_handling heq
    exact hmsg (h.not_free hx hxm) harr
  · exact hmsg (h.not_free_of_mq hm) heq
  · cases x with
    | send b =>
      obtain ⟨-, hdraw⟩ := Option.ite_none_right_eq_some.1 heq
      exact Option.some.inj hdraw ▸ h.numbered.send_le j b hx
    | post u m => exact hmsg (h.not_free hx rfl) heq
    | _ => cases heq

/-- Two selections that agree on the draws there are. -/
theorem hop_congr (h : Sender cfg s) (hpq : ∀ d ≤ s.shared.draws, p d = q d) :
    hop cfg ms t j p s = hop cfg ms t j q s := by
  have hall : ∀ q : ℕ → Bool, hop cfg ms t j q s = (hop cfg ms t j (fun _ ↦ true) s).filter q :=
    fun q ↦ by rw [hop, hop, List.filter_filter]; simp only [Bool.and_true]
  rw [hall p, hall q]
  exact List.filter_congr fun d hd ↦ hpq d (h.le_of_mem_hop hd)

/-- **One step on a hop** of the broadcasts that has one sender. -/
theorem hop_step (h : Sender cfg s) (hc : s.threads k = c :: rest)
    (he : Effect cfg k c a s.shared sh' cs) (hdelivers : delivers cfg c a s.shared = true)
    (hctx : cfg.context ms = some t)
    (hsole : ∀ k, ∀ x ∈ s.threads k, ∀ d, posting cfg ms s.shared x = some d →
      d ∈ broadcasts I (signalEvents s.shared) → k = j) :
    hop cfg ms t j (broadcastBy I (signalEvents sh'))
        ⟨sh', Function.update s.threads k (cs ++ rest)⟩ =
        hop cfg ms t j (broadcastBy I (signalEvents s.shared)) s ++
          (if j = k then
            (leaving cfg ms k s.shared c a).filter (broadcastBy I (signalEvents sh'))
          else []) ∨
      Loses cfg ms (broadcastBy I (signalEvents s.shared)) c s.shared ∧
        (hop cfg ms t j (broadcastBy I (signalEvents sh'))
          ⟨sh', Function.update s.threads k (cs ++ rest)⟩).Sublist
            (hop cfg ms t j (broadcastBy I (signalEvents s.shared)) s) := by
  have hold : ∀ d ≤ s.shared.draws, broadcastBy I (signalEvents sh') d =
      broadcastBy I (signalEvents s.shared) d := fun d hd ↦ he.broadcastBy_eq hd
  have hmem : ∀ {d}, d ≤ s.shared.draws → broadcastBy I (signalEvents sh') d = true →
      d ∈ broadcasts I (signalEvents s.shared) :=
    fun hd hp ↦ of_decide_eq_true ((hold _ hd).symm.trans hp)
  have hdrawn : ∀ {u x}, x ∈ s.threads u → ∀ {d}, posting cfg ms s.shared x = some d →
      d ≤ s.shared.draws := fun {u x} hx {d} heq ↦ by
    have hmem : d ∈ hop cfg ms t u (fun _ ↦ true) s := List.mem_filter.2
      ⟨List.mem_append_right _ (List.mem_filterMap.2 ⟨x, hx, heq⟩), rfl⟩
    exact h.le_of_mem_hop hmem
  rw [h.hop_congr fun d hd ↦ (hold d hd).symm]
  refine (hop_move h.toGood hc he hctx ?_ (fun m hm hp ↦ ?_) (fun u x hx d heq hp ↦ ?_)
    (room_of_delivers hdelivers)).imp_right fun ⟨⟨b, hsend, hnone, hdst, hp⟩, hsub⟩ ↦ ?_
  · rw [hold 0 (Nat.zero_le _)]
    refine decide_eq_false fun hmine ↦ ?_
    obtain ⟨i, major, -, hbroadcast⟩ := mem_broadcasts.1 hmine
    exact (h.pos i 0 major hbroadcast).ne rfl
  · obtain ⟨i, major, -, hbroadcast⟩ := mem_broadcasts.1 (hmem (h.numbered.pool_le m hm) hp)
    exact (h.carries m hm i major hbroadcast).1
  · exact hsole u x hx d heq (hmem (hdrawn hx heq) hp)
  · have hle := h.numbered.send_le k b (hsend ▸ Good.mem_head hc)
    exact ⟨⟨b, hsend, hnone, hdst, hold _ hle ▸ hp⟩, hsub⟩

/-! ### The first hop -/

/-- The broadcasts go to the bus from their thread. -/
theorem sole_outward (h : Sender cfg s) : ∀ k, ∀ x ∈ s.threads k, ∀ d,
    posting cfg cfg.bus s.shared x = some d → d ∈ broadcasts (· == i) (signalEvents s.shared) → k = i := by
  intro k x hx d heq hmine
  cases x with
  | send b =>
    obtain ⟨-, hdraw⟩ := Option.ite_none_right_eq_some.1 heq
    obtain rfl := Option.some.inj hdraw
    obtain ⟨i', major, hi, hmem⟩ := mem_broadcasts.1 hmine
    exact (h.sends k b hx i' major hmem).1.trans (beq_iff_eq.1 hi)
  | post u m =>
    obtain ⟨hdst, rfl⟩ := arriving_eq_some.1 heq
    obtain ⟨i', major, hi, hmem⟩ := mem_broadcasts.1 hmine
    rcases h.posts k u m hx i' major hmem with ⟨-, hk⟩ | ⟨hother, -⟩
    · exact hk.trans (beq_iff_eq.1 hi)
    · exact absurd hdst hother
  | _ => cases heq

/-- What user code sets out and has broadcast goes to the bus. -/
theorem dst_of_leaving (h : Sender cfg s) {u : UserCode ι σ} {f : Api ι σ}
    (he : Effect cfg k (.userCode u) (.api f) s.shared sh' cs) {b : SendArgs ι σ}
    (hb : .send b ∈ (callApi cfg k s.shared f).2)
    (hmine : broadcastBy I (signalEvents sh') b.draw = true) : b.dst = none := by
  obtain ⟨i, major, -, hmem⟩ := broadcastBy_iff.1 hmine
  have heff := he
  cases he
  exact (h.new_send heff (List.mem_append_left _ hb) hmem).2.1

/-- What user code sends and does not broadcast has a draw that is not broadcast. -/
theorem sends_other (h : Sender cfg s) {u : UserCode ι σ} {f : Api ι σ}
    (he : Effect cfg k (.userCode u) (.api f) s.shared sh' cs) (hf : f.broadcasts? = none)
    {b : SendArgs ι σ} (hb : .send b ∈ (callApi cfg k s.shared f).2) :
    broadcastBy I (signalEvents sh') b.draw ≠ true := by
  intro hp
  have hnone : announced cfg k s.shared (.userCode u) (.api f) = [] := by
    rw [announced, hf]
    rfl
  obtain ⟨i, major, -, hmem⟩ := broadcastBy_iff.1 hp
  rw [he.signalEvents_eq, hnone, List.append_nil] at hmem
  have hle := h.said_le _ hmem _ rfl
  have hpos := h.pos _ _ _ hmem
  obtain ⟨hnew, -⟩ := send_of_callApi hb
  omega

theorem leaving_outward (h : Sender cfg s) (hc : s.threads k = c :: rest)
    (he : Effect cfg k c a s.shared sh' cs) :
    (if i = k then (leaving cfg cfg.bus k s.shared c a).filter (broadcastBy (· == i) (signalEvents sh'))
      else []) = broadcasts (· == i) (announced cfg k s.shared c a) := by
  have hevents := he.signalEvents_eq
  -- most commands broadcast nothing and let nothing go
  have hquiet : leaving cfg cfg.bus k s.shared c a = [] →
      (∀ e ∈ announced cfg k s.shared c a, e.broadcasts? (· == i) = none) →
      (if i = k then (leaving cfg cfg.bus k s.shared c a).filter (broadcastBy (· == i) (signalEvents sh'))
        else []) = broadcasts (· == i) (announced cfg k s.shared c a) := fun hnil hes ↦ by
    rw [hnil, List.filter_nil, ite_self, broadcasts, List.filterMap_eq_nil_iff.2 hes]
  cases c with
  | busSignalLoop m subs =>
    refine hquiet ?_ fun e hmem ↦ ?_
    · cases subs with
      | nil => rfl
      | cons ms' subs =>
        -- no replica goes to the bus
        have hms := (h.looping k m _ (Good.mem_head hc) ms' List.mem_cons_self).1
        exact if_neg fun hand ↦ hms hand.1
    · cases announces_of_mem hmem
      rfl
  | userCode u =>
    cases a with
    | api f =>
      cases hf : f.broadcasts? with
      | none =>
        have hsent : (leaving cfg cfg.bus k s.shared (.userCode u) (.api f)).filter
            (broadcastBy (· == i) (signalEvents sh')) = [] := by
          refine List.filter_eq_nil_iff.2 fun d hd hp ↦ ?_
          obtain ⟨x, hx, heq⟩ := List.mem_filterMap.1 hd
          rcases cmd_of_callApi hx with ⟨b, rfl⟩ | ⟨o, rfl⟩
          · obtain ⟨-, hdraw⟩ := Option.ite_none_right_eq_some.1 heq
            exact h.sends_other he hf hx (Option.some.inj hdraw ▸ hp)
          · cases heq
        rw [hsent, ite_self, announced, hf]
        rfl
      | some major =>
        obtain ⟨b, hsent, hdraw, -, hdst, -⟩ := callApi_of_broadcasts cfg k s.shared hf
        have hpost : leaving cfg cfg.bus k s.shared (.userCode u) (.api f) =
            [s.shared.draws + 1] := by
          have hbus : posting cfg cfg.bus s.shared (.send b) = some (s.shared.draws + 1) := by
            rw [posting, hdst, hdraw, Option.getD_none, if_pos rfl]
          rw [leaving, hsent, List.filterMap_cons_some hbus, List.filterMap_nil]
        have hsaid : announced cfg k s.shared (.userCode u) (.api f) =
            [.broadcast k (s.shared.draws + 1) major] := by
          rw [announced, hf]
          rfl
        rw [hpost, hsaid]
        by_cases hi : i = k
        · have hmine : broadcastBy (· == i) (signalEvents sh') (s.shared.draws + 1) = true := by
            refine broadcastBy_iff.2 ⟨k, major, beq_iff_eq.2 hi.symm, ?_⟩
            rw [hevents, hsaid]
            exact List.mem_append_right _ (List.mem_singleton_self _)
          have hone : (Event.broadcast (σ := σ) k (s.shared.draws + 1) major).broadcasts? (· == i) =
            some (s.shared.draws + 1) := if_pos (beq_iff_eq.2 hi.symm)
          rw [if_pos hi, List.filter_cons_of_pos hmine, List.filter_nil, broadcasts,
            List.filterMap_cons_some hone, List.filterMap_nil]
        · have hother : (Event.broadcast (σ := σ) k (s.shared.draws + 1) major).broadcasts? (· == i) =
            none := if_neg fun hk ↦ hi (beq_iff_eq.1 hk).symm
          rw [if_neg hi, broadcasts, List.filterMap_cons_none hother, List.filterMap_nil]
    | _ => exact hquiet rfl fun e hmem ↦ absurd hmem List.not_mem_nil
  | _ =>
    refine hquiet rfl fun e hmem ↦ ?_
    cases announces_of_mem hmem <;> rfl

/-- **One step on the first hop.** -/
theorem outward_step (h : Sender cfg s) (hc : s.threads k = c :: rest)
    (he : Effect cfg k c a s.shared sh' cs) (hdelivers : delivers cfg c a s.shared = true) :
    outward cfg i ⟨sh', Function.update s.threads k (cs ++ rest)⟩ =
        outward cfg i s ++ broadcasts (· == i) (announced cfg k s.shared c a) ∨
      Loses cfg cfg.bus (broadcastBy (· == i) (signalEvents s.shared)) c s.shared ∧
        (outward cfg i ⟨sh', Function.update s.threads k (cs ++ rest)⟩).Sublist
          (outward cfg i s) := by
  rw [← h.leaving_outward hc he]
  exact h.hop_step hc he hdelivers cfg.context_bus h.sole_outward

/-! ### The second hop -/

/-- The replicas come from the bus. -/
theorem sole_inward (h : Sender cfg s) (hms : ms ≠ cfg.bus) : ∀ k, ∀ x ∈ s.threads k, ∀ d,
    posting cfg ms s.shared x = some d → d ∈ broadcasts (fun _ ↦ true) (signalEvents s.shared) →
      k = cfg.busTask := by
  intro k x hx d heq hmine
  obtain ⟨i, major, -, hmem⟩ := mem_broadcasts.1 hmine
  cases x with
  | send b =>
    obtain ⟨hdst, hdraw⟩ := Option.ite_none_right_eq_some.1 heq
    obtain rfl := Option.some.inj hdraw
    rw [(h.sends k b hx i major hmem).2.1] at hdst
    exact absurd hdst.symm hms
  | post u m =>
    obtain ⟨hdst, rfl⟩ := arriving_eq_some.1 heq
    refine (h.posts k u m hx i major hmem).elim (fun hbus ↦ ?_) And.right
    exact absurd (Option.some.inj (hdst.symm.trans hbus.1)) hms
  | _ => cases heq

theorem leaving_inward (h : Sender cfg s) (hc : s.threads k = c :: rest)
    (he : Effect cfg k c a s.shared sh' cs) (hms : ms ≠ cfg.bus) :
    (if cfg.busTask = k then
        (leaving cfg ms k s.shared c a).filter (broadcastBy (fun _ ↦ true) (signalEvents sh'))
      else []) = ((announced cfg k s.shared c a).filterMap (Event.copies? ms)).filter
        (broadcastBy (fun _ ↦ true) (signalEvents sh')) := by
  have hknows := h.knows k c (Good.mem_head hc)
  -- most commands make no replica and post nothing
  have hquiet : leaving cfg ms k s.shared c a = [] →
      (∀ e ∈ announced cfg k s.shared c a, e.copies? ms = none) →
      (if cfg.busTask = k then
          (leaving cfg ms k s.shared c a).filter (broadcastBy (fun _ ↦ true) (signalEvents sh'))
        else []) = ((announced cfg k s.shared c a).filterMap (Event.copies? ms)).filter
          (broadcastBy (fun _ ↦ true) (signalEvents sh')) := fun hnil hes ↦ by
    rw [hnil, List.filter_nil, ite_self, List.filterMap_eq_nil_iff.2 hes, List.filter_nil]
  cases c with
  | busSignalLoop m subs =>
    rw [if_pos hknows.1.symm]
    refine congrArg _ ?_
    cases subs with
    | nil => rfl
    | cons ms' subs =>
      rw [leaving, announced]
      by_cases hctx : (cfg.context ms').isSome = true
      · rw [if_pos hctx]
        by_cases heq : ms' = ms
        · have hcopy : (Event.replica (s.shared.pool m)
              (replicate (s.shared.pool m) ms')).copies? ms = some (s.shared.pool m).draw :=
            if_pos (congrArg some heq)
          rw [if_pos ⟨heq, hctx⟩, List.filterMap_cons_some hcopy, List.filterMap_nil]
        · have hother : (Event.replica (s.shared.pool m)
              (replicate (s.shared.pool m) ms')).copies? ms = none :=
            if_neg fun hdst ↦ heq (Option.some.inj hdst)
          rw [if_neg fun hand ↦ heq hand.1, List.filterMap_cons_none hother, List.filterMap_nil]
      · rw [if_neg hctx, if_neg fun hand ↦ hctx hand.2, List.filterMap_nil]
  | userCode u =>
    have hnone : (announced cfg k s.shared (.userCode u) a).filterMap (Event.copies? ms) = [] :=
      List.filterMap_eq_nil_iff.2 fun e hmem ↦ by
        cases announces_of_mem hmem
        rfl
    rw [hnone, List.filter_nil]
    cases a with
    | api f =>
      refine ite_eq_right_iff.2 fun _ ↦ List.filter_eq_nil_iff.2 fun d hd hp ↦ ?_
      obtain ⟨x, hx, hpost⟩ := List.mem_filterMap.1 hd
      rcases cmd_of_callApi hx with ⟨b, rfl⟩ | ⟨o, rfl⟩
      · -- a broadcast leaves its sender for the bus
        obtain ⟨hdst, hdraw⟩ := Option.ite_none_right_eq_some.1 hpost
        obtain rfl := Option.some.inj hdraw
        rw [h.dst_of_leaving he hx hp] at hdst
        exact hms hdst.symm
      · cases hpost
    | _ => exact ite_self _
  | _ =>
    refine hquiet rfl fun e hmem ↦ ?_
    cases announces_of_mem hmem <;> rfl

/-- **One step on the second hop.** -/
theorem inward_step (h : Sender cfg s) (hc : s.threads k = c :: rest)
    (he : Effect cfg k c a s.shared sh' cs) (hdelivers : delivers cfg c a s.shared = true)
    (hctx : cfg.context ms = some t) (hms : ms ≠ cfg.bus) :
    inward cfg ms t ⟨sh', Function.update s.threads k (cs ++ rest)⟩ = inward cfg ms t s ++
      ((announced cfg k s.shared c a).filterMap (Event.copies? ms)).filter
        (broadcastBy (fun _ ↦ true) (signalEvents sh')) := by
  rw [← h.leaving_inward hc he hms]
  refine (h.hop_step hc he hdelivers hctx (h.sole_inward hms)).resolve_right fun ⟨hloses, _⟩ ↦ ?_
  obtain ⟨b, rfl, -, hdst, hp⟩ := hloses
  obtain ⟨i, major, -, hmem⟩ := broadcastBy_iff.1 hp
  rw [(h.sends k b (Good.mem_head hc) i major hmem).2.1] at hdst
  exact hms hdst.symm

end Sender

end Mblue
