import Mblue.Properties.PublishSubscribe

/-!
# What becomes of a broadcast

The results of `Properties/PublishSubscribe.lean` for one call of `broadcast_signal`, in every state
that is reached after it (`Published`): the bus takes the signal in once; it makes a replica for
each subscription it had handled by then and no other, the message that was sent under a new
destination; and a segment handles this broadcast before every later one of the same thread.

**Two conditions are needed** (`Delivering`), beside the room in the queues: the bus segment is not
subscribed, since a replica for it is taken for a new signal and relayed again
(`not_published_bus`); and no reference counter wraps around.
-/

set_option linter.unusedSectionVars false

namespace Mblue

variable {ι σ : Type} [Fintype ι] [DecidableEq ι] [DecidableEq σ] {cfg : Config ι σ}
  {s : State ι σ} {i : ι} {ms : σ} {tr : List (Event ι σ)} {d : ℕ}

/-! ### What a segment is due -/

theorem relayed_of_due (h : d ∈ dueSignals ms tr) : d ∈ relayedSignals tr := by
  obtain ⟨e, he, hd⟩ := List.mem_flatMap.1 h
  cases e with
  | relayed d' major subs =>
    rw [List.eq_of_mem_replicate hd]
    exact List.mem_filterMap.2 ⟨_, he, rfl⟩
  | _ => cases hd

theorem relayedSignals_append (before after : List (Event ι σ)) (d : ℕ) (major : Major)
    (subs : List σ) : relayedSignals (before ++ .relayed d major subs :: after) =
      relayedSignals before ++ d :: relayedSignals after := by
  rw [relayedSignals, List.filterMap_append]
  rfl

/-- A signal that is relayed once is due as often as the segment is on its list. -/
theorem count_dueSignals {before after : List (Event ι σ)} {major : Major} {subs : List σ}
    (honce : (relayedSignals (before ++ .relayed d major subs :: after)).count d ≤ 1) :
    (dueSignals ms (before ++ .relayed d major subs :: after)).count d = subs.count ms := by
  rw [relayedSignals_append, List.count_append, List.count_cons_self] at honce
  have hbefore : (dueSignals ms before).count d = 0 := List.count_eq_zero_of_not_mem fun h ↦ by
    have hpos := List.count_pos_iff.2 (relayed_of_due h)
    omega
  have hafter : (dueSignals ms after).count d = 0 := List.count_eq_zero_of_not_mem fun h ↦ by
    have hpos := List.count_pos_iff.2 (relayed_of_due h)
    omega
  have happend : dueSignals ms (before ++ .relayed d major subs :: after) =
      dueSignals ms before ++ (List.replicate (subs.count ms) d ++ dueSignals ms after) := by
    rw [dueSignals, List.flatMap_append]
    rfl
  rw [happend, List.count_append, List.count_append, hbefore, hafter, List.count_replicate_self,
    Nat.zero_add, Nat.add_zero]

/-- What is relayed in the order of the draws is due in that order. -/
theorem pairwise_dueSignals {p : ℕ → Bool}
    (h : ((relayedSignals tr).filter p).Pairwise (· < ·)) :
    ((dueSignals ms tr).filter p).Pairwise (· ≤ ·) := by
  induction tr with
  | nil => exact List.Pairwise.nil
  | cons e tr ih =>
    cases e with
    | relayed d' major subs =>
      have hdue : dueSignals ms (.relayed d' major subs :: tr) =
          List.replicate (subs.count ms) d' ++ dueSignals ms tr := rfl
      have hrelayed : relayedSignals (.relayed d' major subs :: tr) = d' :: relayedSignals tr := rfl
      rw [hrelayed] at h
      rw [hdue, List.filter_append]
      cases hp : p d' with
      | false =>
        rw [List.filter_cons_of_neg (by rw [hp]; exact Bool.false_ne_true)] at h
        rw [List.filter_eq_nil_iff.2 fun x hx ↦ by
          rw [List.eq_of_mem_replicate hx, hp]
          exact Bool.false_ne_true]
        exact ih h
      | true =>
        rw [List.filter_cons_of_pos hp, List.pairwise_cons] at h
        refine List.pairwise_append.2 ⟨?_, ih h.2, fun x hx y hy ↦ ?_⟩
        · exact (List.pairwise_replicate.2 (.inr le_rfl)).filter _
        · obtain ⟨hdue, hpy⟩ := List.mem_filter.1 hy
          rw [List.eq_of_mem_replicate (List.mem_of_mem_filter hx)]
          exact (h.1 y (List.mem_filter.2 ⟨relayed_of_due hdue, hpy⟩)).le
    | _ => exact ih h

/-! ### The property -/

/-- **What has become of a broadcast** with these arguments that the thread has made. -/
structure Published (cfg : Config ι σ) (i : ι) (A : SendArgs ι σ) (s : State ι σ) : Prop where
  /-- The bus takes it in at most once. -/
  once : (relayedSignals (signalEvents s.shared)).count A.draw ≤ 1
  /-- No replica is made before. -/
  unrelayed : A.draw ∉ relayedSignals (signalEvents s.shared) →
    ∀ ms, A.draw ∉ (signalEvents s.shared).filterMap (Event.copies? ms)
  /-- A segment gets no more replicas than it had subscriptions to the broadcast's number. -/
  replicas_le : ∀ before major subs after,
    signalEvents s.shared = before ++ .relayed A.draw major subs :: after → ∀ ms,
      ((signalEvents s.shared).filterMap (Event.copies? ms)).count A.draw ≤
        (subscriptions A.major before).count ms
  /-- It gets one for each when the bus is done with the broadcast. -/
  replicas_eq : (∀ m subs, .busSignalLoop m subs ∈ s.threads cfg.busTask →
      (s.shared.pool m).draw ≠ A.draw) → ∀ before major subs after,
    signalEvents s.shared = before ++ .relayed A.draw major subs :: after → ∀ ms,
      ((signalEvents s.shared).filterMap (Event.copies? ms)).count A.draw =
        (subscriptions A.major before).count ms
  /-- A replica is the message that was sent, with a counter of one. -/
  copy_eq : ∀ original copy, .replica original copy ∈ signalEvents s.shared →
    copy.draw = A.draw → ∃ ms, copy = { initMessage cfg A with ref := 1, dst := some ms }
  /-- A later broadcast of the thread is not handled before this one, and not until this one has
  been handled as often as it is due. -/
  inOrder : ∀ d, [A.draw, d].Sublist (broadcasts (· == i) (signalEvents s.shared)) →
    ∀ ms, Subscriber cfg ms → ¬[d, A.draw].Sublist (handledSignals ms (signalEvents s.shared)) ∧
      (d ∈ handledSignals ms (signalEvents s.shared) →
        (handledSignals ms (signalEvents s.shared)).count A.draw =
          (dueSignals ms (signalEvents s.shared)).count A.draw)
  /-- When all is quiet, it has been handled as often as it was due. -/
  handled_eq : Quiescent s → ∀ ms, Subscriber cfg ms →
    (handledSignals ms (signalEvents s.shared)).count A.draw =
      (dueSignals ms (signalEvents s.shared)).count A.draw

/-! ### Replicas -/

/-- What the bus has still to make of a signal. -/
theorem count_copying_eq_zero {l : List (Cmd ι σ)} {sh : Shared ι σ}
    (h : ∀ m subs, .busSignalLoop m subs ∈ l → (sh.pool m).draw ≠ d) :
    ((l.flatMap (copying sh)).filterMap (toSegment ms)).count d = 0 := by
  refine List.count_eq_zero_of_not_mem fun hmem ↦ ?_
  obtain ⟨x, hx, hseg⟩ := List.mem_filterMap.1 hmem
  obtain ⟨c, hc, hcopy⟩ := List.mem_flatMap.1 hx
  cases c with
  | busSignalLoop m subs =>
    obtain ⟨ms', -, rfl⟩ := List.mem_map.1 hcopy
    obtain ⟨-, heq⟩ := Option.ite_none_right_eq_some.1 hseg
    exact h m subs hc (Option.some.inj heq)
  | _ => cases hcopy

/-! ### Order -/

/-- The broadcasts of a thread that a segment has handled are the first of those it is due. -/
theorem handledBy_prefix (h : Run (fused cfg).step (AtHead (Delivering cfg)) (initial cfg) s)
    (i : ι) (hms : Subscriber cfg ms) :
    (handledSignals ms (signalEvents s.shared)).filter
        (broadcastBy (· == i) (signalEvents s.shared)) <+:
      (dueSignals ms (signalEvents s.shared)).filter
        (broadcastBy (· == i) (signalEvents s.shared)) := by
  have hsub : ∀ l : List ℕ, (l.filter (isBroadcast (signalEvents s.shared))).filter
      (broadcastBy (· == i) (signalEvents s.shared)) =
        l.filter (broadcastBy (· == i) (signalEvents s.shared)) := fun l ↦ by
    rw [List.filter_filter]
    refine List.filter_congr fun d _ ↦ ?_
    cases hd : broadcastBy (· == i) (signalEvents s.shared) d with
    | false => rfl
    | true =>
      obtain ⟨k, major, -, hmem⟩ := broadcastBy_iff.1 hd
      exact broadcastBy_iff.2 ⟨k, major, rfl, hmem⟩
  have hprefix := (handled_fused h hms).filter (broadcastBy (· == i) (signalEvents s.shared))
  rwa [hsub, hsub] at hprefix

/-- **A segment handles the broadcasts of a thread in their order.** -/
theorem inOrder_fused (h : Run (fused cfg).step (AtHead (Delivering cfg)) (initial cfg) s)
    {d' : ℕ} (hsent : [d, d'].Sublist (broadcasts (· == i) (signalEvents s.shared)))
    (hms : Subscriber cfg ms) :
    ¬[d', d].Sublist (handledSignals ms (signalEvents s.shared)) ∧
      (d' ∈ handledSignals ms (signalEvents s.shared) →
        (handledSignals ms (signalEvents s.shared)).count d =
          (dueSignals ms (signalEvents s.shared)).count d) := by
  have hgrowing := (Sender.of_run h).growing (· == i)
  have hlt : d < d' := List.pairwise_pair.1 (hgrowing.sublist hsent)
  have hmine : ∀ x ∈ [d, d'], broadcastBy (· == i) (signalEvents s.shared) x = true :=
    fun x hx ↦ decide_eq_true (hsent.subset hx)
  have hd := hmine d (by simp)
  have hd' := hmine d' (by simp)
  have hordered : ((dueSignals ms (signalEvents s.shared)).filter
      (broadcastBy (· == i) (signalEvents s.shared))).Pairwise (· ≤ ·) :=
    pairwise_dueSignals (hgrowing.sublist ((relayedInOrder_fused h).inOrder i))
  obtain ⟨rest, hrest⟩ := handledBy_prefix h i hms
  rw [← hrest, List.pairwise_append] at hordered
  refine ⟨fun hsub ↦ ?_, fun hhandled ↦ ?_⟩
  · have hpair := hsub.filter (broadcastBy (· == i) (signalEvents s.shared))
    rw [List.filter_eq_self.2 (by simpa [and_comm] using hmine)] at hpair
    exact Nat.not_le_of_lt hlt (List.pairwise_pair.1 (hordered.1.sublist hpair))
  · -- what is left behind the later one is not earlier
    have hnone : rest.count d = 0 := List.count_eq_zero_of_not_mem fun hmem ↦
      Nat.not_le_of_lt hlt (hordered.2.2 d' (List.mem_filter.2 ⟨hhandled, hd'⟩) d hmem)
    rw [← List.count_filter hd, ← List.count_filter hd (l := dueSignals ms _), ← hrest,
      List.count_append, hnone, Nat.add_zero]

/-! ### The result -/

variable {f : Api ι σ} {A : SendArgs ι σ} {s₁ t : State ι σ}

/-- A broadcast that has been made is in the trace. -/
theorem broadcast_mem_of_run (hcall : Draws cfg i f A s) (hf : f.broadcasts?.isSome = true)
    (hstep : (fused cfg).step s (i, .api f) = some s₁)
    (ht : Run (fused cfg).step (AtHead (Delivering cfg)) s₁ t) :
    .broadcast i A.draw A.major ∈ signalEvents t.shared := by
  obtain ⟨major, hmajor⟩ := Option.isSome_iff_exists.1 hf
  obtain ⟨b, hsent, -, -, -, hb⟩ := callApi_of_broadcasts cfg i s.shared hmajor
  obtain ⟨ds, hds, -⟩ := hcall.sent
  obtain rfl : b = A := Cmd.send.inj (List.cons.inj (hsent.symm.trans hds)).1
  have hfirst : .broadcast i b.draw b.major ∈ signalEvents s₁.shared := by
    obtain ⟨k, rest, hc, rfl, he⟩ := hcall.step_eq hstep
    have hsaid : announced cfg i s.shared (.userCode k) (.api f) =
        [.broadcast i (s.shared.draws + 1) major] := by
      rw [announced, hmajor]
      rfl
    have hevents := he.signalEvents_eq
    rw [hsaid, ← hcall.draw_eq, ← hb] at hevents
    exact hevents ▸ List.mem_append_right _ (List.mem_singleton_self _)
  refine ht.invariant (P := fun s ↦ .broadcast i b.draw b.major ∈ signalEvents s.shared) hfirst
    fun ha _ hst ↦ ?_
  obtain ⟨c, rest, sh', cs, hc, he, rfl⟩ := effect_of_step hst
  exact he.signalEvents_eq ▸ List.mem_append_left _ ha

theorem published_fused (hs : Run (fused cfg).step (AtHead (Delivering cfg)) (initial cfg) s)
    (hcall : Draws cfg i f A s) (hf : f.broadcasts?.isSome = true)
    (hstep : (fused cfg).step s (i, .api f) = some s₁)
    (ht : Run (fused cfg).step (AtHead (Delivering cfg)) s₁ t) : Published cfg i A t := by
  have hrun := (hs.tail (hcall.delivering hf) hstep).trans ht
  have hmem := broadcast_mem_of_run hcall hf hstep ht
  have hrelayed := relayedInOrder_fused hrun
  have hfanned := Fanned.of_run hrun
  have hbroadcast : isBroadcast (signalEvents t.shared) A.draw = true :=
    broadcastBy_iff.2 ⟨i, A.major, rfl, hmem⟩
  have honce : (relayedSignals (signalEvents t.shared)).count A.draw ≤ 1 := by
    rw [← List.count_filter hbroadcast]
    exact List.nodup_iff_count_le_one.1 hrelayed.once A.draw
  have hdue : ∀ before major subs after,
      signalEvents t.shared = before ++ .relayed A.draw major subs :: after → ∀ ms,
        (dueSignals ms (signalEvents t.shared)).count A.draw =
          (subscriptions A.major before).count ms := by
    intro before major subs after heq ms
    have hmajor : major = A.major := hrelayed.major_eq A.draw major subs i A.major
      (heq ▸ List.mem_append_right _ List.mem_cons_self) hmem
    rw [heq, count_dueSignals (heq ▸ honce), hrelayed.subs_eq before A.draw major subs after heq,
      hmajor]
  refine ⟨honce, fun hnone ms hcopy ↦ ?_, ?_, ?_,
    (contentsKept_fused hs hcall hf hstep ht).replica_eq,
    fun d hsent ms ↦ inOrder_fused hrun hsent, fun hquiet ms hms ↦ ?_⟩
  · have hmade : A.draw ∈ dueSignals ms (signalEvents t.shared) :=
      hfanned.copies_append ms ▸ List.mem_append_left _ hcopy
    exact hnone (relayed_of_due hmade)
  · intro before major subs after heq ms
    rw [← hdue before major subs after heq ms, ← hfanned.copies_append ms, List.count_append]
    exact Nat.le_add_right _ _
  · intro hdone before major subs after heq ms
    rw [← hdue before major subs after heq ms, ← hfanned.copies_append ms, List.count_append,
      count_copying_eq_zero hdone, Nat.add_zero]
  · have hsame := congrArg (List.count A.draw) (hquiet.handled_eq hrun hms)
    rwa [List.count_filter hbroadcast, List.count_filter hbroadcast] at hsame

/-- Signals are delivered, and there is a free message for the broadcast. -/
def Carried (cfg : Config ι σ) (A : SendArgs ι σ) (i : ι) (c : Cmd ι σ) (a : Choice ι σ)
    (sh : Shared ι σ) : Prop :=
  Delivering cfg i c a sh ∧ ∀ b, c = .send b → b.draw = A.draw → sh.msgList ≠ []

theorem Carried.unseen : Unseen (Carried cfg A) := fun _ _ _ _ major e huses hok ↦
  ⟨Delivering.unseen major e huses hok.1, hok.2⟩

/-- The broadcast is on its way to the bus, or has been relayed. -/
theorem mem_hop_of_run (hs : Run (fused cfg).step (AtHead (Delivering cfg)) (initial cfg) s)
    (hcall : Draws cfg i f A s) (hf : f.broadcasts?.isSome = true)
    (hstep : (fused cfg).step s (i, .api f) = some s₁)
    (ht : Run (fused cfg).step (AtHead (Carried cfg A)) s₁ t) :
    A.draw ∈ hop cfg cfg.bus cfg.busTask i (· == A.draw) t := by
  have hfirst := hs.tail (hcall.delivering hf) hstep
  have hdelivering : ∀ {s : State ι σ} {l}, AtHead (Carried cfg A) s l →
      AtHead (Delivering cfg) s l := fun hok ↦ hok.mono And.left
  refine ht.invariant_of (P := fun s ↦ A.draw ∈ hop cfg cfg.bus cfg.busTask i (· == A.draw) s)
    (fun hr ↦ And.intro (Sender.of_run (hfirst.trans (hr.mono hdelivering)))
      (broadcast_mem_of_run hcall hf hstep (hr.mono hdelivering))) ?_ fun hI ih hok hst ↦ ?_
  · obtain ⟨k, rest, hc, rfl, he⟩ := hcall.step_eq hstep
    obtain ⟨major, hmajor⟩ := Option.isSome_iff_exists.1 hf
    obtain ⟨b, hsent, -, -, hdst, -⟩ := callApi_of_broadcasts cfg i s.shared hmajor
    obtain ⟨ds, hds, -⟩ := hcall.sent
    obtain rfl : b = A := Cmd.send.inj (List.cons.inj (hsent.symm.trans hds)).1
    have hposting : posting cfg cfg.bus (callApi cfg i s.shared f).1 (.send b) = some b.draw :=
      if_pos (by rw [hdst]; rfl)
    refine List.mem_filter.2 ⟨List.mem_append_right _
      (List.mem_filterMap.2 ⟨.send b, ?_, hposting⟩), beq_self_eq_true _⟩
    show Cmd.send b ∈ Function.update s.threads i
      ((callApi cfg i s.shared f).2 ++ [.userCode k] ++ rest) i
    rw [Function.update_self, hsent]
    exact List.mem_cons_self
  · obtain ⟨hsender, hmem⟩ := hI
    obtain ⟨c, rest, sh', cs, hc, he, rfl⟩ := effect_of_step hst
    obtain ⟨hdelivers, hfinds⟩ := hok.cmd hc
    have hzero : (0 == A.draw) = false := beq_false_of_ne (hsender.pos i _ _ hmem).ne
    rcases hop_move (j := i) (p := (· == A.draw)) hsender.toGood hc he cfg.context_bus hzero
      (fun m hm hp ↦ (hsender.carries m hm i A.major (beq_iff_eq.1 hp ▸ hmem)).1)
      (fun k x hx d hd hp ↦ hsender.sole_outward k x hx d hd (mem_broadcasts.2
        ⟨i, A.major, beq_self_eq_true i, beq_iff_eq.1 hp ▸ hmem⟩))
      (room_of_delivers hdelivers.2) with
      heq | ⟨⟨b, rfl, hnone, -, hp⟩, -⟩
    · rw [heq]
      exact List.mem_append_left _ ih
    · -- a message is free when the broadcast is sent
      exact absurd hnone (alloc_ne_none hsender.toGood (hfinds b rfl (beq_iff_eq.1 hp)) _)

/-- **Every broadcast is replicated once for each subscription, and handled in order**; when all is
quiet it has been relayed, if there was a free message for it. -/
theorem published_of_run (hs : Run (system cfg).step (AtHead (Delivering cfg)) (initial cfg) s)
    (hcall : Draws cfg i f A s) (hf : f.broadcasts?.isSome = true)
    (hstep : (system cfg).step s (i, .api f) = some s₁)
    (ht : Run (system cfg).step (AtHead (Delivering cfg)) s₁ t) :
    Published cfg i A t ∧ (Run (system cfg).step (AtHead (Carried cfg A)) s₁ t → Quiescent t →
      A.draw ∈ relayedSignals (signalEvents t.shared)) := by
  obtain ⟨hsplit, -, hfused⟩ := Split.of_api (hs.mono fun hok ↦ hok.mono And.left)
    hcall.inUserCode hstep
  have hs' := run_fused_of_delivering hs
  have hgood : ∀ {u}, Run (fused cfg).step (AtHead (Delivering cfg)) (fuse cfg s₁) u → Good cfg u :=
    fun hr ↦ hr.invariant (P := Good cfg) hsplit.good fun ha hok hst ↦
      ha.step (hok.mono And.left) hst
  have ht' := (Split.run ht hsplit Delivering.unseen hgood).2
  have hpublished := published_fused hs' hcall.fuse hf hfused ht'
  refine ⟨{
    once := by simpa using hpublished.once
    unrelayed := by simpa using hpublished.unrelayed
    replicas_le := by simpa using hpublished.replicas_le
    replicas_eq := fun hdone ↦ by
      simpa using hpublished.replicas_eq fun m subs hmem ↦
        fuse_pool cfg t ▸ hdone m subs (mem_of_mem_fuse hmem)
    copy_eq := by simpa using hpublished.copy_eq
    inOrder := by simpa using hpublished.inOrder
    handled_eq := fun hquiet ↦ by simpa using hpublished.handled_eq (hquiet.fuse cfg) },
    fun hcarried hquiet ↦ ?_⟩
  have hcarried' := (Split.run hcarried hsplit Carried.unseen fun hr ↦
    hgood (hr.mono fun hok ↦ hok.mono And.left)).2
  have hmem := mem_hop_of_run hs' hcall.fuse hf hfused hcarried'
  have hrun := (hs'.tail (hcall.fuse.delivering hf) hfused).trans ht'
  rw [(hquiet.fuse cfg).hop_eq, started_bus (handled_ne_bus (hrun.mono fun hok ↦
    hok.mono And.left)), signalEvents_fuse] at hmem
  exact List.mem_of_mem_filter hmem

/-! ### Two subscribers, and the bus -/

/-- The arguments of the first broadcast of task `2`. -/
def firstBroadcast : SendArgs (Fin 3) (Fin 3) :=
  drawnArgs (initial broadcastConfig).shared (.task 2) .signal broadcastMajor 0 none 5 none

theorem draws_firstBroadcast : Draws broadcastConfig 2 (.broadcastSignal broadcastMajor 0 5)
    firstBroadcast (initial broadcastConfig) :=
  ⟨⟨_, _, rfl⟩, ⟨[], rfl, fun _ hx ↦ absurd hx List.not_mem_nil⟩, rfl⟩

/-- The segment `ms` is subscribed by task `1`, task `2` sends the signal, and the bus takes a
number of steps. -/
def subscribed (ms : Fin 3) (n : ℕ) : List (Fin 3 × Choice (Fin 3) (Fin 3)) :=
  stepsOf 1 [.api (.mblueSubscribe ms broadcastMajor), .go, .go, .go, .go, .finish 0] ++
    stepsOf 2 [.go, .go, .go, .go, .finish 0] ++ (0, .finish 0) :: List.replicate n (0, .go)

/-- One subscription, one replica. -/
theorem published_one : ∃ s₁, (system broadcastConfig).step (initial broadcastConfig)
      (2, .api (.broadcastSignal broadcastMajor 0 5)) = some s₁ ∧ ∃ t,
    exec (system broadcastConfig).step (AtHead (Delivering broadcastConfig)) s₁
      (subscribed 1 12) = some t ∧
    (signalEvents t.shared).filterMap Event.copy? = [(1, 1)] ∧
      Published broadcastConfig 2 firstBroadcast t :=
  ⟨_, rfl, exists_of_exec_eq rfl fun _ h ↦
    (published_of_run .refl draws_firstBroadcast rfl rfl h).1⟩

/-- There is room for what is posted. -/
def roomy (cfg : Config ι σ) (c : Cmd ι σ) (sh : Shared ι σ) : Bool :=
  match c with
  | .post t _ => decide ((sh.mq t).length < cfg.capacity t)
  | _ => true

/-- No reference counter wraps around, and no queue is full. -/
def Roomy (cfg : Config ι σ) (i : ι) (c : Cmd ι σ) (a : Choice ι σ) (sh : Shared ι σ) : Prop :=
  NoWrap i c a sh ∧ roomy cfg c sh = true

instance (cfg : Config ι σ) (i : ι) (c : Cmd ι σ) (a : Choice ι σ) (sh : Shared ι σ) :
    Decidable (Roomy cfg i c a sh) :=
  inferInstanceAs (Decidable (_ ∧ _))

/-- **The bus is subscribed**: its replica is relayed again, and there are two for one
subscription. -/
theorem not_published_bus : ∃ s₁, (system broadcastConfig).step (initial broadcastConfig)
      (2, .api (.broadcastSignal broadcastMajor 0 5)) = some s₁ ∧ ∃ t,
    exec (system broadcastConfig).step (AtHead (Roomy broadcastConfig)) s₁
      (subscribed 0 17) = some t ∧
    (signalEvents t.shared).filterMap Event.copy? = [(1, 0), (1, 0)] ∧
      ¬Published broadcastConfig 2 firstBroadcast t := by
  refine ⟨_, rfl, _, rfl, rfl, fun h ↦ ?_⟩
  have hle := h.replicas_le [.broadcast 2 1 broadcastMajor, .subscribed 0 broadcastMajor]
    broadcastMajor [0] _ rfl 0
  exact absurd hle (by decide)

end Mblue
