import Mblue.Events.Operations

/-!
# The pending set, queries of a type, and a failed add

Three properties of the event queue's functions, in every state that operations lead to.

* The bitmap, the list and the timers describe one set of pending events (`pendingSet_of_reachable`).
* Presence is tested with `event_bm & type`, elements are searched by equality. The two tests agree
  on a type exactly when nothing is queued under the empty type, if this is asked for, and a pending
  bit of the type means the type itself (`typeQueries_iff`).
* `event_queue_add` links the element before it gets the timer and calls the handler of
  `CALL_START`, and takes nothing back. It is atomic on failure exactly when it fails before, or the
  two last steps cannot fail (`addAtomic_iff`).
-/

namespace Mblue

namespace EventQueue

variable {q : EventQueue}

/-! ### One set of pending events -/

/-- What the bitmap, the list and the timers say together. -/
structure PendingSet (q : EventQueue) : Prop where
  eventBm : q.eventBm = orAll (q.queue.map (·.type))
  disjoint : q.queue.Pairwise fun a b ↦ a.type &&& b.type = 0
  timed : ∀ e ∈ q.queue, e.period ≠ 0 ∧ e.period ≠ eventTimeoutForever →
    ∃ timer, e.tick = some timer
  untimed : ∀ e ∈ q.queue, e.period = 0 ∨ e.period = eventTimeoutForever → e.tick = none
  owner_unique : ∀ a ∈ q.queue, ∀ b ∈ q.queue, ∀ timer, a.tick = some timer →
    b.tick = some timer → a = b
  owners_nodup : (q.queue.filterMap fun e ↦ e.tick).Nodup
  pool : (q.timers.timerLists ++ q.queue.filterMap fun e ↦ e.tick).Perm
    (List.finRange maxTimerNum)

/-- An owner is determined by its timer when the list of the owned timers has no duplicates. -/
theorem eq_of_owned_nodup {l : List Queued} (h : (owned l).Nodup) {a b : Queued} (ha : a ∈ l)
    (hb : b ∈ l) {timer : TimerId} (hat : a.tick = some timer) (hbt : b.tick = some timer) :
    a = b := by
  induction l with
  | nil => cases ha
  | cons e l ih =>
    have howned : ∀ {c : Queued}, c ∈ l → c.tick = some timer → timer ∈ owned l :=
      fun hc hct ↦ List.mem_filterMap.2 ⟨_, hc, hct⟩
    have htail : (owned l).Nodup := h.sublist ((List.sublist_cons_self e l).filterMap _)
    rcases List.mem_cons.1 ha with rfl | ha' <;> rcases List.mem_cons.1 hb with rfl | hb'
    · rfl
    · rw [owned_cons_of_some hat] at h
      exact absurd (howned hb' hbt) (List.nodup_cons.1 h).1
    · rw [owned_cons_of_some hbt] at h
      exact absurd (howned ha' hat) (List.nodup_cons.1 h).1
    · exact ih htail ha' hb'

theorem Sound.pendingSet (h : Sound q) : PendingSet q := by
  have hnodup : (owned q.queue ++ q.timers.timerLists).Nodup :=
    h.pool.nodup_iff.2 (List.nodup_finRange _)
  have howned : (owned q.queue).Nodup := hnodup.of_append_left
  refine ⟨h.eventBm, h.disjoint, fun e he hperiod ↦ ?_, fun e he hperiod ↦ ?_,
    fun a ha b hb timer ↦ eq_of_owned_nodup howned ha hb, howned,
    List.perm_append_comm.trans h.pool⟩
  · rw [← Option.isSome_iff_exists, Option.isSome_iff_ne_none]
    intro hnone
    rcases (h.tick_eq_none_iff e he).1 hnone with hzero | hforever
    · exact hperiod.1 hzero
    · exact hperiod.2 hforever
  · exact (h.tick_eq_none_iff e he).2 hperiod

/-- **The bitmap, the list of elements and the timer pool agree in every reachable state.** -/
theorem pendingSet_of_reachable (h : Reachable q) : PendingSet q :=
  (sound_of_reachable h).pendingSet

/-- Two timed events and one that waits; the first event ends itself at its first wake-up. -/
theorem pendingSet_two_timed : ∃ t, exec step (fun _ op ↦ op.TickNull) initial
      [.act (.schedule 1000 1 (some 7) ⟨some 4096, true, true⟩),
        .scheduleDefaultEvent 500 (some 8) ⟨some 8192, true, true⟩,
        .addSimplePendingEvent 6 0 (some 9) ⟨some 12288, true, true⟩,
        .wakeup 1 ⟨[], -1⟩ ⟨[], 0⟩] = some t ∧
      (t.eventBm, t.queue.map (·.type), t.timers.timerLists.length) =
        (0x80000006, [0x80000000, 6], 11) ∧ PendingSet t :=
  exists_of_exec_eq rfl fun _ h ↦ pendingSet_of_reachable h

/-! ### Queries of a type -/

variable {type : Word}

/-- What the queries of a type are taken to say about the elements of this type. -/
structure TypeQueries (q : EventQueue) (type : Word) : Prop where
  wakeup : ∀ first second q' rc, q.eventQueueWakeup type first second = .ok (q', rc) →
    (rc = MblueErrcode.ok.toInt ↔ ∃ e ∈ q.queue, e.type = type)
  cancel : (q.cancelDelayedEvent type).2 = MblueErrcode.ok.toInt ↔
    ∃ e ∈ q.queue, e.type = type ∧ e ∉ (q.cancelDelayedEvent type).1.queue
  schedule : ∀ timeout delayedEvent supply q',
    q.scheduleDelayedEventWithType timeout type delayedEvent supply =
      .ok (q', MblueErrcode.ok.toInt) → ∃ e ∈ q'.queue, e.type = type
  reschedule : ∀ timeout delayedEvent supply q',
    q.rescheduleDelayedEventWithType timeout type delayedEvent supply =
      .ok (q', MblueErrcode.ok.toInt) →
    ∃ e, q'.queue.filter (·.type = type) = [e] ∧ e.period = timeout ∧
      e.callChain.callWakeup = delayedEvent

/-- A pending bit of the type means that the type itself is queued. -/
def Exact (q : EventQueue) (type : Word) : Prop :=
  q.eventBm &&& type ≠ 0 → ∃ e ∈ q.queue, e.type = type

/-- An add that succeeds puts its element at the end. -/
theorem AddOutcome.queue_of_ok {element : EventQueueElement} {supply : Supply} {q' : EventQueue}
    {startRet rc : ℤ} (h : AddOutcome q element supply startRet q' rc)
    (hrc : rc = MblueErrcode.ok.toInt) :
    ∃ e, q'.queue = q.queue ++ [e] ∧ e.type = element.type ∧ e.period = element.period ∧
      e.callChain = element.callChain := by
  cases h with
  | pending => exact absurd hrc (by decide)
  | nomem => exact absurd hrc (by decide)
  | linked hbm hsome harm =>
    obtain ⟨tick, rfl⟩ := (armTick_eq_ok harm).same
    exact ⟨_, rfl, rfl, rfl, rfl⟩

/-- What a wake-up returns is settled by the bitmap. -/
theorem eventQueueWakeup_rc {first second : Behaviour} {q' : EventQueue} {rc : ℤ}
    (h : q.eventQueueWakeup type first second = .ok (q', rc)) :
    rc = if q.eventBm &&& type = 0 then MblueErrcode.errUnknown.toInt
      else MblueErrcode.ok.toInt := by
  unfold eventQueueWakeup at h
  by_cases hbm : q.eventBm &&& type = 0
  · rw [if_pos hbm] at h ⊢
    cases h
    rfl
  · rw [if_neg hbm] at h ⊢
    split at h
    · cases h
      rfl
    · obtain ⟨⟨q₁, ret⟩, -, h⟩ := bind_eq_ok_iff.1 h
      obtain ⟨q₂, -, h⟩ := bind_eq_ok_iff.1 h
      cases h
      rfl

theorem cancelDelayedEvent_of_pending (hbm : q.eventBm &&& type ≠ 0) :
    q.cancelDelayedEvent type = q.eventQueueDelete type := if_pos hbm

/-- A cancellation succeeds exactly when it removes an element of the type. -/
theorem cancelDelayedEvent_rc_iff : (q.cancelDelayedEvent type).2 = MblueErrcode.ok.toInt ↔
    ∃ e ∈ q.queue, e.type = type ∧ e ∉ (q.cancelDelayedEvent type).1.queue := by
  by_cases hbm : q.eventBm &&& type = 0
  · rw [show q.cancelDelayedEvent type = (q, MblueErrcode.errInvalidParameter.toInt) from
      if_neg (not_not.2 hbm)]
    have hrc : MblueErrcode.errInvalidParameter.toInt ≠ MblueErrcode.ok.toInt := by decide
    refine iff_of_false hrc ?_
    rintro ⟨e, he, -, hnot⟩
    exact hnot he
  · rw [cancelDelayedEvent_of_pending hbm, queue_eventQueueDelete, eventQueueDelete, snd_deleteLoop]
    constructor
    · intro hrc
      split at hrc
      · next hex =>
        obtain ⟨e, he, htype⟩ := hex
        exact ⟨e, he, htype, by simp [htype]⟩
      · exact absurd hrc (by decide)
    · rintro ⟨e, he, htype, -⟩
      rw [if_pos ⟨e, he, htype⟩]

/-- The types left after a deletion are the other ones, and the deleted type is pending no more. -/
theorem Sound.eventBm_eventQueueDelete (h : Sound q) (hmem : ∃ e ∈ q.queue, e.type = type) :
    (q.eventQueueDelete type).1.eventBm &&& type = 0 := by
  have hchanges : Changes .all q (q.eventQueueDelete type).1 :=
    changes_eventQueueDelete fun _ _ _ ↦ trivial
  have hafter : Sound (q.eventQueueDelete type).1 := h.changes hchanges
  obtain ⟨e, he, htype⟩ := hmem
  rw [hafter.eventBm_and_eq_zero_iff, queue_eventQueueDelete]
  intro e' he'
  obtain ⟨hin, hother⟩ := List.mem_filter.1 he'
  have hdiff : e' ≠ e := by
    rintro rfl
    simp [htype] at hother
  rw [← htype]
  exact rel_of_pairwise h.disjoint (fun _ _ ↦ DisjointMasks.symm) hin he hdiff

/-- A scheduling that succeeds leaves an element of its type, if the type was not masked. -/
theorem mem_of_schedule {timeout : Word} {f : Option Callback} {supply : Supply} {q' : EventQueue}
    (hexact : q.Exact type)
    (h : q.scheduleDelayedEventWithType timeout type f supply = .ok (q', MblueErrcode.ok.toInt)) :
    ∃ e ∈ q'.queue, e.type = type := by
  unfold scheduleDelayedEventWithType eventQueueGetPendingEvent at h
  by_cases hbm : q.eventBm &&& type = 0
  · rw [if_pos hbm] at h
    obtain ⟨e, hqueue, htype, -⟩ := (eventQueueAdd_eq_ok h).queue_of_ok rfl
    exact ⟨e, hqueue ▸ List.mem_append_right _ (List.mem_singleton_self e), htype⟩
  · rw [if_neg hbm] at h
    cases h
    exact hexact hbm

/-- A rescheduling first makes room for its type, if the type was not masked. -/
theorem rescheduled_room (h : Sound q) (hexact : q.Exact type)
    (hzero : type = 0 → ∀ e ∈ q.queue, e.type ≠ 0) :
    let q₁ := if q.eventBm &&& type ≠ 0 then (q.eventQueueDelete type).1 else q
    q₁.eventBm &&& type = 0 ∧ q₁.queue.filter (·.type = type) = [] := by
  intro q₁
  by_cases hbm : q.eventBm &&& type = 0
  · rw [show q₁ = q from if_neg (not_not.2 hbm)]
    refine ⟨hbm, List.filter_eq_nil_iff.2 fun e he ↦ ?_⟩
    rw [decide_eq_true_eq]
    rintro rfl
    by_cases hne : e.type = 0
    · exact hzero hne e he hne
    · exact h.eventBm_and_ne_zero he hne hbm
  · rw [show q₁ = (q.eventQueueDelete type).1 from if_pos hbm]
    refine ⟨h.eventBm_eventQueueDelete (hexact hbm), ?_⟩
    rw [queue_eventQueueDelete, List.filter_filter]
    refine List.filter_eq_nil_iff.2 fun e _ ↦ ?_
    simp

/-- **The queries of a type are exact on exactly the types that no other pending type overlaps**, the
empty type being asked for only when nothing is queued under it. -/
theorem typeQueries_iff (h : Reachable q) : TypeQueries q type ↔
    (type = 0 → ∀ e ∈ q.queue, e.type ≠ 0) ∧ q.Exact type := by
  have hsound := sound_of_reachable h
  constructor
  · intro hq
    refine ⟨?_, fun hbm ↦ ?_⟩
    · rintro rfl e he htype
      -- The wake-up of the empty type fails, whatever is queued.
      have hidle : q.eventQueueWakeup 0 ⟨[], 0⟩ ⟨[], 0⟩ =
          .ok (q, MblueErrcode.errUnknown.toInt) := if_pos BitVec.and_zero
      exact absurd ((hq.wakeup _ _ _ _ hidle).2 ⟨e, he, htype⟩) (by decide)
    · -- Scheduling a type that is masked does nothing, and succeeds.
      have hidle : q.scheduleDelayedEventWithType 0 type none ⟨none, ⟨true, true⟩⟩ =
          .ok (q, MblueErrcode.ok.toInt) := if_neg hbm
      exact hq.schedule _ _ _ _ hidle
  · rintro ⟨hzero, hexact⟩
    refine ⟨fun first second q' rc hwakeup ↦ ?_, cancelDelayedEvent_rc_iff,
      fun timeout f supply q' ↦ mem_of_schedule hexact, fun timeout f supply q' hres ↦ ?_⟩
    · rw [eventQueueWakeup_rc hwakeup]
      by_cases hbm : q.eventBm &&& type = 0
      · rw [if_pos hbm]
        have hrc : MblueErrcode.errUnknown.toInt ≠ MblueErrcode.ok.toInt := by decide
        refine iff_of_false hrc ?_
        rintro ⟨e, he, rfl⟩
        by_cases hne : e.type = 0
        · exact hzero hne e he hne
        · exact hsound.eventBm_and_ne_zero he hne hbm
      · rw [if_neg hbm]
        exact iff_of_true rfl (hexact hbm)
    · obtain ⟨hbm, hroom⟩ := rescheduled_room hsound hexact hzero
      unfold rescheduleDelayedEventWithType scheduleDelayedEventWithType
        eventQueueGetPendingEvent at hres
      rw [if_pos hbm] at hres
      obtain ⟨e, hqueue, htype, hperiod, hchain⟩ := (eventQueueAdd_eq_ok hres).queue_of_ok rfl
      refine ⟨e, ?_, hperiod, congrArg CallChain.callWakeup hchain⟩
      rw [hqueue, List.filter_append, hroom, List.nil_append, List.filter_eq_self]
      intro e' he'
      rw [List.mem_singleton.1 he']
      exact decide_eq_true htype

/-- An event of type 3 alone: type 3 is asked for exactly, type 1 is not. -/
theorem typeQueries_three : ∃ t, exec step (fun _ op ↦ op.TickNull) initial
      [.act (.schedule 0 3 (some 7) ⟨some 4096, true, true⟩)] = some t ∧
      (t.eventBm, t.queue.map (·.type)) = (3, [3]) ∧
      (TypeQueries t 3 ↔ ((3 : Word) = 0 → ∀ e ∈ t.queue, e.type ≠ 0) ∧ t.Exact 3) :=
  exists_of_exec_eq rfl fun _ h ↦ typeQueries_iff h

/-- With only an event of type 3 queued, a scheduling of type 1 succeeds and queues nothing. -/
theorem not_typeQueries_one : ∃ t, exec step (fun _ op ↦ op.TickNull) initial
      [.act (.schedule 0 3 (some 7) ⟨some 4096, true, true⟩)] = some t ∧
      ¬ TypeQueries t 1 := by
  refine ⟨_, rfl, fun h ↦ ?_⟩
  have hqueued := h.schedule 0 none ⟨none, true, true⟩ _ rfl
  exact absurd hqueued (by decide)

/-! ### A failed add -/

variable {element : EventQueueElement} {supply : Supply} {startRet : ℤ}

/-- `event_queue_add` comes to an end without using a timer or a block it did not get, and unless it
returns `MBLUE_OK` it leaves the list, the bitmap and the timers as they were. -/
def AddAtomic (q : EventQueue) (element : EventQueueElement) (supply : Supply)
    (startRet : ℤ) : Prop :=
  ∃ q' rc, q.eventQueueAdd element supply startRet = .ok (q', rc) ∧
    (rc ≠ MblueErrcode.ok.toInt →
      q'.queue = q.queue ∧ q'.eventBm = q.eventBm ∧ q'.timers = q.timers)

/-- **`event_queue_add` is atomic on failure exactly when** it fails before it links the element, or
it gets the timer it needs and the handler of `CALL_START`, if there is one, succeeds. -/
theorem addAtomic_iff : AddAtomic q element supply startRet ↔
    q.eventBm &&& element.type ≠ 0 ∨ q.mallocElement supply.element = none ∨
      (element.Untimed ∨ q.timers.timerLists ≠ [] ∧
        (supply.platform.create = true → supply.platform.block = true)) ∧
      (element.callChain.callStart.isSome = true → startRet = MblueErrcode.ok.toInt) := by
  by_cases hbm : q.eventBm &&& element.type = 0
  · cases hmalloc : q.mallocElement supply.element with
    | none =>
      refine iff_of_true ⟨q, MblueErrcode.errNomem.toInt, ?_, fun _ ↦ ⟨rfl, rfl, rfl⟩⟩
        (.inr (.inl rfl))
      rw [eventQueueAdd, if_neg (not_not.2 hbm), hmalloc]
    | some addr =>
      constructor
      · rintro ⟨q', rc, h, hatomic⟩
        cases eventQueueAdd_eq_ok h with
        | pending hpending => exact absurd hbm hpending
        | nomem _ hnone =>
          rw [hmalloc] at hnone
          cases hnone
        | linked _ hsome harm =>
          refine .inr (.inr ⟨armTick_isOk_iff.1 ⟨_, _, harm⟩, fun hstart ↦ ?_⟩)
          rw [if_pos hstart] at hatomic
          by_contra hne
          -- the element stays in the queue when `CALL_START` fails
          exact absurd (List.append_right_eq_self.1 (hatomic hne).1) (List.cons_ne_nil _ _)
      · rintro (hpending | hnone | ⟨harmed, hstart⟩)
        · exact absurd hbm hpending
        · cases hnone
        let ele₀ : Queued := { element with serial := q.serials, addr := addr }
        obtain ⟨ts, ele, harm⟩ :=
          (@armTick_isOk_iff q.timers ele₀ supply.platform).2 harmed
        have hadd : q.eventQueueAdd element supply startRet = .ok (q.link ts ele,
            if element.callChain.callStart.isSome then startRet else MblueErrcode.ok.toInt) := by
          rw [eventQueueAdd, if_neg (not_not.2 hbm), hmalloc]
          exact bind_eq_ok_iff.2 ⟨_, harm, rfl⟩
        refine ⟨_, _, hadd, fun hne ↦ absurd ?_ hne⟩
        split
        · next hsome => exact hstart hsome
        · rfl
  · refine iff_of_true ⟨q, MblueErrcode.errUnknown.toInt, if_pos hbm, fun _ ↦ ⟨rfl, rfl, rfl⟩⟩
      (.inl hbm)

/-- The handler of `CALL_START` fails, and the element stays in the queue. -/
theorem not_addAtomic_start : ¬ AddAtomic initial
    (initEventElementWith 1 eventModePendingEvent 0 0 0 none (some 7) none none none)
    ⟨some 4096, true, true⟩ MblueErrcode.errTimeout.toInt := by
  rintro ⟨q', rc, h, hatomic⟩
  cases h
  exact absurd (hatomic (by decide)).1 (by decide)

end EventQueue

end Mblue
