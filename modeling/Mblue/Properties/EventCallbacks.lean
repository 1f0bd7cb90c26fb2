import Mblue.Properties.EventQueue

/-!
# Callbacks that operate on their queue

`event_queue_wakeup` keeps a pointer to the element while callbacks run, and afterwards reads the
element, or frees it, depending on what they return. What a callback does to the element it runs for
therefore has to fit its return value.

An action that cancels or reschedules the type of an element frees the element; every other action
leaves it in the queue (`mem_of_performAll`, `dead_of_performAll`). From this `safeWakeup_iff` says
exactly when a wake-up survives what its callbacks did: a `CALL_WAKEUP` that asks for another callback
must not have freed the element, and callbacks that end the event must not have touched its type at
all, not even to schedule it again, because that is a no-op while the element is queued and the event
is gone afterwards.
-/

namespace Mblue

/-- The type whose elements the action frees. -/
def CallbackAction.removed? : CallbackAction → Option Word
  | .cancel type => some type
  | .reschedule _ type _ _ => some type
  | _ => none

/-- The type the action schedules. -/
def CallbackAction.scheduled? : CallbackAction → Option Word
  | .schedule _ type _ _ => some type
  | .reschedule _ type _ _ => some type
  | _ => none

/-- The type the action is about. -/
def CallbackAction.type? : CallbackAction → Option Word
  | .cancel type => some type
  | .schedule _ type _ _ => some type
  | .reschedule _ type _ _ => some type
  | .expires .. => none

theorem CallbackAction.type?_eq_of_scheduled? {a : CallbackAction} {type : Word}
    (h : a.scheduled? = some type) : a.type? = some type := by
  cases a with
  | schedule => exact h
  | reschedule => exact h
  | cancel => cases h
  | expires => cases h

theorem CallbackAction.type?_eq_of_removed? {a : CallbackAction} {type : Word}
    (h : a.removed? = some type) : a.type? = some type := by
  cases a with
  | cancel => exact h
  | reschedule => exact h
  | schedule => cases h
  | expires => cases h

/-- A member of a list that satisfies `p`, with none after it. -/
theorem exists_last_of_exists {α : Type} {p : α → Prop} {l : List α} (h : ∃ x ∈ l, p x) :
    ∃ as a bs, l = as ++ a :: bs ∧ p a ∧ ∀ b ∈ bs, ¬ p b := by
  induction l with
  | nil => simp at h
  | cons x l ih =>
    by_cases hrest : ∃ y ∈ l, p y
    · obtain ⟨as, a, bs, rfl, ha, hbs⟩ := ih hrest
      exact ⟨x :: as, a, bs, rfl, ha, hbs⟩
    · push Not at hrest
      obtain ⟨y, hy, hpy⟩ := h
      rcases List.mem_cons.1 hy with rfl | hy
      · exact ⟨[], y, l, rfl, hpy, hrest⟩
      · exact absurd hpy (hrest y hy)

namespace EventQueue

variable {q q' q₁ : EventQueue} {ele : Queued} {type : Word} {rc : ℤ} {first second : Behaviour}
  {a : CallbackAction} {as : List CallbackAction}

/-! ### What an action does to the elements -/

/-- A scheduling leaves the queue alone or appends an element of its type. -/
theorem queue_scheduleDelayedEventWithType {timeout : Word} {f : Option Callback} {supply : Supply}
    (h : q.scheduleDelayedEventWithType timeout type f supply = .ok (q', rc)) :
    q'.queue = q.queue ∨ ∃ e, e.type = type ∧ q'.queue = q.queue ++ [e] := by
  unfold scheduleDelayedEventWithType at h
  split at h
  · cases eventQueueAdd_eq_ok h with
    | pending => exact .inl rfl
    | nomem => exact .inl rfl
    | linked hbm hsome harm =>
      obtain ⟨tick, rfl⟩ := (armTick_eq_ok harm).same
      exact .inr ⟨_, rfl, rfl⟩
  · cases h
    exact .inl rfl

theorem queue_timerExpires {id : ℕ} {sent : Bool} (h : q.timerExpires id sent = .ok q') :
    q'.queue = q.queue := by
  unfold timerExpires at h
  split at h
  · cases h
    rfl
  · split at h
    · split at h
      · cases h
        rfl
      · obtain ⟨ele, -, h⟩ := bind_eq_ok_iff.1 h
        cases h
        cases sent <;> rfl
    · cases h
      rfl

/-- The queue after the deletion with which a cancellation and a rescheduling begin. -/
def dropped (q : EventQueue) (type : Word) : EventQueue :=
  if q.eventBm &&& type ≠ 0 then (q.eventQueueDelete type).1 else q

theorem queue_dropped_sublist (q : EventQueue) (type : Word) :
    (q.dropped type).queue.Sublist q.queue := by
  unfold dropped
  split
  · rw [queue_eventQueueDelete]
    exact List.filter_sublist
  · exact List.Sublist.refl _

theorem mem_dropped (hmem : ele ∈ q.queue) (hne : ele.type ≠ type) :
    ele ∈ (q.dropped type).queue := by
  unfold dropped
  split
  · rw [queue_eventQueueDelete]
    exact List.mem_filter.2 ⟨hmem, by simpa using hne⟩
  · exact hmem

theorem cancelDelayedEvent_fst (q : EventQueue) (type : Word) :
    (q.cancelDelayedEvent type).1 = q.dropped type :=
  apply_ite Prod.fst _ _ _

/-- What an action leaves: the elements of other types than the one it removes, and possibly one of
the type it schedules. -/
theorem queue_perform (h : q.perform a = .ok (q', rc)) :
    ∃ kept new, q'.queue = kept ++ new ∧ kept.Sublist q.queue ∧
      (∀ e ∈ q.queue, a.removed? ≠ some e.type → e ∈ kept) ∧
      ∀ e ∈ new, a.scheduled? = some e.type := by
  have hnotRemoved : ∀ {e : Queued} {type : Word}, some type ≠ some e.type → e.type ≠ type :=
    fun hne heq ↦ hne (congrArg some heq.symm)
  cases a with
  | cancel event =>
    have hq' : q' = q.dropped event :=
      (congrArg Prod.fst (Except.ok.inj h)).symm.trans (cancelDelayedEvent_fst q event)
    refine ⟨(q.dropped event).queue, [], ?_, queue_dropped_sublist q event, ?_, by simp⟩
    · rw [hq', List.append_nil]
    · exact fun e he hne ↦ mem_dropped he (hnotRemoved hne)
  | schedule timeout type f supply =>
    rcases queue_scheduleDelayedEventWithType h with hsame | ⟨e, htype, hnew⟩
    · exact ⟨q.queue, [], by rw [hsame, List.append_nil], List.Sublist.refl _, fun e he _ ↦ he,
        by simp⟩
    · refine ⟨q.queue, [e], hnew, List.Sublist.refl _, fun e he _ ↦ he, ?_⟩
      intro e' he'
      rw [List.mem_singleton.1 he', htype]
      rfl
  | reschedule timeout type f supply =>
    have hschedule : (q.dropped type).scheduleDelayedEventWithType timeout type f supply =
        .ok (q', rc) := h
    have hsub := queue_dropped_sublist q type
    rcases queue_scheduleDelayedEventWithType hschedule with hsame | ⟨e, htype, hnew⟩
    · exact ⟨_, [], by rw [hsame, List.append_nil], hsub,
        fun e he hne ↦ mem_dropped he (hnotRemoved hne), by simp⟩
    · refine ⟨_, [e], hnew, hsub, fun e he hne ↦ mem_dropped he (hnotRemoved hne), ?_⟩
      intro e' he'
      rw [List.mem_singleton.1 he', htype]
      rfl
  | expires id sent =>
    obtain ⟨q₁, hexpires, h⟩ := bind_eq_ok_iff.1 h
    cases h
    exact ⟨q.queue, [], by rw [queue_timerExpires hexpires, List.append_nil],
      List.Sublist.refl _, fun e he _ ↦ he, by simp⟩

/-! ### Elements that live and elements that are gone -/

/-- No element with this number will ever be queued again. -/
def Dead (q : EventQueue) (serial : ℕ) : Prop :=
  serial < q.serials ∧ ∀ e ∈ q.queue, e.serial ≠ serial

theorem Dead.follows {serial : ℕ} (h : Dead q serial) (hfollows : Follows q q') :
    Dead q' serial := by
  refine ⟨h.1.trans_le hfollows.1, fun e he ↦ ?_⟩
  rcases hfollows.2 e he with hold | hnew
  · exact h.2 e hold
  · have := h.1
    omega

/-- A pointer to an element that is gone leads nowhere. -/
theorem Dead.deref_ne_ok {serial : ℕ} (h : Dead q serial) {found : Queued} :
    q.deref serial ≠ .ok found := by
  intro hfound
  obtain ⟨hmem, hserial⟩ := deref_eq_ok hfound
  exact h.2 found hmem hserial

/-- An action that does not remove the type of an element leaves the element. -/
theorem mem_of_perform (h : q.perform a = .ok (q', rc)) (hmem : ele ∈ q.queue)
    (hne : a.removed? ≠ some ele.type) : ele ∈ q'.queue := by
  obtain ⟨kept, new, hqueue, -, hkept, -⟩ := queue_perform h
  rw [hqueue]
  exact List.mem_append_left _ (hkept ele hmem hne)

/-- The deletion removes the elements of its type, for ever. -/
theorem dead_dropped (hq : Sound q) (hmem : ele ∈ q.queue) (hne : ele.type ≠ 0) :
    Dead (q.dropped ele.type) ele.serial := by
  have hdelete : q.dropped ele.type = (q.eventQueueDelete ele.type).1 :=
    if_pos (hq.eventBm_and_ne_zero hmem hne)
  have hchanges : Changes .all q (q.eventQueueDelete ele.type).1 :=
    changes_eventQueueDelete fun _ _ _ ↦ trivial
  rw [hdelete]
  refine ⟨(hq.serial_lt ele hmem).trans_le (Follows.of_changes hchanges).1, fun e he hserial ↦ ?_⟩
  rw [queue_eventQueueDelete] at he
  obtain ⟨hin, hother⟩ := List.mem_filter.1 he
  rw [hq.eq_of_serial_eq hin hmem hserial] at hother
  simp at hother

/-- An action that removes the type of an element frees it. -/
theorem dead_of_perform (hq : Sound q) (h : q.perform a = .ok (q', rc)) (hmem : ele ∈ q.queue)
    (hne : ele.type ≠ 0) (hremoved : a.removed? = some ele.type) : Dead q' ele.serial := by
  cases a with
  | cancel event =>
    cases hremoved
    rw [show q' = q.dropped ele.type from
      (congrArg Prod.fst (Except.ok.inj h)).symm.trans (cancelDelayedEvent_fst q _)]
    exact dead_dropped hq hmem hne
  | reschedule timeout type f supply =>
    cases hremoved
    have hschedule : Changes .all (q.dropped ele.type) q' :=
      changes_scheduleDelayedEventWithType h trivial
    exact (dead_dropped hq hmem hne).follows (.of_changes hschedule)
  | schedule => cases hremoved
  | expires => cases hremoved

theorem Sound.perform (hq : Sound q) (h : q.perform a = .ok (q', rc)) : Sound q' := by
  have hrun : q.performAll [a] = .ok q' := performAll_cons_eq_ok.2 ⟨q', rc, h, rfl⟩
  exact hq.performAll hrun

theorem mem_of_performAll (h : q.performAll as = .ok q') (hmem : ele ∈ q.queue)
    (hne : ∀ a ∈ as, a.removed? ≠ some ele.type) : ele ∈ q'.queue := by
  induction as generalizing q with
  | nil =>
    cases h
    exact hmem
  | cons a as ih =>
    obtain ⟨q₁, rc, ha, has⟩ := performAll_cons_eq_ok.1 h
    exact ih has (mem_of_perform ha hmem (hne a List.mem_cons_self))
      fun b hb ↦ hne b (List.mem_cons_of_mem _ hb)

theorem dead_of_performAll (hq : Sound q) (h : q.performAll as = .ok q') (hmem : ele ∈ q.queue)
    (hne : ele.type ≠ 0) (hremoved : ∃ a ∈ as, a.removed? = some ele.type) :
    Dead q' ele.serial := by
  induction as generalizing q with
  | nil => simp at hremoved
  | cons a as ih =>
    obtain ⟨q₁, rc, ha, has⟩ := performAll_cons_eq_ok.1 h
    by_cases hhead : a.removed? = some ele.type
    · exact (dead_of_perform hq ha hmem hne hhead).follows (follows_performAll has)
    · obtain ⟨b, hb, hbremoved⟩ := hremoved
      have htail : ∃ a ∈ as, a.removed? = some ele.type := by
        rcases List.mem_cons.1 hb with rfl | hb
        · exact absurd hbremoved hhead
        · exact ⟨b, hb, hbremoved⟩
      exact ih (hq.perform ha) has (mem_of_perform ha hmem hhead) htail

/-- A pointer to an element can still be followed after some actions exactly when none of them
removed its type. -/
theorem deref_performAll_iff (hq : Sound q) (h : q.performAll as = .ok q') (hmem : ele ∈ q.queue)
    (hne : ele.type ≠ 0) :
    (∃ found, q'.deref ele.serial = .ok found) ↔ ∀ a ∈ as, a.removed? ≠ some ele.type := by
  constructor
  · rintro ⟨found, hfound⟩ a ha hremoved
    exact (dead_of_performAll hq h hmem hne ⟨a, ha, hremoved⟩).deref_ne_ok hfound
  · intro hkept
    exact ⟨ele, (hq.performAll h).deref_eq_ok (mem_of_performAll h hmem hkept)⟩

/-! ### Types that are scheduled -/

/-- An element of this type is queued. -/
def Queues (q : EventQueue) (type : Word) : Prop := ∃ e ∈ q.queue, e.type = type

/-- An action about another type does not change whether a type is queued. -/
theorem queues_perform_iff (h : q.perform a = .ok (q', rc)) (hother : a.type? ≠ some type) :
    q'.Queues type ↔ q.Queues type := by
  constructor
  · rintro ⟨e, he, rfl⟩
    obtain ⟨kept, new, hqueue, hsub, -, hnew⟩ := queue_perform h
    rw [hqueue] at he
    rcases List.mem_append.1 he with hkept | hadded
    · exact ⟨e, hsub.subset hkept, rfl⟩
    · exact absurd (CallbackAction.type?_eq_of_scheduled? (hnew e hadded)) hother
  · rintro ⟨e, he, rfl⟩
    exact ⟨e, mem_of_perform h he
      fun hremoved ↦ hother (CallbackAction.type?_eq_of_removed? hremoved), rfl⟩

theorem queues_performAll_iff (h : q.performAll as = .ok q')
    (hother : ∀ a ∈ as, a.type? ≠ some type) : q'.Queues type ↔ q.Queues type := by
  induction as generalizing q with
  | nil =>
    cases h
    rfl
  | cons a as ih =>
    obtain ⟨q₁, rc, ha, has⟩ := performAll_cons_eq_ok.1 h
    exact (ih has fun b hb ↦ hother b (List.mem_cons_of_mem _ hb)).trans
      (queues_perform_iff ha (hother a List.mem_cons_self))

/-- A deletion that finds nothing changes nothing. -/
theorem eventQueueDelete_of_not_queues (h : ¬ q.Queues type) : (q.eventQueueDelete type).1 = q := by
  have hloop : ∀ (l : List Queued) (ret : ℤ), (∀ e ∈ l, e.type ≠ type) →
      (deleteLoop type l q ret).1 = q := by
    intro l ret hl
    induction l with
    | nil => rfl
    | cons e l ih =>
      rw [deleteLoop, if_pos (hl e List.mem_cons_self)]
      exact ih fun e' he' ↦ hl e' (List.mem_cons_of_mem _ he')
  exact hloop q.queue _ fun e he htype ↦ h ⟨e, he, htype⟩

theorem exact_dropped (hq : Sound q) (hexact : q.Exact type) : (q.dropped type).Exact type := by
  unfold dropped
  split
  · next hbm => exact fun hpending ↦ absurd (hq.eventBm_eventQueueDelete (hexact hbm)) hpending
  · exact hexact

/-- A scheduling of a type that another one overlaps changes nothing, and succeeds all the same. -/
theorem perform_of_not_exact (hnot : ¬ q.Exact type) (hscheduled : a.scheduled? = some type) :
    q.perform a = .ok (q, MblueErrcode.ok.toInt) ∧ ¬ q.Queues type := by
  unfold Exact at hnot
  push Not at hnot
  obtain ⟨hbm, hnone⟩ := hnot
  have hqueues : ¬ q.Queues type := by
    rintro ⟨e, he, htype⟩
    exact hnone e he htype
  refine ⟨?_, hqueues⟩
  cases a with
  | schedule timeout type' f supply =>
    cases hscheduled
    exact if_neg hbm
  | reschedule timeout type' f supply =>
    cases hscheduled
    have hdropped : q.dropped type = q := by
      unfold dropped
      rw [if_pos hbm]
      exact eventQueueDelete_of_not_queues hqueues
    have hperform : q.perform (.reschedule timeout type f supply) =
        (q.dropped type).scheduleDelayedEventWithType timeout type f supply := rfl
    rw [hperform, hdropped]
    exact if_neg hbm
  | cancel => cases hscheduled
  | expires => cases hscheduled

/-- **A scheduling that succeeds queues its type exactly when no other pending type overlaps it.** -/
theorem queues_of_scheduled_iff (hq : Sound q) (h : q.perform a = .ok (q', MblueErrcode.ok.toInt))
    (hscheduled : a.scheduled? = some type) : q'.Queues type ↔ q.Exact type := by
  constructor
  · intro hqueued
    by_contra hnot
    obtain ⟨hidle, hqueues⟩ := perform_of_not_exact hnot hscheduled
    rw [h, Except.ok.injEq] at hidle
    obtain rfl : q' = q := congrArg Prod.fst hidle
    exact hqueues hqueued
  · intro hexact
    cases a with
    | schedule timeout type' f supply =>
      cases hscheduled
      exact mem_of_schedule hexact h
    | reschedule timeout type' f supply =>
      cases hscheduled
      exact mem_of_schedule (exact_dropped hq hexact) h
    | cancel => cases hscheduled
    | expires => cases hscheduled

/-! ### The wake-up -/

/-- A wake-up of a queued element survives its callbacks: no element is read or freed after it was
freed, the bitmap is that of the queue, and what the callbacks scheduled last, and did not cancel, is
queued. -/
def SafeWakeup (q : EventQueue) (ele : Queued) (first second : Behaviour) : Prop :=
  ∃ q', q.eventQueueWakeup ele.type first second = .ok (q', MblueErrcode.ok.toInt) ∧
    q'.eventBm = orAll (q'.queue.map (·.type)) ∧
    ∀ as a bs qa qb type, ele.callChain.handlerActions first second = as ++ a :: bs →
      q.performAll as = .ok qa → qa.perform a = .ok (qb, MblueErrcode.ok.toInt) →
      a.scheduled? = some type → (∀ b ∈ bs, b.type? ≠ some type) → q'.Queues type

/-- The wake-up of a queued element runs its callbacks. -/
theorem eventQueueWakeup_eq (hq : Sound q) (hmem : ele ∈ q.queue) (hne : ele.type ≠ 0) :
    q.eventQueueWakeup ele.type first second = (do
      let (q, ret) ← q.callHandlers ele first second
      let q ← q.endWakeup ele.serial ret
      .ok (q, MblueErrcode.ok.toInt)) := by
  rw [eventQueueWakeup, if_neg (hq.eventBm_and_ne_zero hmem hne), hq.find?_type hmem hne]

/-- The actions of the first callback come first. -/
theorem performAll_first (hrun : q.performAll (ele.callChain.handlerActions first second) = .ok q₁)
    (hwakeup : ele.callChain.callWakeup.isSome = true) :
    ∃ q₂, q.performAll first.actions = .ok q₂ := by
  unfold CallChain.handlerActions at hrun
  split at hrun
  · obtain ⟨q₂, hfirst, -⟩ := performAll_append_eq_ok.1 hrun
    exact ⟨q₂, hfirst⟩
  · rw [if_pos (by simp [CallChain.hasHandler, hwakeup])] at hrun
    exact ⟨q₁, hrun⟩

/-- A `CALL_WAKEUP` that asks for another callback has the element read. -/
theorem deref_of_callHandlers {r : EventQueue × ℤ} (h : q.callHandlers ele first second = .ok r)
    (hwakeup : ele.callChain.callWakeup.isSome = true) (hpos : 0 < first.ret)
    (hfirst : q.performAll first.actions = .ok q₁) : ∃ found, q₁.deref ele.serial = .ok found := by
  unfold callHandlers at h
  rw [if_pos hwakeup] at h
  obtain ⟨q₂, hsame, h⟩ := bind_eq_ok_iff.1 h
  rw [if_pos hpos] at h
  obtain ⟨found, hfound, -⟩ := bind_eq_ok_iff.1 h
  obtain rfl := Except.ok.inj (hfirst.symm.trans hsame)
  exact ⟨found, hfound⟩

theorem callHandlers_of_run (hret : first.ret ≤ 3)
    (hrun : q.performAll (ele.callChain.handlerActions first second) = .ok q₁)
    (halive : ele.callChain.callWakeup.isSome = true → 0 < first.ret →
      ∀ q₂, q.performAll first.actions = .ok q₂ → q₂.deref ele.serial = .ok ele) :
    q.callHandlers ele first second = .ok (q₁, ele.callChain.handlerRet first second) := by
  unfold callHandlers
  by_cases hwakeup : ele.callChain.callWakeup.isSome = true
  · have hhandler : ele.callChain.hasHandler = true := by simp [CallChain.hasHandler, hwakeup]
    obtain ⟨q₂, hfirst⟩ := performAll_first hrun hwakeup
    rw [if_pos hwakeup]
    refine bind_eq_ok_iff.2 ⟨q₂, hfirst, ?_⟩
    -- Without a second callback the state is the one the first left.
    have hsingle : ele.callChain.chains first.ret = false →
        q₂ = q₁ ∧ ele.callChain.handlerRet first second = first.ret := by
      intro hchains
      obtain ⟨hactions, hrc⟩ := CallChain.handler_of_single hchains hhandler
      rw [hactions, hfirst] at hrun
      exact ⟨Except.ok.inj hrun, hrc⟩
    by_cases hpos : 0 < first.ret
    · obtain ⟨next, hnext⟩ : ∃ next, ele.callChain.entry first.ret = .ok next :=
        CallChain.entry_of_le hpos hret
      rw [if_pos hpos]
      refine bind_eq_ok_iff.2 ⟨ele, halive hwakeup hpos q₂ hfirst, ?_⟩
      refine bind_eq_ok_iff.2 ⟨next, hnext, ?_⟩
      cases next with
      | none =>
        obtain ⟨rfl, hrc⟩ := hsingle (CallChain.chains_of_entry_none hnext)
        rw [hrc]
        rfl
      | some callback =>
        obtain ⟨hactions, hrc⟩ :=
          CallChain.handler_of_chains (CallChain.chains_of_entry hwakeup hpos hnext)
        rw [hactions] at hrun
        obtain ⟨q₃, hsame, hsecond⟩ := performAll_append_eq_ok.1 hrun
        obtain rfl := Except.ok.inj (hfirst.symm.trans hsame)
        rw [hrc]
        exact bind_eq_ok_iff.2 ⟨q₁, hsecond, rfl⟩
    · rw [if_neg hpos]
      obtain ⟨rfl, hrc⟩ := hsingle (CallChain.chains_of_not_pos hpos)
      rw [hrc]
  · rw [if_neg hwakeup]
    by_cases hother : ele.callChain.callFinish.isSome = true ∨ ele.callChain.callCancel.isSome = true
    · have hhandler : ele.callChain.hasHandler = true := by
        simp [CallChain.hasHandler, hwakeup, hother]
      obtain ⟨hactions, hrc⟩ :=
        CallChain.handler_of_single (CallChain.chains_of_no_wakeup hwakeup) hhandler
      rw [hactions] at hrun
      rw [if_pos hother, hrc]
      exact bind_eq_ok_iff.2 ⟨q₁, hrun, rfl⟩
    · have hhandler : ele.callChain.hasHandler = false := by
        simpa [CallChain.hasHandler, hwakeup] using hother
      obtain ⟨hactions, hrc⟩ := CallChain.handler_of_none hhandler
      rw [hactions] at hrun
      rw [if_neg hother, hrc]
      have hsame : q = q₁ := Except.ok.inj hrun
      rw [hsame]

/-- **The callbacks of a wake-up come to an end exactly when** a `CALL_WAKEUP` that asks for another
one has left the element alone. -/
theorem callHandlers_isOk_iff (hq : Sound q) (hmem : ele ∈ q.queue) (hne : ele.type ≠ 0)
    (hret : first.ret ≤ 3)
    (hrun : q.performAll (ele.callChain.handlerActions first second) = .ok q₁) :
    q.callHandlers ele first second = .ok (q₁, ele.callChain.handlerRet first second) ↔
      (ele.callChain.callWakeup.isSome = true → 0 < first.ret →
        ∀ a ∈ first.actions, a.removed? ≠ some ele.type) := by
  constructor
  · intro h hwakeup hpos
    obtain ⟨q₂, hfirst⟩ := performAll_first hrun hwakeup
    exact (deref_performAll_iff hq hfirst hmem hne).1
      (deref_of_callHandlers h hwakeup hpos hfirst)
  · intro hkept
    refine callHandlers_of_run hret hrun fun hwakeup hpos q₂ hfirst ↦ ?_
    exact (hq.performAll hfirst).deref_eq_ok
      (mem_of_performAll hfirst hmem (hkept hwakeup hpos))

/-- What a wake-up leaves, if it comes to an end. -/
theorem endWakeup_eq_ok {ret : ℤ} (hq : Sound q) (hmem : ele ∈ q.queue)
    (hrun : q.performAll as = .ok q₁) (h : q₁.endWakeup ele.serial ret = .ok q') :
    (ret = MblueErrcode.elementExit.toInt ∧ q₁.deref ele.serial = .ok ele ∧ q' = q₁.remove ele) ∨
      (ret ≠ MblueErrcode.elementExit.toInt ∧ q' = q₁) := by
  unfold endWakeup at h
  split at h
  · next hexit =>
    obtain ⟨found, hfound, hend⟩ := bind_eq_ok_iff.1 h
    obtain rfl := (follows_performAll hrun).deref_eq hq.toPending hmem hfound
    exact .inl ⟨hexit, hfound, (Except.ok.inj hend).symm⟩
  · next hexit => exact .inr ⟨hexit, (Except.ok.inj h).symm⟩

/-- The removal of the element at the end of a wake-up keeps the other types. -/
theorem queues_remove (hq : Pending q) (hqueues : q.Queues type) (hother : type ≠ ele.type) :
    (q.remove ele).Queues type := by
  obtain ⟨e, he, htype⟩ := hqueues
  refine ⟨e, hq.mem_erase_iff.2 ⟨?_, he⟩, htype⟩
  rintro rfl
  exact hother htype.symm

/-- ... and its own type is gone. -/
theorem not_queues_remove (hq : Pending q) (hmem : ele ∈ q.queue) (hne : ele.type ≠ 0) :
    ¬ (q.remove ele).Queues ele.type := by
  rintro ⟨e, he, htype⟩
  obtain ⟨hdiff, hin⟩ := hq.mem_erase_iff.1 he
  exact hdiff (hq.eq_of_type_eq hmem hin htype.symm hne).symm

/-- What an action about a type does, if it does not remove it. -/
theorem scheduled?_eq {a : CallbackAction}
    (htype : a.type? = some type) (hkept : a.removed? ≠ some type) :
    ∃ timeout f supply, a = .schedule timeout type f supply := by
  cases a with
  | schedule timeout type' f supply =>
    cases htype
    exact ⟨timeout, f, supply, rfl⟩
  | cancel => exact absurd htype hkept
  | reschedule => exact absurd htype hkept
  | expires => cases htype

/-- Callbacks that touch the type of their element without removing it end with a scheduling of it
that does nothing. -/
theorem exists_idle_schedule (hq : Sound q) (hmem : ele ∈ q.queue) (hne : ele.type ≠ 0)
    (hrun : q.performAll as = .ok q₁) (hkept : ∀ a ∈ as, a.removed? ≠ some ele.type)
    (htouched : ∃ a ∈ as, a.type? = some ele.type) :
    ∃ before a after qa, as = before ++ a :: after ∧ q.performAll before = .ok qa ∧
      qa.perform a = .ok (qa, MblueErrcode.ok.toInt) ∧ a.scheduled? = some ele.type ∧
      ∀ b ∈ after, b.type? ≠ some ele.type := by
  obtain ⟨before, a, after, rfl, htype, hafter⟩ := exists_last_of_exists htouched
  obtain ⟨qa, hbefore, -⟩ := performAll_append_eq_ok.1 hrun
  have hmid : a ∈ before ++ a :: after := List.mem_append_right _ List.mem_cons_self
  obtain ⟨timeout, f, supply, rfl⟩ := scheduled?_eq htype (hkept a hmid)
  have hin : ele ∈ qa.queue :=
    mem_of_performAll hbefore hmem fun b hb ↦ hkept b (List.mem_append_left _ hb)
  have hbm : qa.eventBm &&& ele.type ≠ 0 := (hq.performAll hbefore).eventBm_and_ne_zero hin hne
  exact ⟨before, _, after, qa, rfl, hbefore, if_neg hbm, rfl, hafter⟩

/-- What is left to do after one of several actions. -/
theorem performAll_after {bs : List CallbackAction} {qa qb : EventQueue}
    (hrun : q.performAll (as ++ a :: bs) = .ok q₁) (has : q.performAll as = .ok qa)
    (ha : qa.perform a = .ok (qb, rc)) : qb.performAll bs = .ok q₁ := by
  obtain ⟨qa', hsame, hrest⟩ := performAll_append_eq_ok.1 hrun
  obtain rfl := Except.ok.inj (has.symm.trans hsame)
  obtain ⟨qb', rc', ha', hbs⟩ := performAll_cons_eq_ok.1 hrest
  obtain ⟨rfl, -⟩ := Prod.mk.inj (Except.ok.inj (ha.symm.trans ha'))
  exact hbs

/-- The end of a wake-up whose element lives as long as it is needed. -/
theorem endWakeup_of_alive {ret : ℤ} (hq : Pending q)
    (halive : ret = MblueErrcode.elementExit.toInt → ele ∈ q.queue) :
    q.endWakeup ele.serial ret =
      .ok (if ret = MblueErrcode.elementExit.toInt then q.remove ele else q) := by
  unfold endWakeup
  by_cases hexit : ret = MblueErrcode.elementExit.toInt
  · rw [if_pos hexit, if_pos hexit, hq.deref_eq_ok (halive hexit)]
    rfl
  · rw [if_neg hexit, if_neg hexit]

/-- What the callbacks of a wake-up do fits what they return. -/
structure Fits (q : EventQueue) (ele : Queued) (first second : Behaviour) : Prop where
  /-- A `CALL_WAKEUP` that asks for another callback has not removed the type of its element. -/
  kept : ele.callChain.callWakeup.isSome = true → 0 < first.ret →
    ∀ a ∈ first.actions, a.removed? ≠ some ele.type
  /-- Callbacks that end the event have not touched its type. -/
  untouched : ele.callChain.handlerRet first second = MblueErrcode.elementExit.toInt →
    ∀ a ∈ ele.callChain.handlerActions first second, a.type? ≠ some ele.type
  /-- What they scheduled last of each type was not overlapped by another pending type. -/
  exact : ∀ as a bs qa type, ele.callChain.handlerActions first second = as ++ a :: bs →
    q.performAll as = .ok qa → a.scheduled? = some type →
    (∀ b ∈ bs, b.type? ≠ some type) → qa.Exact type

/-- **A wake-up survives its callbacks exactly when** what they do fits what they return. -/
theorem safeWakeup_iff (h : Reachable q) (hmem : ele ∈ q.queue) (hne : ele.type ≠ 0)
    (hret : first.ret ≤ 3)
    (hrun : q.performAll (ele.callChain.handlerActions first second) = .ok q₁) :
    SafeWakeup q ele first second ↔ Fits q ele first second := by
  have hq := sound_of_reachable h
  have hq₁ := hq.performAll hrun
  constructor
  · rintro ⟨q', hwakeup, -, hscheduled⟩
    rw [eventQueueWakeup_eq hq hmem hne] at hwakeup
    obtain ⟨⟨q₂, ret⟩, hcall, hwakeup⟩ := bind_eq_ok_iff.1 hwakeup
    obtain ⟨q₃, hend, hwakeup⟩ := bind_eq_ok_iff.1 hwakeup
    cases hwakeup
    obtain ⟨hsame, rfl⟩ := callHandlers_eq_ok hq.toPending hmem hcall
    obtain rfl := Except.ok.inj (hrun.symm.trans hsame)
    have hended := endWakeup_eq_ok hq hmem hrun hend
    refine ⟨(callHandlers_isOk_iff hq hmem hne hret hrun).1 hcall, fun hexit a ha htype ↦ ?_, ?_⟩
    · obtain ⟨-, hderef, rfl⟩ | ⟨hno, -⟩ := hended
      · -- what a callback scheduled under this type goes with the element
        have hkept := (deref_performAll_iff hq hrun hmem hne).1 ⟨ele, hderef⟩
        obtain ⟨before, b, after, qa, hsplit, hbefore, hidle, hb, hafter⟩ :=
          exists_idle_schedule hq hmem hne hrun hkept ⟨a, ha, htype⟩
        exact not_queues_remove hq₁.toPending (deref_eq_ok hderef).1 hne
          (hscheduled _ _ _ _ _ _ hsplit hbefore hidle hb hafter)
      · exact hno hexit
    · intro as a bs qa type hsplit has ha hbs
      -- an inexact schedule leaves its type idle, and so does what comes after it
      by_contra hnot
      obtain ⟨hidle, hqueues⟩ := perform_of_not_exact hnot ha
      have hfinal : q₁.Queues type := by
        obtain ⟨e, he, htype⟩ := hscheduled _ _ _ _ _ _ hsplit has hidle ha hbs
        obtain ⟨-, -, rfl⟩ | ⟨-, rfl⟩ := hended
        · exact ⟨e, List.mem_of_mem_erase he, htype⟩
        · exact ⟨e, he, htype⟩
      rw [hsplit] at hrun
      exact hqueues ((queues_performAll_iff (performAll_after hrun has hidle) hbs).1 hfinal)
  · rintro ⟨hkept, huntouched, hexact⟩
    have hcall := (callHandlers_isOk_iff hq hmem hne hret hrun).2 hkept
    -- an element to be removed has not been removed by a callback
    have halive : ele.callChain.handlerRet first second = MblueErrcode.elementExit.toInt →
        ele ∈ q₁.queue := fun hexit ↦ mem_of_performAll hrun hmem fun a ha hremoved ↦
      huntouched hexit a ha (CallbackAction.type?_eq_of_removed? hremoved)
    have hend := endWakeup_of_alive hq₁.toPending halive
    have hwakeup : q.eventQueueWakeup ele.type first second =
        .ok (if ele.callChain.handlerRet first second = MblueErrcode.elementExit.toInt then
          q₁.remove ele else q₁, MblueErrcode.ok.toInt) := by
      rw [eventQueueWakeup_eq hq hmem hne]
      exact bind_eq_ok_iff.2 ⟨_, hcall, bind_eq_ok_iff.2 ⟨_, hend, rfl⟩⟩
    refine ⟨_, hwakeup, ?_, ?_⟩
    · split
      · next hexit => exact (hq₁.toPending.remove (halive hexit)).eventBm
      · exact hq₁.eventBm
    · intro as a bs qa qb type hsplit has ha hscheduled hbs
      have hexact' := hexact _ _ _ _ _ hsplit has hscheduled hbs
      have hafter := performAll_after (hsplit ▸ hrun) has ha
      have hqueues : q₁.Queues type := (queues_performAll_iff hafter hbs).2
        ((queues_of_scheduled_iff (hq.performAll has) ha hscheduled).2 hexact')
      split
      · next hexit =>
        refine queues_remove hq₁.toPending hqueues ?_
        rintro rfl
        have hmid : a ∈ ele.callChain.handlerActions first second :=
          hsplit ▸ List.mem_append_right _ List.mem_cons_self
        exact huntouched hexit a hmid (CallbackAction.type?_eq_of_scheduled? hscheduled)
      · exact hqueues

/-- An event whose callback schedules it anew, and goes on. -/
theorem safeWakeup_rescheduled : ∃ t ele q₁, exec step (fun _ op ↦ op.TickNull) initial
      [.act (.schedule 0 1 (some 7) ⟨some 4096, true, true⟩)] = some t ∧
      t.queue = [ele] ∧
      t.performAll [.reschedule 0 1 (some 8) ⟨some 8192, true, true⟩] = .ok q₁ ∧
      (SafeWakeup t ele
          ⟨[.reschedule 0 1 (some 8) ⟨some 8192, true, true⟩], 0⟩ ⟨[], 0⟩ ↔
        Fits t ele
          ⟨[.reschedule 0 1 (some 8) ⟨some 8192, true, true⟩], 0⟩ ⟨[], 0⟩) := by
  have hexec : exec step (fun _ op ↦ op.TickNull) initial
      [.act (.schedule 0 1 (some 7) ⟨some 4096, true, true⟩)] = some _ := rfl
  exact ⟨_, _, _, hexec, rfl, rfl,
    safeWakeup_iff (run_exec hexec) List.mem_cons_self (by decide) (by decide) rfl⟩

/-- The same callback, when it ends the event: the element it ran for is read after it was freed. -/
theorem not_safeWakeup_exit : ∃ t ele q₁, exec step (fun _ op ↦ op.TickNull) initial
      [.act (.schedule 0 1 (some 7) ⟨some 4096, true, true⟩)] = some t ∧
      t.queue = [ele] ∧
      t.performAll [.reschedule 0 1 (some 8) ⟨some 8192, true, true⟩] = .ok q₁ ∧
      ¬ SafeWakeup t ele
        ⟨[.reschedule 0 1 (some 8) ⟨some 8192, true, true⟩],
          MblueErrcode.elementExit.toInt⟩ ⟨[], 0⟩ := by
  refine ⟨_, _, _, rfl, rfl, rfl, ?_⟩
  rintro ⟨q', hwakeup, -⟩
  have hfault : ∀ {r : EventQueue × ℤ}, Except.error Fault.freedElement ≠ .ok r := by
    intro r h
    cases h
  exact hfault hwakeup

end EventQueue

end Mblue
