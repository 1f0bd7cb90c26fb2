import Mblue.Events.Invariant

/-!
# What an operation changes

A wake-up runs callbacks, and these may operate on the queue themselves. `OpAllowed` says of an
operation, in terms of the state it starts from and of what its callbacks do, that whatever it
removes may be removed at that point, and `changes_of_apply` that the operation then is a sequence
of changes within this permit. So what every permitted change keeps holds in every state of every
permitted run (`invariant_of_run`), and the invariant of the queue in every reachable state
(`sound_of_reachable`).
-/

namespace Mblue

/-! ### The callbacks of a wake-up taken together -/

namespace CallChain

/-- Some callback of a wake-up exists. -/
def hasHandler (chain : CallChain) : Bool :=
  chain.callWakeup.isSome || chain.callFinish.isSome || chain.callCancel.isSome

/-- `CALL_WAKEUP` returned `ret` and so asks for another callback, which exists. -/
def chains (chain : CallChain) (ret : ℤ) : Bool :=
  chain.callWakeup.isSome && decide (0 < ret) &&
    match chain.entry ret with
    | .ok (some _) => true
    | _ => false

/-- Everything that is done while the callbacks of a wake-up run. -/
def handlerActions (chain : CallChain) (first second : Behaviour) : List CallbackAction :=
  if chain.chains first.ret then first.actions ++ second.actions
  else if chain.hasHandler then first.actions
  else []

/-- What the last callback of a wake-up returns. -/
def handlerRet (chain : CallChain) (first second : Behaviour) : ℤ :=
  if chain.chains first.ret then second.ret
  else if chain.hasHandler then first.ret
  else MblueErrcode.elementExit.toInt

variable {chain : CallChain} {first second : Behaviour}

theorem chains_of_entry {ret : ℤ} {callback : Callback} (hwakeup : chain.callWakeup.isSome = true)
    (hpos : 0 < ret) (hentry : chain.entry ret = .ok (some callback)) :
    chain.chains ret = true := by
  simp [chains, hwakeup, hpos, hentry]

theorem chains_of_entry_none {ret : ℤ} (hentry : chain.entry ret = .ok none) :
    chain.chains ret = false := by
  simp [chains, hentry]

theorem chains_of_not_pos {ret : ℤ} (hpos : ¬ 0 < ret) : chain.chains ret = false := by
  simp [chains, hpos]

theorem chains_of_no_wakeup {ret : ℤ} (hwakeup : ¬ chain.callWakeup.isSome = true) :
    chain.chains ret = false := by
  simp [chains, hwakeup]

/-- `call_chain` has an entry for whatever a callback may ask for. -/
theorem entry_of_le {ret : ℤ} (hpos : 0 < ret) (hle : ret ≤ 3) :
    ∃ next, chain.entry ret = .ok next := by
  obtain rfl | rfl | rfl : ret = 1 ∨ ret = 2 ∨ ret = 3 := by omega
  · exact ⟨_, rfl⟩
  · exact ⟨_, rfl⟩
  · exact ⟨_, rfl⟩

/-- Two callbacks run. -/
theorem handler_of_chains (h : chain.chains first.ret = true) :
    chain.handlerActions first second = first.actions ++ second.actions ∧
      chain.handlerRet first second = second.ret :=
  ⟨if_pos h, if_pos h⟩

/-- One callback runs. -/
theorem handler_of_single (h : chain.chains first.ret = false) (hhandler : chain.hasHandler = true) :
    chain.handlerActions first second = first.actions ∧
      chain.handlerRet first second = first.ret := by
  unfold handlerActions handlerRet
  rw [h]
  exact ⟨if_pos hhandler, if_pos hhandler⟩

/-- No callback runs. -/
theorem handler_of_none (hhandler : chain.hasHandler = false) :
    chain.handlerActions first second = [] ∧
      chain.handlerRet first second = MblueErrcode.elementExit.toInt := by
  have hchains : chain.chains first.ret = false := by
    refine chains_of_no_wakeup fun hwakeup ↦ ?_
    simp [hasHandler, hwakeup] at hhandler
  unfold handlerActions handlerRet
  rw [hchains, hhandler]
  exact ⟨rfl, rfl⟩

end CallChain

namespace EventQueue

/-! ### The condition on an operation -/

section condition

variable (allowed : Permit) (q : EventQueue)

/-- Whatever has the type may be removed now. -/
def TypeAllowed (type : Word) : Prop :=
  ∀ e ∈ q.queue, e.type = type → allowed.removal q.wakeups e

/-- Whatever the action removes may be removed now, and the platform may answer as it does. -/
def ActionAllowed : CallbackAction → Prop
  | .cancel type => q.eventBm &&& type ≠ 0 → q.TypeAllowed allowed type
  | .reschedule _ type _ supply =>
    (q.eventBm &&& type ≠ 0 → q.TypeAllowed allowed type) ∧ allowed.platform supply.platform
  | .schedule _ _ _ supply => allowed.platform supply.platform
  | .expires .. => True

/-- Every action of a callback is allowed when its turn comes. -/
def ActionsAllowed (q : EventQueue) : List CallbackAction → Prop
  | [] => True
  | a :: as => q.ActionAllowed allowed a ∧ ∀ r ∈ (q.perform a).toOption, ActionsAllowed r.1 as

/-- What the callbacks of a wake-up remove is allowed, and so is the removal of the element if this
is what the last of them asks for. -/
def HandlersAllowed (ele : Queued) (first second : Behaviour) : Prop :=
  q.ActionsAllowed allowed (ele.callChain.handlerActions first second) ∧
    (ele.callChain.handlerRet first second = MblueErrcode.elementExit.toInt →
      ∀ q₁ ∈ (q.performAll (ele.callChain.handlerActions first second)).toOption,
        allowed.removal q₁.wakeups ele)

/-- The same for a wake-up of a type. -/
def WakeupAllowed (type : Word) (first second : Behaviour) : Prop :=
  q.eventBm &&& type ≠ 0 →
    ∀ ele ∈ q.queue.find? (·.type == type), q.HandlersAllowed allowed ele first second

/-- The same for the delivery of a message with this payload. -/
def TimerWakeupAllowed (data : Word) (first second : Behaviour) : Prop :=
  ∀ ele ∈ q.queue.find? (·.addr == getPointer data),
    q.WakeupAllowed allowed ele.type first second

/-- The same for the delivery of the oldest message. -/
def DeliverAllowed (first second : Behaviour) : Prop :=
  ∀ w ∈ q.wakeups.head?,
    TimerWakeupAllowed allowed { q with wakeups := q.wakeups.tail } w.param first second

/-- The same for every operation. -/
def OpAllowed : EventOp → Prop
  | .add _ supply _ => allowed.platform supply.platform
  | .addPendingEvent _ _ _ _ _ _ _ _ supply _ => allowed.platform supply.platform
  | .addSimplePendingEvent _ _ _ supply => allowed.platform supply.platform
  | .scheduleEvent _ _ _ _ supply => allowed.platform supply.platform
  | .scheduleDefaultEvent _ _ supply => allowed.platform supply.platform
  | .del type => q.TypeAllowed allowed type
  | .wakeup type first second => q.WakeupAllowed allowed type first second
  | .act a => q.ActionAllowed allowed a
  | .deliver first second => q.DeliverAllowed allowed first second

/-- The condition on the steps of a run within a permit. -/
def Permitted (op : EventOp) : Prop := op.TickNull ∧ q.OpAllowed allowed op

variable [∀ ws e, Decidable (allowed.removal ws e)] [∀ supply, Decidable (allowed.platform supply)]

instance instDecidableTypeAllowed (type : Word) : Decidable (q.TypeAllowed allowed type) :=
  inferInstanceAs (Decidable (∀ e ∈ q.queue, e.type = type → allowed.removal q.wakeups e))

instance instDecidableActionAllowed : (a : CallbackAction) → Decidable (q.ActionAllowed allowed a)
  | .cancel type =>
    inferInstanceAs (Decidable (q.eventBm &&& type ≠ 0 → q.TypeAllowed allowed type))
  | .reschedule _ type _ supply =>
    inferInstanceAs (Decidable
      ((q.eventBm &&& type ≠ 0 → q.TypeAllowed allowed type) ∧ allowed.platform supply.platform))
  | .schedule _ _ _ supply => inferInstanceAs (Decidable (allowed.platform supply.platform))
  | .expires _ _ => .isTrue trivial

instance instDecidableActionsAllowed (q : EventQueue) :
    (as : List CallbackAction) → Decidable (q.ActionsAllowed allowed as)
  | [] => .isTrue trivial
  | a :: as =>
    have := fun q ↦ instDecidableActionsAllowed q as
    inferInstanceAs (Decidable (q.ActionAllowed allowed a ∧
      ∀ r ∈ (q.perform a).toOption, ActionsAllowed allowed r.1 as))

instance instDecidableHandlersAllowed (ele : Queued) (first second : Behaviour) :
    Decidable (q.HandlersAllowed allowed ele first second) :=
  inferInstanceAs (Decidable
    (q.ActionsAllowed allowed (ele.callChain.handlerActions first second) ∧
      (ele.callChain.handlerRet first second = MblueErrcode.elementExit.toInt →
        ∀ q₁ ∈ (q.performAll (ele.callChain.handlerActions first second)).toOption,
          allowed.removal q₁.wakeups ele)))

instance instDecidableWakeupAllowed (type : Word) (first second : Behaviour) :
    Decidable (q.WakeupAllowed allowed type first second) :=
  inferInstanceAs (Decidable (q.eventBm &&& type ≠ 0 →
    ∀ ele ∈ q.queue.find? (·.type == type), q.HandlersAllowed allowed ele first second))

instance instDecidableTimerWakeupAllowed (data : Word) (first second : Behaviour) :
    Decidable (q.TimerWakeupAllowed allowed data first second) :=
  inferInstanceAs (Decidable (∀ ele ∈ q.queue.find? (·.addr == getPointer data),
    q.WakeupAllowed allowed ele.type first second))

instance instDecidableDeliverAllowed (first second : Behaviour) :
    Decidable (q.DeliverAllowed allowed first second) :=
  inferInstanceAs (Decidable (∀ w ∈ q.wakeups.head?,
    TimerWakeupAllowed allowed { q with wakeups := q.wakeups.tail } w.param first second))

instance instDecidableOpAllowed : (op : EventOp) → Decidable (q.OpAllowed allowed op)
  | .add _ supply _ => inferInstanceAs (Decidable (allowed.platform supply.platform))
  | .addPendingEvent _ _ _ _ _ _ _ _ supply _ =>
    inferInstanceAs (Decidable (allowed.platform supply.platform))
  | .addSimplePendingEvent _ _ _ supply =>
    inferInstanceAs (Decidable (allowed.platform supply.platform))
  | .scheduleEvent _ _ _ _ supply => inferInstanceAs (Decidable (allowed.platform supply.platform))
  | .scheduleDefaultEvent _ _ supply =>
    inferInstanceAs (Decidable (allowed.platform supply.platform))
  | .del type => inferInstanceAs (Decidable (q.TypeAllowed allowed type))
  | .wakeup type first second =>
    inferInstanceAs (Decidable (q.WakeupAllowed allowed type first second))
  | .act a => inferInstanceAs (Decidable (q.ActionAllowed allowed a))
  | .deliver first second =>
    inferInstanceAs (Decidable (q.DeliverAllowed allowed first second))

instance instDecidablePermitted (op : EventOp) : Decidable (q.Permitted allowed op) :=
  inferInstanceAs (Decidable (_ ∧ _))

end condition

variable {q q' q₁ : EventQueue} {ele : Queued} {type : Word} {ret rc : ℤ}
  {first second : Behaviour} {a : CallbackAction} {as bs : List CallbackAction}
  {allowed : Permit}

/-! ### The actions of a callback -/

theorem changes_perform (h : q.perform a = .ok (q', rc)) (hallowed : q.ActionAllowed allowed a) :
    Changes allowed q q' := by
  cases a with
  | cancel event =>
    rw [perform, Except.ok.injEq] at h
    unfold cancelDelayedEvent eventQueueGetPendingEvent at h
    split at h
    · next hbm =>
      rw [show q' = (q.eventQueueDelete event).1 from (congrArg Prod.fst h).symm]
      exact changes_eventQueueDelete (hallowed hbm)
    · cases h
      exact .refl
  | schedule timeout type f supply => exact changes_scheduleDelayedEventWithType h hallowed
  | reschedule timeout type f supply =>
    unfold perform rescheduleDelayedEventWithType eventQueueGetPendingEvent at h
    have hschedule : Changes allowed _ q' :=
      changes_scheduleDelayedEventWithType h hallowed.2
    split at hschedule
    · next hbm => exact (changes_eventQueueDelete (hallowed.1 hbm)).trans hschedule
    · exact hschedule
  | expires id sent =>
    obtain ⟨q₁, hexpires, h⟩ := bind_eq_ok_iff.1 h
    cases h
    exact changes_timerExpires hexpires

theorem performAll_cons_eq_ok :
    q.performAll (a :: as) = .ok q' ↔
      ∃ q₁ rc, q.perform a = .ok (q₁, rc) ∧ q₁.performAll as = .ok q' := by
  rw [performAll, bind_eq_ok_iff, Prod.exists]

theorem performAll_append_eq_ok :
    q.performAll (as ++ bs) = .ok q' ↔
      ∃ q₁, q.performAll as = .ok q₁ ∧ q₁.performAll bs = .ok q' := by
  induction as generalizing q with
  | nil => simp [performAll]
  | cons a as ih =>
    simp only [List.cons_append, performAll_cons_eq_ok, ih]
    constructor
    · rintro ⟨q₁, rc, ha, q₂, has, hbs⟩
      exact ⟨q₂, ⟨q₁, rc, ha, has⟩, hbs⟩
    · rintro ⟨q₂, ⟨q₁, rc, ha, has⟩, hbs⟩
      exact ⟨q₁, rc, ha, q₂, has, hbs⟩

theorem changes_performAll (h : q.performAll as = .ok q')
    (hallowed : q.ActionsAllowed allowed as) : Changes allowed q q' := by
  induction as generalizing q with
  | nil =>
    cases h
    exact .refl
  | cons a as ih =>
    obtain ⟨q₁, rc, ha, has⟩ := performAll_cons_eq_ok.1 h
    obtain ⟨hfirst, hrest⟩ := hallowed
    rw [ha] at hrest
    exact (changes_perform ha hfirst).trans (ih has (hrest _ rfl))

/-- The permit for everything covers all actions. -/
theorem actionsAllowed_all (q : EventQueue) (as : List CallbackAction) :
    q.ActionsAllowed .all as := by
  induction as generalizing q with
  | nil => trivial
  | cons a as ih =>
    refine ⟨?_, ?_⟩
    · cases a with
      | cancel => exact fun _ _ _ _ ↦ trivial
      | reschedule => exact ⟨fun _ _ _ _ ↦ trivial, trivial⟩
      | schedule => trivial
      | expires => trivial
    · exact fun r _ ↦ ih r.1

theorem follows_performAll (h : q.performAll as = .ok q') : Follows q q' :=
  .of_changes (changes_performAll h (actionsAllowed_all q as))

/-! ### The callbacks of a wake-up -/

/-- What the callbacks of a wake-up did, if the element lived as long as it was needed. -/
theorem callHandlers_eq_ok (hq : Pending q) (hmem : ele ∈ q.queue)
    (h : q.callHandlers ele first second = .ok (q', ret)) :
    q.performAll (ele.callChain.handlerActions first second) = .ok q' ∧
      ret = ele.callChain.handlerRet first second := by
  unfold callHandlers at h
  by_cases hwakeup : ele.callChain.callWakeup.isSome = true
  · have hhandler : ele.callChain.hasHandler = true := by simp [CallChain.hasHandler, hwakeup]
    rw [if_pos hwakeup] at h
    obtain ⟨q₁, hfirst, h⟩ := bind_eq_ok_iff.1 h
    by_cases hpos : 0 < first.ret
    · rw [if_pos hpos] at h
      -- the element is read again after its `call_wakeup`, and is the same one
      obtain ⟨found, hfound, h⟩ := bind_eq_ok_iff.1 h
      obtain ⟨next, hnext, h⟩ := bind_eq_ok_iff.1 h
      rw [(follows_performAll hfirst).deref_eq hq hmem hfound] at hnext
      cases next with
      | none =>
        cases h
        obtain ⟨hactions, hret⟩ :=
          CallChain.handler_of_single (CallChain.chains_of_entry_none hnext) hhandler
        exact ⟨hactions.symm ▸ hfirst, hret.symm⟩
      | some callback =>
        obtain ⟨q₂, hsecond, h⟩ := bind_eq_ok_iff.1 h
        cases h
        obtain ⟨hactions, hret⟩ :=
          CallChain.handler_of_chains (CallChain.chains_of_entry hwakeup hpos hnext)
        refine ⟨?_, hret.symm⟩
        rw [hactions]
        exact performAll_append_eq_ok.2 ⟨q₁, hfirst, hsecond⟩
    · rw [if_neg hpos] at h
      cases h
      obtain ⟨hactions, hret⟩ :=
        CallChain.handler_of_single (CallChain.chains_of_not_pos hpos) hhandler
      exact ⟨hactions.symm ▸ hfirst, hret.symm⟩
  · rw [if_neg hwakeup] at h
    by_cases hother : ele.callChain.callFinish.isSome = true ∨ ele.callChain.callCancel.isSome = true
    · have hhandler : ele.callChain.hasHandler = true := by
        simp [CallChain.hasHandler, hwakeup, hother]
      rw [if_pos hother] at h
      obtain ⟨q₁, hfirst, h⟩ := bind_eq_ok_iff.1 h
      cases h
      obtain ⟨hactions, hret⟩ :=
        CallChain.handler_of_single (CallChain.chains_of_no_wakeup hwakeup) hhandler
      exact ⟨hactions.symm ▸ hfirst, hret.symm⟩
    · rw [if_neg hother] at h
      cases h
      have hhandler : ele.callChain.hasHandler = false := by
        simpa [CallChain.hasHandler, hwakeup] using hother
      obtain ⟨hactions, hret⟩ := CallChain.handler_of_none hhandler
      exact ⟨hactions.symm ▸ rfl, hret.symm⟩

/-! ### Every operation -/

theorem changes_endWakeup (hq : Pending q) (hmem : ele ∈ q.queue) (hfollows : Follows q q₁)
    (h : q₁.endWakeup ele.serial ret = .ok q')
    (hallowed : ret = MblueErrcode.elementExit.toInt → allowed.removal q₁.wakeups ele) :
    Changes allowed q₁ q' := by
  unfold endWakeup at h
  split at h
  · next hexit =>
    obtain ⟨found, hfound, h⟩ := bind_eq_ok_iff.1 h
    cases h
    have hsame := hfollows.deref_eq hq hmem hfound
    subst hsame
    exact .single (.removed (deref_eq_ok hfound).1 (hallowed hexit))
  · cases h
    exact .refl

theorem changes_eventQueueWakeup (hq : Pending q)
    (h : q.eventQueueWakeup type first second = .ok (q', rc))
    (hallowed : q.WakeupAllowed allowed type first second) : Changes allowed q q' := by
  unfold eventQueueWakeup at h
  split at h
  · cases h
    exact .refl
  · next hbm =>
    have hhandlers := hallowed hbm
    cases hfind : q.queue.find? (·.type == type) with
    | none =>
      simp only [hfind] at h
      cases h
      exact .refl
    | some ele =>
      simp only [hfind] at h hhandlers
      have hmem := List.mem_of_find?_eq_some hfind
      obtain ⟨⟨q₁, ret⟩, hcall, h⟩ := bind_eq_ok_iff.1 h
      obtain ⟨q₂, hend, h⟩ := bind_eq_ok_iff.1 h
      cases h
      obtain ⟨hrun, rfl⟩ := callHandlers_eq_ok hq hmem hcall
      obtain ⟨hactions, hexit⟩ := hhandlers ele rfl
      rw [hrun] at hexit
      exact (changes_performAll hrun hactions).trans (changes_endWakeup hq hmem
        (follows_performAll hrun) hend fun hret ↦ hexit hret _ rfl)

theorem changes_timerWakeup {data : Word} (hq : Pending q)
    (h : q.timerWakeup data first second = .ok (q', rc))
    (hallowed : q.TimerWakeupAllowed allowed data first second) : Changes allowed q q' := by
  unfold timerWakeup at h
  unfold TimerWakeupAllowed at hallowed
  split at h
  · split at h
    · cases h
    · next ele hfind =>
      rw [hfind] at hallowed
      obtain ⟨⟨q₁, rc'⟩, hwakeup, h⟩ := bind_eq_ok_iff.1 h
      cases h
      exact changes_eventQueueWakeup hq hwakeup (hallowed ele rfl)
  · cases h
    exact .refl

theorem changes_deliver (hq : Pending q) (h : q.deliver first second = .ok (q', rc))
    (hallowed : q.DeliverAllowed allowed first second) : Changes allowed q q' := by
  unfold deliver at h
  unfold DeliverAllowed at hallowed
  split at h
  · cases h
    exact .refl
  · next w rest hw =>
    rw [hw] at hallowed
    exact .head (.taken hw) (changes_timerWakeup { hq with } h (hallowed w rfl))

/-- **Every operation is a sequence of changes.** -/
theorem changes_of_apply {op : EventOp} (hq : Pending q) (htick : op.TickNull)
    (h : q.apply op = .ok (q', rc)) (hallowed : q.OpAllowed allowed op) : Changes allowed q q' := by
  cases op with
  | add element supply startRet => exact changes_eventQueueAdd h htick hallowed
  | del type =>
    rw [show q' = (q.eventQueueDelete type).1 from
      (congrArg Prod.fst (Except.ok.inj h)).symm]
    exact changes_eventQueueDelete hallowed
  | wakeup type first second => exact changes_eventQueueWakeup hq h hallowed
  | addPendingEvent => exact changes_eventQueueAdd h rfl hallowed
  | addSimplePendingEvent => exact changes_eventQueueAdd h rfl hallowed
  | scheduleEvent => exact changes_eventQueueAdd h rfl hallowed
  | scheduleDefaultEvent => exact changes_scheduleDelayedEventWithType h hallowed
  | act a => exact changes_perform h hallowed
  | deliver first second => exact changes_deliver hq h hallowed

/-- The permit for everything covers all operations. -/
theorem opAllowed_all (q : EventQueue) (op : EventOp) : q.OpAllowed .all op := by
  have hwakeup : ∀ (q : EventQueue) (type : Word) (first second : Behaviour),
      q.WakeupAllowed .all type first second := by
    intro q type first second _ ele _
    exact ⟨actionsAllowed_all _ _, fun _ _ _ ↦ trivial⟩
  cases op with
  | del => exact fun _ _ _ ↦ trivial
  | wakeup => exact hwakeup _ _ _ _
  | act a => exact (actionsAllowed_all q [a]).1
  | deliver => exact fun _ _ _ _ ↦ hwakeup _ _ _ _
  | _ => trivial

theorem Sound.performAll (h : Sound q) (hrun : q.performAll as = .ok q') : Sound q' :=
  h.changes (changes_performAll hrun (actionsAllowed_all q as))

/-! ### Runs -/

theorem step_eq_some {op : EventOp} (h : q.step op = some q') : ∃ rc, q.apply op = .ok (q', rc) := by
  unfold step at h
  split at h
  · cases h
  · next rc happly =>
    cases h
    exact ⟨rc, happly⟩

/-- **The invariant rule for the event queue**: what holds at the start and is kept by every
permitted change of a sound queue holds in every state of every permitted run. -/
theorem invariant_of_run {P : EventQueue → Prop}
    (h : Run step (Permitted allowed) initial q) (hinitial : P initial)
    (hchange : ∀ {a b : EventQueue}, Sound a → P a → Change allowed a b → P b) :
    Sound q ∧ P q := by
  refine h.invariant (P := fun q ↦ Sound q ∧ P q) ⟨sound_initial, hinitial⟩ ?_
  rintro a b op ⟨hsound, hP⟩ ⟨htick, hop⟩ hstep
  obtain ⟨rc, happly⟩ := step_eq_some hstep
  have hchanges := changes_of_apply hsound.toPending htick happly hop
  refine hchanges.invariant (P := fun q ↦ Sound q ∧ P q) ⟨hsound, hP⟩ ?_
  rintro c d ⟨hc, hPc⟩ hcd
  exact ⟨hc.change hcd, hchange hc hPc hcd⟩

/-- The states that operations lead to, from an empty queue. -/
abbrev Reachable (q : EventQueue) : Prop := Run step (fun _ op ↦ op.TickNull) initial q

theorem run_all_of_reachable (h : Reachable q) : Run step (Permitted .all) initial q := by
  refine h.mono ?_
  intro a op htick
  exact ⟨htick, opAllowed_all a op⟩

theorem sound_of_reachable (h : Reachable q) : Sound q :=
  (invariant_of_run (P := fun _ ↦ True) (run_all_of_reachable h) trivial fun _ _ _ ↦ trivial).1

end EventQueue

end Mblue
