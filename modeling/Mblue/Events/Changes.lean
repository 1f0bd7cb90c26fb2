import Mblue.Events.EventQueue
import Mblue.Library.Runs

/-!
# What the functions of the event queue change

Every operation on the event queue, callbacks and expiring timers included, is a sequence of small
changes of five kinds: an element is removed, a new one is linked, a timer expires, a wake-up is
sent, a wake-up is taken (`Change`). The invariants of the queue only look at these.

Which elements are removed is what the properties of the queue depend on, so a `Change` carries a
`Permit`: a condition on the removals, over the queued wake-ups and the element that goes, and one on
what the platform answers when a timer is armed.

The rest is what each function without callbacks does: the ways through `event_queue_add` and the
arming of a timer (`AddOutcome`, `ArmOutcome`), and what the loop of `event_queue_delete` leaves.
-/

namespace Mblue

theorem bind_eq_ok_iff {α β : Type} {x : Except Fault α} {f : α → Except Fault β} {b : β} :
    (x >>= f) = .ok b ↔ ∃ a, x = .ok a ∧ f a = .ok b := by
  cases x with
  | error e => simp [bind, Except.bind]
  | ok a => simp [bind, Except.bind]

namespace EventQueue

variable {q q' : EventQueue} {ele : Queued} {element : EventQueueElement} {supply : Supply}
  {type : Word} {ret rc : ℤ} {first second : Behaviour}

/-! ### The small changes -/

/-- The removal of an element, as `event_queue_delete` and `event_queue_wakeup` do it. -/
def remove (q : EventQueue) (ele : Queued) : EventQueue :=
  freeEventElement { q with eventBm := q.eventBm &&& ~~~ele.type } ele

/-- What changes are under consideration. -/
structure Permit where
  /-- An element may be removed while these wake-ups are queued. -/
  removal : List TimerWakeup → Queued → Prop
  /-- The platform may answer so. -/
  platform : PlatformSupply → Prop

/-- The permit for everything. -/
def Permit.all : Permit := ⟨fun _ _ ↦ True, fun _ ↦ True⟩

/-- One change within a permit. -/
inductive Change (allowed : Permit) (q : EventQueue) : EventQueue → Prop
  | removed {ele : Queued} (hmem : ele ∈ q.queue) (hallowed : allowed.removal q.wakeups ele) :
      Change allowed q (q.remove ele)
  | linked {element : EventQueueElement} {addr : Word} {ts : Timers} {ele : Queued}
      {platform : PlatformSupply} (hplatform : allowed.platform platform)
      (htick : element.tick = none)
      (hbm : q.eventBm &&& element.type = 0) (haddr : pbPayload addr = true)
      (hfresh : ∀ e ∈ q.queue, e.addr ≠ addr)
      (harm : armTick q.timers { element with serial := q.serials, addr := addr } platform =
        .ok (ts, ele)) :
      Change allowed q (q.link ts ele)
  | expired {id k} (hk : q.timers.os id = some k) :
      Change allowed q { q with timers := q.timers.expire id k }
  | sent {ele : Queued} (hmem : ele ∈ q.queue) :
      Change allowed q
        { q with wakeups := q.wakeups ++ [⟨makePointerS ele.addr, ele.serial⟩] }
  | taken {w rest} (hw : q.wakeups = w :: rest) : Change allowed q { q with wakeups := rest }

/-- A sequence of changes. -/
abbrev Changes (allowed : Permit) : EventQueue → EventQueue → Prop :=
  Relation.ReflTransGen (Change allowed)

/-- What every change keeps, a sequence of changes keeps. -/
theorem Changes.invariant {allowed : Permit} {P : EventQueue → Prop}
    (h : Changes allowed q q') (hq : P q)
    (hstep : ∀ {a b : EventQueue}, P a → Change allowed a b → P b) : P q' := by
  induction h with
  | refl => exact hq
  | tail _ hchange ih => exact hstep ih hchange

@[simp] theorem queue_remove (q : EventQueue) (ele : Queued) :
    (q.remove ele).queue = q.queue.erase ele := rfl

@[simp] theorem wakeups_remove (q : EventQueue) (ele : Queued) :
    (q.remove ele).wakeups = q.wakeups := rfl

@[simp] theorem eventBm_remove (q : EventQueue) (ele : Queued) :
    (q.remove ele).eventBm = q.eventBm &&& ~~~ele.type := rfl

@[simp] theorem serials_remove (q : EventQueue) (ele : Queued) :
    (q.remove ele).serials = q.serials := rfl

theorem timers_remove (q : EventQueue) (ele : Queued) :
    (q.remove ele).timers = match ele.tick with
      | none => q.timers
      | some timer => q.timers.freeTimer timer := rfl

/-! ### What the functions do -/

/-- A pointer that can be followed points to a queued element. -/
theorem deref_eq_ok {serial : ℕ} (h : q.deref serial = .ok ele) :
    ele ∈ q.queue ∧ ele.serial = serial := by
  unfold deref at h
  split at h
  · cases h
  · next hfind =>
    cases h
    exact ⟨List.mem_of_find?_eq_some hfind, by simpa using List.find?_some hfind⟩

/-- A pointer to a queued element can be followed, and no other one. -/
theorem deref_eq_error_iff {serial : ℕ} {fault : Fault} : q.deref serial = .error fault ↔
    fault = .freedElement ∧ ∀ e ∈ q.queue, e.serial ≠ serial := by
  unfold deref
  split
  · next hfind =>
    rw [List.find?_eq_none] at hfind
    simp only [beq_iff_eq] at hfind
    exact ⟨fun h ↦ ⟨(Except.error.inj h).symm, hfind⟩, fun h ↦ by rw [h.1]⟩
  · next hfind =>
    have hmem := List.mem_of_find?_eq_some hfind
    have hserial := List.find?_some hfind
    simp only [beq_iff_eq] at hserial
    simp only [reduceCtorEq, false_iff, not_and, not_forall]
    exact fun _ ↦ ⟨_, hmem, by simpa using hserial⟩

theorem mallocElement_eq_some {addr : Option Word} {a : Word}
    (h : q.mallocElement addr = some a) :
    pbPayload a = true ∧ ∀ e ∈ q.queue, e.addr ≠ a := by
  obtain ⟨-, hvalid⟩ := Option.filter_eq_some_iff.1 h
  simpa using hvalid

/-- The three ways through `event_queue_add`. -/
inductive AddOutcome (q : EventQueue) (element : EventQueueElement) (supply : Supply)
    (startRet : ℤ) : EventQueue → ℤ → Prop
  | pending (hbm : q.eventBm &&& element.type ≠ 0) :
      AddOutcome q element supply startRet q MblueErrcode.errUnknown.toInt
  | nomem (hbm : q.eventBm &&& element.type = 0) (hnone : q.mallocElement supply.element = none) :
      AddOutcome q element supply startRet q MblueErrcode.errNomem.toInt
  | linked {addr : Word} {ts : Timers} {ele : Queued} (hbm : q.eventBm &&& element.type = 0)
      (hsome : q.mallocElement supply.element = some addr)
      (harm : armTick q.timers { element with serial := q.serials, addr := addr } supply.platform =
        .ok (ts, ele)) :
      AddOutcome q element supply startRet (q.link ts ele)
        (if element.callChain.callStart.isSome then startRet else MblueErrcode.ok.toInt)

theorem eventQueueAdd_eq_ok {startRet : ℤ}
    (h : q.eventQueueAdd element supply startRet = .ok (q', rc)) :
    AddOutcome q element supply startRet q' rc := by
  unfold eventQueueAdd at h
  by_cases hbm : q.eventBm &&& element.type = 0
  · rw [if_neg (not_not.2 hbm)] at h
    cases hmalloc : q.mallocElement supply.element with
    | none =>
      simp only [hmalloc] at h
      cases h
      exact .nomem hbm hmalloc
    | some addr =>
      simp only [hmalloc] at h
      obtain ⟨⟨ts, ele⟩, harm, h⟩ := bind_eq_ok_iff.1 h
      cases h
      exact .linked hbm hmalloc harm
  · rw [if_pos hbm] at h
    cases h
    exact .pending hbm

/-- The ways through the arming of a new element's timer. -/
inductive ArmOutcome (ts : Timers) (ele : Queued) (platform : PlatformSupply) :
    Timers → Queued → Prop
  | untimed (hperiod : ele.Untimed) : ArmOutcome ts ele platform ts ele
  | uncreated {timer : TimerId} {rest : List TimerId} (hperiod : ¬ ele.Untimed)
      (hfree : ts.timerLists = timer :: rest) (hcreate : platform.create = false) :
      ArmOutcome ts ele platform
        { ts with timerLists := rest, obj := Function.update ts.obj timer none }
        { ele with tick := some timer }
  | armed {timer : TimerId} {rest : List TimerId} {pt : PosixTimer} {k : OsTimer}
      (hperiod : ¬ ele.Untimed) (hfree : ts.timerLists = timer :: rest)
      (hcreate : platform.create = true) (hblock : platform.block = true)
      (hpt : pt = ⟨ts.blocks, ts.created, Timers.specOf ele.period (ele.mode != 0), ele.serial⟩)
      (hk : k = ⟨timer, pt.spec⟩) :
      ArmOutcome ts ele platform
        { ts with
          timerLists := rest
          obj := Function.update ts.obj timer (some pt)
          os := Function.update ts.os ts.created (some k)
          created := ts.created + 1
          blocks := ts.blocks + 1 }
        { ele with tick := some timer }

theorem armTick_eq_ok {ts ts' : Timers} {ele ele' : Queued} {platform : PlatformSupply}
    (h : armTick ts ele platform = .ok (ts', ele')) : ArmOutcome ts ele platform ts' ele' := by
  unfold armTick at h
  by_cases hperiod : ele.Untimed
  · rw [if_pos hperiod] at h
    cases h
    exact .untimed hperiod
  rw [if_neg hperiod] at h
  cases hget : ts.mblueTimerGet with
  | none =>
    rw [hget] at h
    cases h
  | some got =>
    obtain ⟨timer, ts₁⟩ := got
    obtain ⟨rest, hfree, rfl⟩ := Timers.mblueTimerGet_eq_some_iff.1 hget
    simp only [hget] at h
    obtain ⟨⟨ts₂, rc⟩, hinit, h⟩ := bind_eq_ok_iff.1 h
    cases h
    unfold Timers.platformTimerInit at hinit
    cases hcreate : platform.create with
    | false =>
      rw [if_pos hcreate] at hinit
      cases hinit
      rw [Timers.platformTimerStart_fst]
      simp only [Function.update_self]
      exact .uncreated hperiod hfree hcreate
    | true =>
      rw [if_neg (by simp [hcreate])] at hinit
      cases hblock : platform.block with
      | false =>
        rw [if_pos hblock] at hinit
        cases hinit
      | true =>
        rw [if_neg (by simp [hblock])] at hinit
        cases hinit
        rw [Timers.platformTimerStart_fst]
        simp only [Function.update_self, Option.map_some, Function.update_idem]
        exact .armed hperiod hfree hcreate hblock rfl rfl

/-- The arming of a timer is defined exactly when there is a timer, and a block for it, or when none
is needed. -/
theorem armTick_isOk_iff {ts : Timers} {ele : Queued} {platform : PlatformSupply} :
    (∃ ts' ele', armTick ts ele platform = .ok (ts', ele')) ↔
      ele.Untimed ∨ ts.timerLists ≠ [] ∧ (platform.create = true → platform.block = true) := by
  constructor
  · rintro ⟨ts', ele', h⟩
    cases armTick_eq_ok h with
    | untimed hperiod => exact .inl hperiod
    | uncreated _ hfree hcreate => exact .inr ⟨by simp [hfree], by simp [hcreate]⟩
    | armed _ hfree _ hblock => exact .inr ⟨by simp [hfree], fun _ ↦ hblock⟩
  · by_cases hperiod : ele.Untimed
    · exact fun _ ↦ ⟨ts, ele, if_pos hperiod⟩
    rintro (huntimed | ⟨hfree, hblock⟩)
    · exact absurd huntimed hperiod
    obtain ⟨timer, rest, hlists⟩ := List.exists_cons_of_ne_nil hfree
    have hget := Timers.mblueTimerGet_eq_some_iff.2 ⟨rest, hlists, rfl⟩
    rw [armTick, if_neg hperiod, hget]
    simp only [Timers.platformTimerInit]
    cases hcreate : platform.create with
    | false => exact ⟨_, _, rfl⟩
    | true => rw [hblock hcreate]; exact ⟨_, _, rfl⟩

/-- The first element after others that differ from it is the one `list_del` takes. -/
theorem erase_mid {pre l : List Queued} (hpre : ele ∉ pre) :
    (pre ++ ele :: l).erase ele = pre ++ l := by
  rw [List.erase_append_right _ hpre, List.erase_cons_head]

/-- What `event_queue_delete` leaves: all elements of another type. -/
theorem queue_deleteLoop {pre l : List Queued} (hq : q.queue = pre ++ l)
    (hpre : ∀ e ∈ pre, e.type ≠ type) (ret : ℤ) :
    (deleteLoop type l q ret).1.queue = pre ++ l.filter (·.type ≠ type) := by
  induction l generalizing pre q ret with
  | nil => exact hq
  | cons ele l ih =>
    rw [deleteLoop]
    by_cases htype : ele.type = type
    · have hmem : ele ∉ pre := fun h ↦ hpre ele h htype
      rw [if_neg (not_not.2 htype), List.filter_cons_of_neg (by simpa using htype)]
      exact ih ((congrArg (List.erase · ele) hq).trans (erase_mid hmem)) hpre _
    · rw [if_pos htype, List.filter_cons_of_pos (by simpa using htype),
        List.append_cons]
      exact ih (by rw [hq, List.append_cons]) (by simpa [or_imp, forall_and] using ⟨hpre, htype⟩) _

theorem queue_eventQueueDelete (q : EventQueue) (type : Word) :
    (q.eventQueueDelete type).1.queue = q.queue.filter (·.type ≠ type) :=
  queue_deleteLoop (List.nil_append _).symm (by simp) _

/-- `event_queue_delete` returns `MBLUE_OK` exactly when it finds an element of the type. -/
theorem snd_deleteLoop {l : List Queued} {q : EventQueue} {ret : ℤ} :
    (deleteLoop type l q ret).2 =
      if ∃ e ∈ l, e.type = type then MblueErrcode.ok.toInt else ret := by
  induction l generalizing q ret with
  | nil => simp [deleteLoop]
  | cons ele l ih =>
    rw [deleteLoop]
    by_cases htype : ele.type = type
    · rw [if_neg (not_not.2 htype), ih, ite_self,
        if_pos ⟨ele, List.mem_cons_self, htype⟩]
    · rw [if_pos htype, ih]
      simp [htype]

/-! ### The functions without callbacks make changes -/

variable {allowed : Permit}

theorem changes_deleteLoop {pre l : List Queued} (hq : q.queue = pre ++ l)
    (hpre : ∀ e ∈ pre, e.type ≠ type) (hallowed : ∀ e ∈ l, e.type = type → allowed.removal q.wakeups e)
    (ret : ℤ) : Changes allowed q (deleteLoop type l q ret).1 := by
  induction l generalizing pre q ret with
  | nil => exact .refl
  | cons ele l ih =>
    rw [deleteLoop]
    have hmem : ele ∈ q.queue := hq ▸ List.mem_append_right _ List.mem_cons_self
    by_cases htype : ele.type = type
    · have hnot : ele ∉ pre := fun h ↦ hpre ele h htype
      have hrest : (q.remove ele).queue = pre ++ l :=
        (congrArg (List.erase · ele) hq).trans (erase_mid hnot)
      have hchange : Change allowed q (q.remove ele) :=
        .removed hmem (hallowed ele List.mem_cons_self htype)
      rw [if_neg (not_not.2 htype)]
      subst htype
      exact .head hchange (ih hrest hpre (fun e he ↦ hallowed e (List.mem_cons_of_mem _ he)) _)
    · rw [if_pos htype]
      exact ih (by rw [hq, List.append_cons])
        (by simpa [or_imp, forall_and] using ⟨hpre, htype⟩)
        (fun e he ↦ hallowed e (List.mem_cons_of_mem _ he)) _

theorem changes_eventQueueDelete (hallowed : ∀ e ∈ q.queue, e.type = type → allowed.removal q.wakeups e) :
    Changes allowed q (q.eventQueueDelete type).1 :=
  changes_deleteLoop (List.nil_append _).symm (by simp) hallowed _

theorem AddOutcome.changes {startRet : ℤ} (h : AddOutcome q element supply startRet q' rc)
    (htick : element.tick = none) (hplatform : allowed.platform supply.platform) :
    Changes allowed q q' := by
  cases h with
  | pending => exact .refl
  | nomem => exact .refl
  | linked hbm hsome harm =>
    obtain ⟨haddr, hfresh⟩ := mallocElement_eq_some hsome
    exact .single (.linked hplatform htick hbm haddr hfresh harm)

theorem changes_eventQueueAdd {startRet : ℤ}
    (h : q.eventQueueAdd element supply startRet = .ok (q', rc)) (htick : element.tick = none)
    (hplatform : allowed.platform supply.platform) : Changes allowed q q' :=
  (eventQueueAdd_eq_ok h).changes htick hplatform

theorem changes_scheduleDelayedEventWithType {timeout : Word} {f : Option Callback}
    (h : q.scheduleDelayedEventWithType timeout type f supply = .ok (q', rc))
    (hplatform : allowed.platform supply.platform) : Changes allowed q q' := by
  unfold scheduleDelayedEventWithType at h
  split at h
  · exact changes_eventQueueAdd h rfl hplatform
  · cases h
    exact .refl

theorem changes_timerExpires {id : ℕ} {sent : Bool} (h : q.timerExpires id sent = .ok q') :
    Changes allowed q q' := by
  unfold timerExpires at h
  split at h
  · cases h
    exact .refl
  · next k hk =>
    split at h
    · have hexpired : Change allowed q { q with timers := q.timers.expire id k } := .expired hk
      split at h
      · cases h
        exact .single hexpired
      · next param hparam =>
        obtain ⟨ele, hele, h⟩ := bind_eq_ok_iff.1 h
        cases sent with
        | false =>
          cases h
          exact .single hexpired
        | true =>
          cases h
          exact .head hexpired (.single (.sent (deref_eq_ok hele).1))
    · cases h
      exact .refl

end EventQueue

end Mblue
