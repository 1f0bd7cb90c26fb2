import Mblue.Library.Bitmaps
import Mblue.Events.Timer

/-!
# The event queue

`event_queue.c` and `event_helper.c`, the timers' callback `default_timer_event`, and the handler
`timer_wakeup` with which a segment answers a timer (`simple_scenario.c`, and the macro
`default_timer_wakeup`).

An element is a heap block exactly as long as it is linked: it is allocated right before
`list_add_tail` and freed right after `list_del`. So the queue is the list of the elements that
exist, a pointer to an element is its number `serial`, and following the pointer (`deref`) fails
once the element is freed, whatever was allocated at its address since. What travels in a message is
the address alone.

A callback is code of the segment. What it does to the queue while it runs, and what it returns, is
a `Behaviour`: any finite sequence of cancellations and schedulings, with timers that expire
meanwhile. The functions have a result only if no step of theirs has undefined behaviour.
-/

namespace Mblue

/-- A callback, by the address of its code. -/
abbrev Callback := ℕ

/-- `EVENT_TIMEOUT_FOREVER`. -/
def eventTimeoutForever : Word := 0xFFFFFFFF

/-- `MBLUE_EVENT_DELAYED_EVENT`. -/
def mblueEventDelayedEvent : Word := 0x80000000

/-- `EVENT_MODE_PENDING_EVENT`. -/
def eventModePendingEvent : Word := 0

/-- `EVENT_MODE_EVENT_PERIODICAL`. -/
def eventModeEventPeriodical : Word := 1

/-- `call_chain`. -/
structure CallChain where
  callStart : Option Callback
  callWakeup : Option Callback
  callCancel : Option Callback
  callFinish : Option Callback
  deriving DecidableEq, Repr

/-- `call_chain[i]`, for an index that is not negative. -/
def CallChain.entry (chain : CallChain) (i : ℤ) : Except Fault (Option Callback) :=
  if i = 0 then .ok chain.callStart
  else if i = 1 then .ok chain.callWakeup
  else if i = 2 then .ok chain.callCancel
  else if i = 3 then .ok chain.callFinish
  else .error .badCallback

/-- `struct event_queue_element`, as a caller of `event_queue_add` fills it. -/
structure EventQueueElement where
  type : Word
  mode : Word
  period : Word
  tick : Option TimerId
  src : Word
  smartData : Word
  callChain : CallChain
  deriving DecidableEq, Repr

/-- An element in the queue: the copy that `event_queue_add` made. -/
structure Queued extends EventQueueElement where
  /-- The number of this allocation. -/
  serial : ℕ
  addr : Word
  deriving DecidableEq, Repr

/-- A `MBLUE_TIMER_WAKEUP` on its way to the segment. -/
structure TimerWakeup where
  /-- The payload of the message. -/
  param : Word
  /-- History: the element whose timer expired. -/
  serial : ℕ
  deriving DecidableEq, Repr

/-- `struct event_queue_head`, with the timers and the messages it works with. -/
structure EventQueue where
  eventBm : Word
  queue : List Queued
  timers : Timers
  /-- How many elements were allocated. -/
  serials : ℕ
  /-- The wake-ups that are queued at the segment's task, the oldest first. -/
  wakeups : List TimerWakeup
  /-- History: the smart data that was freed, the latest last. -/
  freedData : List Word

/-- What the environment answers to an `event_queue_add`. -/
structure Supply where
  /-- The address `mblue_malloc` returns, if it returns one. -/
  element : Option Word
  platform : PlatformSupply
  deriving DecidableEq, Repr

/-- An element that waits without a timer. -/
def EventQueueElement.Untimed (element : EventQueueElement) : Prop :=
  element.period = 0 ∨ element.period = eventTimeoutForever

instance instDecidableUntimed (element : EventQueueElement) : Decidable element.Untimed :=
  inferInstanceAs (Decidable (_ ∨ _))

/-- `INIT_EVENT_ELEMENT_WITH`. -/
def initEventElementWith (type mode period src smartData : Word) (tick : Option TimerId)
    (start awaken cancel finish : Option Callback) : EventQueueElement where
  type := type
  mode := mode
  period := period
  tick := tick
  src := src
  smartData := smartData
  callChain := ⟨start, awaken, cancel, finish⟩

namespace EventQueue

/-- `event_queue_init`. -/
def initial : EventQueue := ⟨0, [], .initial, 0, [], []⟩

/-- Following a pointer to an element. -/
def deref (q : EventQueue) (serial : ℕ) : Except Fault Queued :=
  match q.queue.find? (·.serial == serial) with
  | none => .error .freedElement
  | some ele => .ok ele

/-- `mblue_malloc` of an element: a block that is aligned, and that no element has already. -/
def mallocElement (q : EventQueue) (addr : Option Word) : Option Word :=
  addr.filter fun a ↦ pbPayload a && q.queue.all (·.addr != a)

/-- `__free_event_element`. -/
def freeEventElement (q : EventQueue) (ele : Queued) : EventQueue :=
  { q with
    timers := match ele.tick with
      | none => q.timers
      | some timer => q.timers.freeTimer timer
    freedData := if pbPayload ele.smartData then q.freedData ++ [ele.smartData] else q.freedData
    queue := q.queue.erase ele }

/-- `event_queue_get_pending_event`. -/
def eventQueueGetPendingEvent (q : EventQueue) : Word := q.eventBm

/-- The timer of a new element. A timer that was not got is initialised all the same, and what
`timer->init` and `timer->start` return is dropped. -/
def armTick (ts : Timers) (ele : Queued) (supply : PlatformSupply) :
    Except Fault (Timers × Queued) :=
  if ele.Untimed then .ok (ts, ele)
  else match ts.mblueTimerGet with
    | none => .error .nullTimer
    | some (timer, ts) => do
      let (ts, _) ← ts.platformTimerInit timer ele.period (ele.mode != 0) ele.serial supply
      .ok ((ts.platformTimerStart timer).1, { ele with tick := some timer })

/-- The queue with a new element at its end. -/
def link (q : EventQueue) (ts : Timers) (ele : Queued) : EventQueue :=
  { q with
    eventBm := q.eventBm ||| ele.type
    queue := q.queue ++ [ele]
    timers := ts
    serials := q.serials + 1 }

/-- `event_queue_add`; `startRet` is what the handler of `CALL_START` returns. The source links the
element before it gets the timer; nothing looks at the list in between. -/
def eventQueueAdd (q : EventQueue) (element : EventQueueElement) (supply : Supply)
    (startRet : ℤ) : Except Fault (EventQueue × ℤ) :=
  if q.eventBm &&& element.type ≠ 0 then .ok (q, MblueErrcode.errUnknown.toInt)
  else match q.mallocElement supply.element with
    | none => .ok (q, MblueErrcode.errNomem.toInt)
    | some addr => do
      let (ts, ele) ← armTick q.timers { element with serial := q.serials, addr := addr }
        supply.platform
      .ok (q.link ts ele,
        if element.callChain.callStart.isSome then startRet else MblueErrcode.ok.toInt)

/-- The loop of `event_queue_delete` over the elements that are still to be visited. -/
def deleteLoop (type : Word) : List Queued → EventQueue → ℤ → EventQueue × ℤ
  | [], q, ret => (q, ret)
  | ele :: rest, q, ret =>
    if ele.type ≠ type then deleteLoop type rest q ret
    else deleteLoop type rest
      (freeEventElement { q with eventBm := q.eventBm &&& ~~~type } ele) MblueErrcode.ok.toInt

/-- `event_queue_delete`. -/
def eventQueueDelete (q : EventQueue) (type : Word) : EventQueue × ℤ :=
  deleteLoop type q.queue q MblueErrcode.errUnknown.toInt

/-! ### The helpers -/

/-- `add_pending_event`. -/
def addPendingEvent (q : EventQueue) (type timeout msg data : Word)
    (start awaken cancel finish : Option Callback) (supply : Supply) (startRet : ℤ) :
    Except Fault (EventQueue × ℤ) :=
  q.eventQueueAdd (initEventElementWith type eventModePendingEvent timeout msg data none
    start awaken cancel finish) supply startRet

/-- `add_simple_pending_event`. -/
def addSimplePendingEvent (q : EventQueue) (type msg : Word) (finish : Option Callback)
    (supply : Supply) : Except Fault (EventQueue × ℤ) :=
  q.eventQueueAdd (initEventElementWith type eventModePendingEvent 0 msg 0 none
    none none none finish) supply MblueErrcode.ok.toInt

/-- `schedule_event`. -/
def scheduleEvent (q : EventQueue) (type timeout data : Word) (delayedEvent : Option Callback)
    (supply : Supply) : Except Fault (EventQueue × ℤ) :=
  q.eventQueueAdd (initEventElementWith type eventModeEventPeriodical timeout 0 data none
    none delayedEvent none none) supply MblueErrcode.ok.toInt

/-- The element of a delayed event. -/
def delayedElement (timeout type : Word) (delayedEvent : Option Callback) : EventQueueElement :=
  initEventElementWith type eventModeEventPeriodical timeout 0 0 none none delayedEvent none none

/-- `schedule_delayed_event_with_type`. -/
def scheduleDelayedEventWithType (q : EventQueue) (timeout type : Word)
    (delayedEvent : Option Callback) (supply : Supply) : Except Fault (EventQueue × ℤ) :=
  if q.eventQueueGetPendingEvent &&& type = 0 then
    q.eventQueueAdd (delayedElement timeout type delayedEvent) supply MblueErrcode.ok.toInt
  else .ok (q, MblueErrcode.ok.toInt)

/-- `schedule_default_event`. -/
def scheduleDefaultEvent (q : EventQueue) (timeout : Word) (delayedEvent : Option Callback)
    (supply : Supply) : Except Fault (EventQueue × ℤ) :=
  q.scheduleDelayedEventWithType timeout mblueEventDelayedEvent delayedEvent supply

/-- `reschedule_delayed_event_with_type`. -/
def rescheduleDelayedEventWithType (q : EventQueue) (timeout type : Word)
    (delayedEvent : Option Callback) (supply : Supply) : Except Fault (EventQueue × ℤ) :=
  let q := if q.eventQueueGetPendingEvent &&& type ≠ 0 then (q.eventQueueDelete type).1 else q
  q.scheduleDelayedEventWithType timeout type delayedEvent supply

/-- `cancel_delayed_event`. -/
def cancelDelayedEvent (q : EventQueue) (event : Word) : EventQueue × ℤ :=
  if q.eventQueueGetPendingEvent &&& event ≠ 0 then q.eventQueueDelete event
  else (q, MblueErrcode.errInvalidParameter.toInt)

/-! ### Timers that expire -/

/-- `default_timer_event`: a message with the element's address, unless it cannot be sent. -/
def defaultTimerEvent (q : EventQueue) (param : ℕ) (sent : Bool) : Except Fault EventQueue := do
  let ele ← q.deref param
  .ok (if sent then { q with wakeups := q.wakeups ++ [⟨makePointerS ele.addr, ele.serial⟩] } else q)

/-- The timer `id` of the operating system expires, if it is armed. -/
def timerExpires (q : EventQueue) (id : ℕ) (sent : Bool) : Except Fault EventQueue :=
  match q.timers.os id with
  | none => .ok q
  | some k =>
    if k.spec.Armed then
      match q.timers.timerNotify k.sivalPtr with
      | none => .ok { q with timers := q.timers.expire id k }
      | some param => defaultTimerEvent { q with timers := q.timers.expire id k } param sent
    else .ok q

end EventQueue

/-! ### Callbacks -/

/-- What happens to the queue while a callback runs. -/
inductive CallbackAction
  | cancel (event : Word)
  | schedule (timeout type : Word) (delayedEvent : Option Callback) (supply : Supply)
  | reschedule (timeout type : Word) (delayedEvent : Option Callback) (supply : Supply)
  /-- A timer expires meanwhile. -/
  | expires (id : ℕ) (sent : Bool)
  deriving DecidableEq, Repr

/-- One run of a callback. -/
structure Behaviour where
  actions : List CallbackAction
  ret : ℤ
  deriving DecidableEq, Repr

namespace EventQueue

/-- One action, with what the helper returns. -/
def perform (q : EventQueue) : CallbackAction → Except Fault (EventQueue × ℤ)
  | .cancel event => .ok (q.cancelDelayedEvent event)
  | .schedule timeout type delayedEvent supply =>
    q.scheduleDelayedEventWithType timeout type delayedEvent supply
  | .reschedule timeout type delayedEvent supply =>
    q.rescheduleDelayedEventWithType timeout type delayedEvent supply
  | .expires id sent => do
    let q ← q.timerExpires id sent
    .ok (q, MblueErrcode.ok.toInt)

/-- All actions of a callback. -/
def performAll (q : EventQueue) : List CallbackAction → Except Fault EventQueue
  | [] => .ok q
  | a :: as => do
    let (q, _) ← q.perform a
    q.performAll as

/-- The callbacks of a wake-up: `CALL_WAKEUP` with what it asks for next, or else `CALL_FINISH`, or
else `CALL_CANCEL`. An element without any of them has had its event. -/
def callHandlers (q : EventQueue) (ele : Queued) (first second : Behaviour) :
    Except Fault (EventQueue × ℤ) :=
  if ele.callChain.callWakeup.isSome then do
    let q ← q.performAll first.actions
    if 0 < first.ret then
      -- The element may be gone by now.
      let ele ← q.deref ele.serial
      let next ← ele.callChain.entry first.ret
      if next.isSome then
        let q ← q.performAll second.actions
        .ok (q, second.ret)
      else .ok (q, first.ret)
    else .ok (q, first.ret)
  else if ele.callChain.callFinish.isSome ∨ ele.callChain.callCancel.isSome then do
    let q ← q.performAll first.actions
    .ok (q, first.ret)
  else .ok (q, MblueErrcode.elementExit.toInt)

/-- What `event_queue_wakeup` makes of the last callback's return value. -/
def endWakeup (q : EventQueue) (serial : ℕ) (ret : ℤ) : Except Fault EventQueue :=
  if ret = MblueErrcode.elementExit.toInt then do
    let ele ← q.deref serial
    .ok (freeEventElement { q with eventBm := q.eventBm &&& ~~~ele.type } ele)
  else .ok q

/-- `event_queue_wakeup`, with what its callbacks do. -/
def eventQueueWakeup (q : EventQueue) (type : Word) (first second : Behaviour) :
    Except Fault (EventQueue × ℤ) :=
  if q.eventBm &&& type = 0 then .ok (q, MblueErrcode.errUnknown.toInt)
  else match q.queue.find? (·.type == type) with
    | none => .ok (q, MblueErrcode.ok.toInt)
    | some ele => do
      let (q, ret) ← q.callHandlers ele first second
      let q ← q.endWakeup ele.serial ret
      .ok (q, MblueErrcode.ok.toInt)

/-- `timer_wakeup`: the element is read at the address the message carries. -/
def timerWakeup (q : EventQueue) (data : Word) (first second : Behaviour) :
    Except Fault (EventQueue × ℤ) :=
  if pointerS data then
    match q.queue.find? (·.addr == getPointer data) with
    | none => .error .freedElement
    | some ele => do
      let (q, _) ← q.eventQueueWakeup ele.type first second
      .ok (q, MblueErrcode.ok.toInt)
  else .ok (q, MblueErrcode.ok.toInt)

/-- The segment handles the oldest wake-up. -/
def deliver (q : EventQueue) (first second : Behaviour) : Except Fault (EventQueue × ℤ) :=
  match q.wakeups with
  | [] => .ok (q, MblueErrcode.ok.toInt)
  | w :: rest => timerWakeup { q with wakeups := rest } w.param first second

end EventQueue

/-! ### The machine -/

/-- What a segment does with its event queue, and the timers. -/
inductive EventOp
  | add (element : EventQueueElement) (supply : Supply) (startRet : ℤ)
  | del (type : Word)
  | wakeup (type : Word) (first second : Behaviour)
  | addPendingEvent (type timeout msg data : Word) (start awaken cancel finish : Option Callback)
    (supply : Supply) (startRet : ℤ)
  | addSimplePendingEvent (type msg : Word) (finish : Option Callback) (supply : Supply)
  | scheduleEvent (type timeout data : Word) (delayedEvent : Option Callback) (supply : Supply)
  | scheduleDefaultEvent (timeout : Word) (delayedEvent : Option Callback) (supply : Supply)
  /-- A cancellation, a scheduling or rescheduling, or a timer that expires. -/
  | act (a : CallbackAction)
  /-- The segment's task takes a `MBLUE_TIMER_WAKEUP` from its queue and handles it. -/
  | deliver (first second : Behaviour)
  deriving DecidableEq, Repr

/-- One operation, with the code it returns. -/
def EventQueue.apply (q : EventQueue) : EventOp → Except Fault (EventQueue × ℤ)
  | .add element supply startRet => q.eventQueueAdd element supply startRet
  | .del type => .ok (q.eventQueueDelete type)
  | .wakeup type first second => q.eventQueueWakeup type first second
  | .addPendingEvent type timeout msg data start awaken cancel finish supply startRet =>
    q.addPendingEvent type timeout msg data start awaken cancel finish supply startRet
  | .addSimplePendingEvent type msg finish supply => q.addSimplePendingEvent type msg finish supply
  | .scheduleEvent type timeout data delayedEvent supply =>
    q.scheduleEvent type timeout data delayedEvent supply
  | .scheduleDefaultEvent timeout delayedEvent supply =>
    q.scheduleDefaultEvent timeout delayedEvent supply
  | .act a => q.perform a
  | .deliver first second => q.deliver first second

/-- The step function of the machine: an operation with undefined behaviour has no result. -/
def EventQueue.step (q : EventQueue) (op : EventOp) : Option EventQueue :=
  match q.apply op with
  | .error _ => none
  | .ok (q, _) => some q

/-- The timer an added element comes with. -/
def EventOp.tick : EventOp → Option TimerId
  | .add element _ _ => element.tick
  | _ => none

/-- An operation whose element, if it adds one, comes with `tick` set to `NULL`. -/
def EventOp.TickNull (op : EventOp) : Prop := op.tick = none

instance instDecidableTickNull (op : EventOp) : Decidable op.TickNull :=
  inferInstanceAs (Decidable (op.tick = none))

end Mblue
