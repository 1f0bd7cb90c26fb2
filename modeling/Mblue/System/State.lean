import Mblue.Message.Basic
import Mblue.Schema.PbSchema

/-!
# The state of the message system

What the tasks share (`Shared`): the message pool and the sequence counter, each task's queue and
semaphores, the publish and call lists of the system bus, the payload blocks on the heap and the
return cells on the callers' stacks. What is fixed once the segments are bound (`Config`): which
task runs which segment, the registered segments and the handler tables.

Some fields are **history**: they are written beside the fields of the program and no operation
reads them. `draws` counts the sequence numbers drawn; a token of `callSem` remembers the call whose
answer posted it; a `Cell` remembers the call it belongs to and what was written through it; `trace`
lists what happened, the latest last.

The operations of the source that are one critical section, or touch only what their task owns, are
functions on `Shared` here. Each comes with the lemmas that say which fields it leaves alone.
-/

namespace Mblue

variable {ι σ : Type}

/-! ### Configuration -/

/-- `struct handler_item`; a null handler is the word `0`. -/
structure HandlerItem where
  id : ℕ
  handler : Word
  deriving DecidableEq, Repr

/-- The search both default handlers make in an `items_array`, up to its end item. -/
def findHandler (items : List HandlerItem) (minor : ℕ) : Option Word :=
  (items.find? (·.id == minor)).map (·.handler)

/-- The system after its segments are bound to their tasks: `ι` are the threads, tasks and others
(a timer signal, the main thread), `σ` the segments. -/
structure Config (ι σ : Type) where
  /-- The thread is a task, so that `get_current_context` returns it. -/
  isTask : ι → Bool
  /-- `ipc->main_task`. -/
  busTask : ι
  /-- The segment of the system bus service. -/
  bus : σ
  /-- `ms->major`. -/
  major : σ → Major
  /-- `ms->context`. -/
  context : σ → Option ι
  /-- `bus->_segment_node[major].ms`. -/
  node : Major → Option σ
  /-- `task->mq->capacity`. -/
  capacity : ι → ℕ
  /-- `ms->items_array[SIGNAL]`. -/
  signalItems : σ → List HandlerItem
  /-- `ms->items_array[SYNC_CALL]`. -/
  ipcItems : σ → List HandlerItem
  /-- The bus segment is bound to the bus task. -/
  context_bus : context bus = some busTask
  /-- `MBLUE_BUS` is the bus segment's number. -/
  major_bus : major bus = mblueBus
  /-- `bus_register` stores a segment under its own number. -/
  node_major : ∀ {m : Major} {ms : σ}, node m = some ms → major ms = m

namespace Config

variable (cfg : Config ι σ)

/-- `get_current_context`. -/
def getCurrentContext (i : ι) : Source ι := if cfg.isTask i then .task i else .null

/-- `find_ipc_handler_from_service`; the null pointer when there is none. -/
def findIpcHandlerFromService (ms : σ) (minor : ℕ) : Word :=
  (findHandler (cfg.ipcItems ms) minor).getD 0

end Config

/-! ### Records -/

/-- `struct pending_call`. -/
structure PendingCall where
  msg : MsgId
  callType : MessageType
  notifier : Option NotifierId
  deriving DecidableEq, Repr

/-- An activation of `mblue_remote_call`: the variable `out`, and the history of the call. -/
structure Cell (ι : Type) where
  /-- The variable `out`; `none` is its uninitialised value. -/
  out : Option Word
  /-- History: the thread that called. -/
  caller : ι
  /-- History: the major number called. -/
  major : Major
  /-- History: the sequence number drawn for the request. -/
  seq : Uint16
  /-- History: major number, sequence number and payload of every return processed for it. -/
  answers : List (Major × Uint16 × Word)
  /-- History: the call whose answer posted the token the caller's pend took. -/
  token : Option CellId
  /-- History: the value `mblue_remote_call` returned. -/
  result : Option (Option Word)
  /-- History: something was written through the cell after the call had returned. -/
  late : Bool
  deriving DecidableEq, Repr

/-- What the trace records. -/
inductive Event (ι σ : Type)
  /-- A thread draws the number of a broadcast signal. -/
  | broadcast (i : ι) (draw : ℕ) (major : Major)
  /-- `bus_subscribe` has appended the segment to the publish list. -/
  | subscribed (ms : σ) (major : Major)
  /-- `bus_signal` starts on a signal and finds this publish list. -/
  | relayed (draw : ℕ) (major : Major) (subs : List σ)
  /-- `bus_signal` has made a replica. -/
  | replica (original copy : Message ι σ)
  /-- `default_signal_handler` of a segment starts on a signal. -/
  | handled (ms : σ) (draw : ℕ)
  /-- The signal handler of the segment is called with this payload. -/
  | called (ms : σ) (draw : ℕ) (payload : Word)
  /-- `mblue_free` of a payload block, by the handler of the message with this number. -/
  | freed (draw : ℕ) (payload : Word)
  /-- `bus_call` has linked a pending call. -/
  | linked (major : Major) (e : PendingCall) (seq : Uint16)
  /-- `bus_call_return` writes through a return cell. -/
  | wrote (c : CellId) (value : Word)
  /-- `tpost` of a task's `call_sem`, for the call with this cell. -/
  | posted (t : ι) (c : CellId)
  /-- A notifier is called. -/
  | notified (p : NotifierId) (payload : Word)
  /-- A notifier is freed. -/
  | notifierFreed (p : NotifierId)
  /-- `bus_call_return` is done with a pending call: it has released the request, and unlinks it. -/
  | unlinked (major : Major) (e : PendingCall)
  deriving DecidableEq, Repr

/-- What the threads share. -/
structure Shared (ι σ : Type) where
  /-- `mlist->count`. -/
  count : ℕ
  /-- `mlist->msg_list`, the free messages. -/
  msgList : List MsgId
  /-- `mlist->mblue_message_pool`. -/
  pool : MsgId → Message ι σ
  /-- `sequence`. -/
  sequence : Uint16
  /-- The contents of `task->mq`, the oldest first. -/
  mq : ι → List MsgId
  /-- The count of `task->msg_sem`. -/
  msgSem : ι → ℕ
  /-- The tokens of `task->call_sem`. -/
  callSem : ι → List CellId
  /-- `bus->_segment_node[major].publish_list`. -/
  publishList : Major → List σ
  /-- `bus->_segment_node[major].call_list`. -/
  callList : Major → List PendingCall
  /-- The payload blocks on the heap. -/
  heap : Word → Option (List UInt8)
  /-- The activations of `mblue_remote_call` so far. -/
  cells : CellId → Cell ι
  ncells : ℕ
  /-- The notifiers allocated so far. -/
  notifiers : ℕ
  /-- History: the sequence numbers drawn so far. -/
  draws : ℕ
  /-- History: what happened. -/
  trace : List (Event ι σ)

/-! ### Sending -/

/-- The arguments of `send_message`; `draw` is the history of `seq`. -/
structure SendArgs (ι σ : Type) where
  src : Source ι
  seq : Uint16
  type : MessageType
  major : Major
  minor : Uint16
  dst : Option σ
  input : Word
  out : Option CellId
  extra : Option σ
  pn : Option NotifierId
  draw : ℕ
  deriving DecidableEq, Repr

/-- The union member `init_message` leaves in the message. -/
def SendArgs.aux (a : SendArgs ι σ) : Aux σ :=
  match a.type with
  | .syncCall => a.out.elim .null .ipcReturn
  | .asyncCall => a.pn.elim .null .pn
  | _ => a.extra.elim .null .extra

/-- `init_message` on a message just allocated, and the destination `ipc_invoke` fills in when there
is none: the bus segment. -/
def initMessage (cfg : Config ι σ) (a : SendArgs ι σ) : Message ι σ where
  seq := a.seq
  ref := if a.type.isCall then 1 else 0
  code := mkCode a.type a.major a.minor
  src := a.src
  dst := some (a.dst.getD cfg.bus)
  smartPayload := a.input
  aux := a.aux
  draw := a.draw

/-! ### Operations -/

namespace Shared

variable [DecidableEq ι] (sh : Shared ι σ)

/-- `mblue_message_init`, and nothing queued, pending or subscribed. -/
def init (z : ι) : Shared ι σ where
  count := mblueMaxMessageNum
  msgList := List.finRange mblueMaxMessageNum
  pool := fun _ ↦ .zero
  sequence := 0
  mq := fun _ ↦ []
  msgSem := fun _ ↦ 0
  callSem := fun _ ↦ []
  publishList := fun _ ↦ []
  callList := fun _ ↦ []
  heap := fun _ ↦ none
  cells := fun _ ↦ ⟨none, z, mblueBus, 0, [], none, none, false⟩
  ncells := 0
  notifiers := 0
  draws := 0
  trace := []

/-- Record an event. -/
def log (e : Event ι σ) : Shared ι σ := { sh with trace := sh.trace ++ [e] }

/-- `mblue_message_get_sequence`, as one step: the source returns what it reads from the counter after
its critical section. -/
def getSequence : Shared ι σ :=
  { sh with sequence := mblueMessageGetSequence sh.sequence, draws := sh.draws + 1 }

/-- `mblue_message_alloc`: the first free message, if the count says there is one. What is written
into it before anyone else can see it comes with it. -/
def alloc (content : Message ι σ) : Option (MsgId × Shared ι σ) :=
  match sh.msgList with
  | m :: rest =>
    if sh.count = 0 then none
    else some (m, { sh with
      count := sh.count - 1, msgList := rest, pool := Function.update sh.pool m content })
  | [] => none

/-- `mblue_message_release`. -/
def release (m : MsgId) : Shared ι σ :=
  let ref := putMblueMessage (sh.pool m).ref
  let msg := { sh.pool m with ref := ref }
  let sh := { sh with pool := Function.update sh.pool m msg }
  if ref = 0 then { sh with msgList := sh.msgList ++ [m], count := sh.count + 1 } else sh

/-- `queue_add` on a task's queue: `none` when the queue is full. -/
def queueAdd (cfg : Config ι σ) (t : ι) (m : MsgId) : Option (Shared ι σ) :=
  if cfg.capacity t ≤ (sh.mq t).length then none
  else some { sh with mq := Function.update sh.mq t (sh.mq t ++ [m]) }

/-- `get_mblue_message` and the new destination, by which `bus_call` passes a request on. -/
def forward (m : MsgId) (ms : σ) : Shared ι σ :=
  let msg := { sh.pool m with ref := getMblueMessage (sh.pool m).ref, dst := some ms }
  { sh with pool := Function.update sh.pool m msg }

/-- `list_add_tail` on a call list. -/
def link (major : Major) (e : PendingCall) : Shared ι σ :=
  { sh with callList := Function.update sh.callList major (sh.callList major ++ [e]) }

/-- `list_del` on a call list. -/
def unlink (major : Major) (e : PendingCall) : Shared ι σ :=
  { sh with callList := Function.update sh.callList major ((sh.callList major).erase e) }

/-- `list_add_tail` on a publish list. -/
def subscribe (ms : σ) (major : Major) : Shared ι σ :=
  { sh with publishList := Function.update sh.publishList major (sh.publishList major ++ [ms]) }

/-- A new activation of `mblue_remote_call`. -/
def newCell (caller : ι) (major : Major) (seq : Uint16) : Shared ι σ :=
  { sh with
    cells := Function.update sh.cells sh.ncells ⟨none, caller, major, seq, [], none, none, false⟩
    ncells := sh.ncells + 1 }

/-- `*p = q` on a return cell, with its history. -/
def writeCell (c : CellId) (major : Major) (seq : Uint16) (value : Word) : Shared ι σ :=
  let cell := { sh.cells c with
    out := some value
    answers := (sh.cells c).answers ++ [(major, seq, value)]
    late := (sh.cells c).late || (sh.cells c).result.isSome }
  { sh with cells := Function.update sh.cells c cell }

/-- The caller's pend took a token. -/
def takeToken (c d : CellId) : Shared ι σ :=
  { sh with cells := Function.update sh.cells c { sh.cells c with token := some d } }

/-- `return out`. -/
def returnCell (c : CellId) : Shared ι σ :=
  { sh with cells := Function.update sh.cells c { sh.cells c with result := some (sh.cells c).out } }

/-- `mblue_malloc` of a payload block. -/
def mallocPayload (p : Word) (block : List UInt8) : Shared ι σ :=
  { sh with heap := Function.update sh.heap p (some block) }

/-- `mblue_free` of a payload block. -/
def freePayload (p : Word) : Shared ι σ := { sh with heap := Function.update sh.heap p none }

end Shared

end Mblue
