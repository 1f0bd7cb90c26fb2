import Mblue.Library.Threads
import Mblue.System.State

/-!
# The threads of the message system

The program as an interleaving machine: what each thread has left to do is a list of commands, one
atomic step executes the first. A command is a stretch of the source that is one critical section,
or that touches only what its thread owns; the commands it expands to are the rest of the function.

`Cmd` lists the stretches. A task's list ends with `templateProc`, the loop of `template_proc`,
which puts `remove` and the handler in front of itself; user code (an application, a service's or a
signal's handler, a notifier, the body of `LOGGER`) is one command that calls the functions of
`ipc_helper.h` as often as it likes and then finishes. What the environment decides is the `Choice`.

A step that is not possible is `none`: the thread blocks on a semaphore, or the source has no
defined behaviour there (a null pointer is followed, an array is left, `memcpy` copies into the
replica that `mblue_message_alloc` did not return).
-/

namespace Mblue

variable {ι σ : Type}

/-! ### Commands -/

/-- User code, by where it is called from. -/
inductive UserCode (ι σ : Type)
  /-- A task's `on_create`, or a thread that is no task. -/
  | app
  /-- `log_service_write`, the body of `LOGGER`. -/
  | log
  /-- A handler in a segment's signal table. -/
  | signal (ms : σ) (m : MsgId)
  /-- A handler in a service's table, called by the layout's parser. -/
  | service (ms : σ) (m : MsgId) (handler : Word) (args : List HandlerArg)
  /-- The notifier of an asynchronous call. -/
  | notify (p : NotifierId) (payload : Word)
  deriving DecidableEq, Repr

/-- What a thread has to do next. -/
inductive Cmd (ι σ : Type)
  /-- The loop of `template_proc`, at the pend on `msg_sem`. -/
  | templateProc
  /-- `mq->remove` and the choice of the handler. -/
  | remove
  | userCode (k : UserCode ι σ)
  /-- `send_message`, from the allocation to the call of `nproc`. -/
  | send (a : SendArgs ι σ)
  /-- `mq->add` in `template_msg_post`. -/
  | post (t : ι) (m : MsgId)
  /-- `sem->post` in `template_msg_post`. -/
  | semPost (t : ι)
  /-- The test of `GET_TYPE(msg)` in `ipc_invoke`, after the post; `c` is the cell of the call. -/
  | syncCheck (m : MsgId) (c : Option CellId)
  /-- `src->tpend` in `ipc_invoke`. -/
  | tpend (t : ι) (c : Option CellId)
  /-- `return out` in `mblue_remote_call`. -/
  | remoteReturn (c : CellId)
  | handleSubscribe (m : MsgId)
  | busSubscribe (ms : σ) (major : Major)
  | busSignal (m : MsgId)
  /-- The loop of `bus_signal` over the rest of the publish list. -/
  | busSignalLoop (m : MsgId) (subs : List σ)
  | busCall (m : MsgId)
  | busCallReturn (m : MsgId)
  /-- `task->tpost` in `bus_call_return`, for the call with cell `c`. -/
  | tpost (t : ι) (c : CellId)
  /-- `mblue_free(notifier)` in `bus_call_return`. -/
  | freeNotifier (p : NotifierId)
  /-- The end of a match in `bus_call_return`: `mblue_message_release(smsg)`. -/
  | complete (major : Major) (e : PendingCall)
  /-- `list_del` of the entry, after that. -/
  | unlink (major : Major) (e : PendingCall)
  /-- `mblue_message_release`. -/
  | release (m : MsgId)
  /-- `default_signal_handler`. -/
  | signalHandler (ms : σ) (m : MsgId)
  /-- `default_ipc_handler`. -/
  | ipcHandler (ms : σ) (m : MsgId)
  /-- The end of both default handlers: free the payload, release the message. -/
  | finish (m : MsgId)
  deriving DecidableEq, Repr

/-- The functions and macros of `ipc_helper.h` that user code calls. -/
inductive Api (ι σ : Type)
  | mblueSubscribe (ms : σ) (major : Major)
  | mblueRemoteCall (major : Major) (minor : Uint16) (input : Word)
  | mblueRemoteCallAsync (major : Major) (minor : Uint16) (input : Word)
  /-- `send_message` of an `ASYNC_CALL` without a notifier. -/
  | sendAsyncCall (major : Major) (minor : Uint16) (input : Word)
  | targetSignal (source : Source ι) (major : Major) (minor : Uint16) (dest : Option σ)
      (data : Word) (extra : Option σ)
  | broadcastSignal (major : Major) (minor : Uint16) (data : Word)
  | broadcastSignalWithContext (c : Source ι) (major : Major) (minor : Uint16) (data : Word)
  | ipcReturn (major : Major) (seq : Uint16) (data : Word)
  deriving DecidableEq, Repr

/-- What the environment decides about a step. -/
inductive Choice (ι σ : Type)
  /-- Everything succeeds. -/
  | go
  /-- The wait is interrupted, or the allocation fails; for user code, a call of
  `mblue_remote_call_async` that finds no memory for its notifier. -/
  | fail
  /-- User code allocates a payload block. -/
  | malloc (p : Word) (block : List UInt8)
  /-- User code calls a function. -/
  | api (a : Api ι σ)
  /-- User code returns a value. -/
  | finish (w : Word)
  deriving DecidableEq, Repr

/-! ### Calls of `send_message` -/

/-- A request or a signal, with the sequence number just drawn. -/
def drawnArgs (sh : Shared ι σ) (src : Source ι) (type : MessageType) (major : Major)
    (minor : Uint16) (dst : Option σ) (input : Word) (extra : Option σ) : SendArgs ι σ where
  src := src
  seq := mblueMessageGetSequence sh.sequence
  type := type
  major := major
  minor := minor
  dst := dst
  input := input
  out := none
  extra := extra
  pn := none
  draw := sh.draws + 1

/-- The arguments of the macro `ipc_return`. -/
def ipcReturnArgs (cfg : Config ι σ) (i : ι) (major : Major) (seq : Uint16) (data : Word) :
    SendArgs ι σ where
  src := cfg.getCurrentContext i
  seq := seq
  type := .callReturn
  major := major
  minor := 0
  dst := none
  input := data
  out := none
  extra := none
  pn := none
  draw := 0

/-- `ms->get_context(ms)` as a message's source. -/
def contextSource (cfg : Config ι σ) (ms : σ) : Source ι :=
  match cfg.context ms with
  | some t => .task t
  | none => .null

section Run

variable [DecidableEq ι] [DecidableEq σ] (cfg : Config ι σ) (i : ι)

/-- A call of one of the functions, up to `send_message`: it draws its sequence number, and a remote
call sets up its return cell or its notifier. -/
def callApi (sh : Shared ι σ) : Api ι σ → Shared ι σ × List (Cmd ι σ)
  | .mblueSubscribe ms major =>
    (sh.getSequence,
      [.send (drawnArgs sh (contextSource cfg ms) .subscribe major 0 none 0 (some ms))])
  | .mblueRemoteCall major minor input =>
    let a := { drawnArgs sh (cfg.getCurrentContext i) .syncCall major minor none input none with
      out := some sh.ncells }
    (sh.getSequence.newCell i major a.seq, [.send a, .remoteReturn sh.ncells])
  | .mblueRemoteCallAsync major minor input =>
    let a := { drawnArgs sh (cfg.getCurrentContext i) .asyncCall major minor none input none with
      pn := some sh.notifiers }
    ({ sh.getSequence with notifiers := sh.notifiers + 1 }, [.send a])
  | .sendAsyncCall major minor input =>
    (sh.getSequence,
      [.send (drawnArgs sh (cfg.getCurrentContext i) .asyncCall major minor none input none)])
  | .targetSignal source major minor dest data extra =>
    ((if dest = none then sh.getSequence.log (.broadcast i (sh.draws + 1) major)
      else sh.getSequence),
      [.send (drawnArgs sh source .signal major minor dest data extra)])
  | .broadcastSignal major minor data =>
    (sh.getSequence.log (.broadcast i (sh.draws + 1) major),
      [.send (drawnArgs sh (cfg.getCurrentContext i) .signal major minor none data none)])
  | .broadcastSignalWithContext c major minor data =>
    (sh.getSequence.log (.broadcast i (sh.draws + 1) major),
      [.send (drawnArgs sh c .signal major minor none data none)])
  | .ipcReturn major seq data => (sh, [.send (ipcReturnArgs cfg i major seq data)])

/-- User code may call every function, `log_service_write` only makes an asynchronous call of the
log service. -/
def mayCall : UserCode ι σ → Api ι σ → Bool
  | .log, .mblueRemoteCallAsync major _ _ => major == mblueLogService
  | .log, _ => false
  | _, _ => true

/-- The answer of `default_ipc_handler` to the word `w` of the handler or the parser: no return when
it is `MBLUE_REMOTE_CALL_PENDING`, an `ipc_return` otherwise. -/
def answerRequest (msg : Message ι σ) (m : MsgId) (w : Word) : Option (List (Cmd ι σ)) :=
  if integerP w && toErrcode (getInteger w) == MblueErrcode.remoteCallPending.toInt then
    some [.finish m]
  else msg.major.map fun major ↦ [.send (ipcReturnArgs cfg i major msg.seq w), .finish m]

/-- Where user code returns to. -/
def finishUserCode (sh : Shared ι σ) (w : Word) : UserCode ι σ → Option (List (Cmd ι σ))
  | .app => some []
  | .log => some []
  | .signal _ m => some [.finish m]
  | .service _ m _ _ => answerRequest cfg i (sh.pool m) m w
  | .notify _ _ => some []

/-- User code: it allocates a payload block, calls a function, or returns. An asynchronous call
without memory for its notifier does nothing. -/
def runUserCode (k : UserCode ι σ) (a : Choice ι σ) (sh : Shared ι σ) :
    Option (Shared ι σ × List (Cmd ι σ)) :=
  match a with
  | .malloc p block =>
    if pbPayload p ∧ sh.heap p = none then some (sh.mallocPayload p block, [.userCode k]) else none
  | .api f =>
    if mayCall k f then some ((callApi cfg i sh f).1, (callApi cfg i sh f).2 ++ [.userCode k])
    else none
  | .finish w => (finishUserCode cfg i sh w k).map fun cs ↦ (sh, cs)
  | .fail => some (sh, [.userCode k])
  | .go => none

/-- The loop of `template_proc`: an interrupted wait is repeated. -/
def runTemplateProc (a : Choice ι σ) (sh : Shared ι σ) : Option (Shared ι σ × List (Cmd ι σ)) :=
  match a with
  | .fail => some (sh, [.templateProc])
  | .go =>
    if sh.msgSem i = 0 then none
    else some ({ sh with msgSem := Function.update sh.msgSem i (sh.msgSem i - 1) },
      [.remove, .templateProc])
  | _ => none

/-- `ms->get_handler(ms, type)`: the bus service has its own handlers, other segments the default
ones. -/
def getHandler (ms : σ) (m : MsgId) : MessageType → Option (Cmd ι σ)
  | .subscribe => if ms = cfg.bus then some (.handleSubscribe m) else none
  | .signal => if ms = cfg.bus then some (.busSignal m) else some (.signalHandler ms m)
  | .syncCall | .asyncCall => if ms = cfg.bus then some (.busCall m) else some (.ipcHandler ms m)
  | .callReturn => if ms = cfg.bus then some (.busCallReturn m) else none

/-- `mq->remove`, and the handler of the message's destination for its type. -/
def runRemove (sh : Shared ι σ) : Option (Shared ι σ × List (Cmd ι σ)) :=
  match sh.mq i with
  | [] => none
  | m :: rest => do
    let ms ← (sh.pool m).dst
    let type ← (sh.pool m).type
    let handler ← getHandler cfg ms m type
    some ({ sh with mq := Function.update sh.mq i rest }, [handler])

/-- `send_message`: allocate and fill a message, and post it to its destination's task. -/
def runSend (a : SendArgs ι σ) (sh : Shared ι σ) : Option (Shared ι σ × List (Cmd ι σ)) :=
  match sh.alloc (initMessage cfg a) with
  | none => some (sh, [])
  | some (m, sh') =>
    (cfg.context (a.dst.getD cfg.bus)).map fun t ↦ (sh', [.post t m, .syncCheck m a.out])

/-- `template_msg_post`: a full queue drops the message, and nobody is told. -/
def runPost (t : ι) (m : MsgId) (sh : Shared ι σ) : Option (Shared ι σ × List (Cmd ι σ)) :=
  match sh.queueAdd cfg t m with
  | none => some (sh, [])
  | some sh' => some (sh', [.semPost t])

/-- The end of `ipc_invoke`: the type and the source are read from the message, which the sender no
longer owns. -/
def runSyncCheck (m : MsgId) (c : Option CellId) (sh : Shared ι σ) :
    Option (Shared ι σ × List (Cmd ι σ)) :=
  if (sh.pool m).type = some .syncCall then
    match (sh.pool m).src with
    | .null => some (sh, [])
    | .task t => some (sh, [.tpend t c])
    | .system _ => none
  else some (sh, [])

/-- `template_pend` on a task's `call_sem`; an interrupted wait is not repeated. -/
def runTpend (t : ι) (c : Option CellId) (a : Choice ι σ) (sh : Shared ι σ) :
    Option (Shared ι σ × List (Cmd ι σ)) :=
  match a with
  | .fail => some (sh, [])
  | .go =>
    match sh.callSem t with
    | [] => none
    | d :: rest =>
      let sh' := { sh with callSem := Function.update sh.callSem t rest }
      some (c.elim sh' (sh'.takeToken · d), [])
  | _ => none

/-- `handle_subscribe`: the message is released before its segment is subscribed. -/
def runHandleSubscribe (m : MsgId) (sh : Shared ι σ) : Option (Shared ι σ × List (Cmd ι σ)) :=
  match (sh.pool m).aux, (sh.pool m).major with
  | .extra ms, some major => some (sh.release m, [.busSubscribe ms major])
  | _, _ => none

/-- `bus_subscribe`; it writes into the `subscriber_info` it allocates without a look at the
pointer. -/
def runBusSubscribe (ms : σ) (major : Major) (a : Choice ι σ) (sh : Shared ι σ) :
    Option (Shared ι σ × List (Cmd ι σ)) :=
  match a with
  | .fail => none
  | _ => some ((sh.subscribe ms major).log (.subscribed ms major), [])

/-- `bus_signal`, before its loop. -/
def runBusSignal (m : MsgId) (sh : Shared ι σ) : Option (Shared ι σ × List (Cmd ι σ)) :=
  (sh.pool m).major.map fun major ↦
    let subs := sh.publishList major
    let sh' := sh.log (.relayed (sh.pool m).draw major subs)
    if subs = [] then (sh', [.userCode .log, .release m]) else (sh', [.busSignalLoop m subs])

/-- The replica `bus_signal` makes of a message for a subscriber. -/
def replicate (msg : Message ι σ) (ms : σ) : Message ι σ :=
  { msg with ref := getMblueMessage msg.ref, dst := some ms }

/-- One round of the loop of `bus_signal`. -/
def runBusSignalLoop (m : MsgId) (subs : List σ) (sh : Shared ι σ) :
    Option (Shared ι σ × List (Cmd ι σ)) :=
  match subs with
  | [] => some (sh, [.release m])
  | ms :: rest =>
    match cfg.context ms with
    | none => some (sh, [.busSignalLoop m rest])
    | some t =>
      (sh.alloc (replicate (sh.pool m) ms)).map fun (r, sh') ↦
        (sh'.log (.replica (sh.pool m) (replicate (sh.pool m) ms)),
          [.post t r, .busSignalLoop m rest])

/-- The entry `bus_call` links for a request, if any: none for an asynchronous call without
notifier. -/
def pendingCall (msg : Message ι σ) (m : MsgId) : Option PendingCall :=
  match msg.type, msg.aux with
  | some .asyncCall, .null => none
  | some .asyncCall, .pn p => some ⟨m, .asyncCall, some p⟩
  | some type, _ => some ⟨m, type, none⟩
  | none, _ => none

/-- `bus_call`; the choice says whether the entry's allocation fails. The early exits keep the
message. -/
def runBusCall (m : MsgId) (a : Choice ι σ) (sh : Shared ι σ) :
    Option (Shared ι σ × List (Cmd ι σ)) :=
  (sh.pool m).major.bind fun major ↦
    match (cfg.node major).bind fun ms ↦ (cfg.context ms).map fun t ↦ (ms, t) with
    | none => some (sh, [.userCode .log])
    | some (ms, t) =>
      match pendingCall (sh.pool m) m with
      | none => some (sh.forward m ms, [.post t m])
      | some e =>
        match a with
        | .fail => some (sh, [.userCode .log])
        | _ => some (((sh.link major e).log (.linked major e (sh.pool m).seq)).forward m ms,
          [.post t m])

/-- `bus_call_return`: the first entry with the return's sequence number is answered. -/
def runBusCallReturn (d : MsgId) (sh : Shared ι σ) : Option (Shared ι σ × List (Cmd ι σ)) :=
  (sh.pool d).major.bind fun major ↦
    if sh.callList major = [] then some (sh, [.userCode .log, .release d])
    else
      match (sh.callList major).find? fun e ↦ (sh.pool e.msg).seq == (sh.pool d).seq with
      | none => some (sh, [.release d])
      | some e =>
        match e.callType with
        | .syncCall =>
          match (sh.pool e.msg).src, (sh.pool e.msg).aux with
          | .null, _ => some (sh, [.complete major e, .release d])
          | .task t, .ipcReturn c =>
            let w := (sh.pool d).smartPayload
            some ((sh.writeCell c major (sh.pool d).seq w).log (.wrote c w),
              [.tpost t c, .complete major e, .release d])
          | _, _ => none
        | .asyncCall =>
          e.notifier.map fun p ↦
            (sh.log (.notified p (sh.pool d).smartPayload),
              [.userCode (.notify p (sh.pool d).smartPayload), .freeNotifier p, .complete major e,
                .release d])
        | _ => some (sh, [.complete major e, .release d])

/-- `default_signal_handler`, up to the call of the handler. -/
def runSignalHandler (ms : σ) (m : MsgId) (sh : Shared ι σ) :
    Option (Shared ι σ × List (Cmd ι σ)) :=
  let sh' := sh.log (.handled ms (sh.pool m).draw)
  match findHandler (cfg.signalItems ms) (sh.pool m).minor with
  | none => some (sh', [.finish m])
  | some h =>
    if h = 0 then none
    else some (sh'.log (.called ms (sh.pool m).draw (sh.pool m).smartPayload),
      [.userCode (.signal ms m)])

/-- The block behind a message's payload: `some none` when the payload is no block, `none` when the
block is gone. -/
def payloadBlock (msg : Message ι σ) (sh : Shared ι σ) : Option (Option (List UInt8)) :=
  if pbPayload msg.smartPayload then (sh.heap msg.smartPayload).map some else some none

/-- `default_ipc_handler`, up to the call of the handler. -/
def runIpcHandler (ms : σ) (m : MsgId) (sh : Shared ι σ) : Option (Shared ι σ × List (Cmd ι σ)) :=
  (payloadBlock (sh.pool m) sh).bind fun payload ↦
    let ipcFunc := cfg.findIpcHandlerFromService ms (sh.pool m).minor
    match readRequest payload ipcFunc with
    | .ok .headerFailed => some (sh, [])
    | .ok .noHandler => some (sh, [.finish m])
    | .ok (.parsed (.ret w)) => (answerRequest cfg i (sh.pool m) m w).map fun cs ↦ (sh, cs)
    | .ok (.parsed (.call args)) => some (sh, [.userCode (.service ms m ipcFunc args)])
    | .error _ => none

/-- The end of the default handlers. -/
def runFinish (m : MsgId) (sh : Shared ι σ) : Option (Shared ι σ × List (Cmd ι σ)) :=
  let p := (sh.pool m).smartPayload
  if pbPayload p then some ((sh.freePayload p).log (.freed (sh.pool m).draw p), [.release m])
  else some (sh, [.release m])

/-- One atomic step of thread `i`. -/
def runCmd (c : Cmd ι σ) (a : Choice ι σ) (sh : Shared ι σ) :
    Option (Shared ι σ × List (Cmd ι σ)) :=
  match c with
  | .templateProc => runTemplateProc i a sh
  | .remove => runRemove cfg i sh
  | .userCode k => runUserCode cfg i k a sh
  | .send args => runSend cfg args sh
  | .post t m => runPost cfg t m sh
  | .semPost t => some ({ sh with msgSem := Function.update sh.msgSem t (sh.msgSem t + 1) }, [])
  | .syncCheck m c => runSyncCheck m c sh
  | .tpend t c => runTpend t c a sh
  | .remoteReturn c => some (sh.returnCell c, [])
  | .handleSubscribe m => runHandleSubscribe m sh
  | .busSubscribe ms major => runBusSubscribe ms major a sh
  | .busSignal m => runBusSignal m sh
  | .busSignalLoop m subs => runBusSignalLoop cfg m subs sh
  | .busCall m => runBusCall cfg m a sh
  | .busCallReturn d => runBusCallReturn d sh
  | .tpost t c =>
    some ({ sh with callSem := Function.update sh.callSem t (sh.callSem t ++ [c]) }.log
      (.posted t c), [])
  | .freeNotifier p => some (sh.log (.notifierFreed p), [])
  | .complete major e => some ((sh.release e.msg).log (.unlinked major e), [.unlink major e])
  | .unlink major e => some (sh.unlink major e, [])
  | .release m => some (sh.release m, [])
  | .signalHandler ms m => runSignalHandler cfg ms m sh
  | .ipcHandler ms m => runIpcHandler cfg i ms m sh
  | .finish m => runFinish m sh

/-- The same, but for the end of a match in `bus_call_return`, which is one step. -/
def runFused (c : Cmd ι σ) (a : Choice ι σ) (sh : Shared ι σ) :
    Option (Shared ι σ × List (Cmd ι σ)) :=
  match c with
  | .complete major e => some (((sh.release e.msg).unlink major e).log (.unlinked major e), [])
  | .unlink _ _ => none
  | c => runCmd cfg i c a sh

end Run

/-! ### The system -/

/-- The message system as an interleaving machine. -/
def system [DecidableEq ι] [DecidableEq σ] (cfg : Config ι σ) :
    Machine ι (Shared ι σ) (Cmd ι σ) (Choice ι σ) where
  run := runCmd cfg

/-- The system with coarser steps, to which its runs are reduced (`System/Reduction.lean`): the
request of an answered call is released and its entry unlinked at once. -/
def fused [DecidableEq ι] [DecidableEq σ] (cfg : Config ι σ) :
    Machine ι (Shared ι σ) (Cmd ι σ) (Choice ι σ) where
  run := runFused cfg

/-- A state of the system. -/
abbrev State (ι σ : Type) := Snapshot ι (Shared ι σ) (Cmd ι σ)

/-- The first state: every task is in its `on_create`, and nothing has been sent. -/
def initial [DecidableEq ι] (cfg : Config ι σ) : State ι σ where
  shared := .init cfg.busTask
  threads := fun i ↦ if cfg.isTask i then [.userCode .app, .templateProc] else [.userCode .app]

/-! ### A small system -/

instance instNeZeroThree : NeZero (3 : ℕ) := ⟨by decide⟩

/-- A bus on task `0`, the log service on task `1` and an application's task `2`; the segments are
`true` for the bus and `false` for the service. -/
def Config.small (capacity : ℕ) (signalItems ipcItems : List HandlerItem) :
    Config (Fin 3) Bool where
  isTask _ := true
  busTask := 0
  bus := true
  major ms := if ms then mblueBus else mblueLogService
  context ms := some (if ms then 0 else 1)
  node m := if m = mblueBus then some true else if m = mblueLogService then some false else none
  capacity _ := capacity
  signalItems _ := signalItems
  ipcItems _ := ipcItems
  context_bus := rfl
  major_bus := rfl
  node_major := by
    intro m ms h
    split at h
    · next hm =>
      cases h
      exact hm.symm
    · split at h
      · next hm =>
        cases h
        exact hm.symm
      · cases h

end Mblue
