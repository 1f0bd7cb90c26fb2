import Mblue.System.Invariant

/-!
# What the trace says

The trace lists what has happened, the latest last, and it is read in three ways: what became of the
signals (`signalEvents`), of the payload blocks and the notifiers (`heapEvents`), and of the calls at
the bus (`callEvents`). For each there is a function that gives the events a command leaves:
`announced`, `emitted` and `Cmd.due`. `Effect.exists_told` is the one proof over all effects that
these functions are right.
-/

set_option linter.unusedSectionVars false

namespace Mblue

variable {ι σ : Type}

/-! ### Three readings -/

/-- The event says what became of a signal or of a subscription. -/
def Event.ofSignal : Event ι σ → Bool
  | .broadcast _ _ _ | .subscribed _ _ | .relayed _ _ _ | .replica _ _ | .handled _ _
  | .called _ _ _ | .freed _ _ => true
  | _ => false

/-- The event says that a payload block or a notifier was used or freed. -/
def Event.onHeap : Event ι σ → Bool
  | .freed _ _ | .notified _ _ | .notifierFreed _ => true
  | _ => false

/-- The event is about a call at the bus. -/
def Event.ofCall : Event ι σ → Bool
  | .linked _ _ _ | .wrote _ _ | .posted _ _ | .notified _ _ | .notifierFreed _ | .unlinked _ _ =>
    true
  | _ => false

/-- What happened to the signals. -/
def signalEvents (sh : Shared ι σ) : List (Event ι σ) := sh.trace.filter Event.ofSignal

/-- What happened to the payload blocks and the notifiers. -/
def heapEvents (sh : Shared ι σ) : List (Event ι σ) := sh.trace.filter Event.onHeap

/-- What has happened to the calls. -/
def callEvents (sh : Shared ι σ) : List (Event ι σ) := sh.trace.filter Event.ofCall

theorem heapEvents_congr {sh sh' : Shared ι σ} (h : sh'.trace = sh.trace) :
    heapEvents sh' = heapEvents sh := by
  rw [heapEvents, h, heapEvents]

/-- The number of the signal a function broadcasts. -/
def Api.broadcasts? : Api ι σ → Option Major
  | .targetSignal _ major _ none _ _ | .broadcastSignal major _ _
  | .broadcastSignalWithContext _ major _ _ => some major
  | _ => none

theorem trace_release [DecidableEq ι] (sh : Shared ι σ) (m : MsgId) :
    (sh.release m).trace = sh.trace := by
  unfold Shared.release
  dsimp only
  split <;> rfl

variable [DecidableEq ι] [DecidableEq σ]

/-! ### What a command leaves -/

/-- The events of a signal that a command leaves. -/
def announced (cfg : Config ι σ) (i : ι) (sh : Shared ι σ) :
    Cmd ι σ → Choice ι σ → List (Event ι σ)
  | .userCode _, .api f => f.broadcasts?.elim [] fun major ↦ [.broadcast i (sh.draws + 1) major]
  | .busSubscribe ms major, _ => [.subscribed ms major]
  | .busSignal m, _ => (sh.pool m).major.elim [] fun major ↦
    [.relayed (sh.pool m).draw major (sh.publishList major)]
  | .busSignalLoop m (ms :: _), _ =>
    if (cfg.context ms).isSome then [.replica (sh.pool m) (replicate (sh.pool m) ms)] else []
  | .signalHandler ms m, _ => .handled ms (sh.pool m).draw ::
    if (findHandler (cfg.signalItems ms) (sh.pool m).minor).isSome then
      [.called ms (sh.pool m).draw (sh.pool m).smartPayload]
    else []
  | .finish m, _ =>
    if pbPayload (sh.pool m).smartPayload then
      [.freed (sh.pool m).draw (sh.pool m).smartPayload]
    else []
  | _, _ => []

/-- The events of the heap that a command leaves when it is replaced by `cs`. -/
def emitted (sh : Shared ι σ) : Cmd ι σ → List (Cmd ι σ) → List (Event ι σ)
  | .finish m, _ =>
    if pbPayload (sh.pool m).smartPayload then
      [.freed (sh.pool m).draw (sh.pool m).smartPayload]
    else []
  | .busCallReturn _, .userCode (.notify p w) :: _ => [.notified p w]
  | .freeNotifier p, _ => [.notifierFreed p]
  | _, _ => []

omit [DecidableEq ι] [DecidableEq σ] in
/-- What a command does to the call it is for. -/
def Cmd.due : Cmd ι σ → List (Event ι σ)
  | .tpost t c => [.posted t c]
  | .freeNotifier p => [.notifierFreed p]
  | .complete major e => [.unlinked major e]
  | _ => []

variable {cfg : Config ι σ} {i : ι} {c : Cmd ι σ} {a : Choice ι σ} {sh sh' : Shared ι σ}
  {cs : List (Cmd ι σ)}

theorem trace_callApi (f : Api ι σ) : (callApi cfg i sh f).1.trace =
    sh.trace ++ f.broadcasts?.elim [] fun major ↦ [.broadcast i (sh.draws + 1) major] := by
  cases f with
  | targetSignal source major minor dest data extra =>
    cases dest with
    | none => rfl
    | some ms => exact (List.append_nil _).symm
  | broadcastSignal | broadcastSignalWithContext => rfl
  | _ => exact (List.append_nil _).symm

/-- The new events are what the three functions say. What `bus_call` and `bus_call_return` do to the
calls depends on what they find. -/
structure Told (cfg : Config ι σ) (i : ι) (c : Cmd ι σ) (a : Choice ι σ) (sh : Shared ι σ)
    (cs : List (Cmd ι σ)) (new : List (Event ι σ)) : Prop where
  ofSignal : new.filter Event.ofSignal = announced cfg i sh c a
  onHeap : new.filter Event.onHeap = emitted sh c cs
  ofCall : (∀ m, c ≠ .busCall m) → (∀ d, c ≠ .busCallReturn d) → new.filter Event.ofCall = c.due

/-- **The events an effect leaves.** -/
theorem Effect.exists_told (h : Effect cfg i c a sh sh' cs) :
    ∃ new, sh'.trace = sh.trace ++ new ∧ Told cfg i c a sh cs new := by
  have hquiet {sh' : Shared ι σ} (heq : sh'.trace = sh.trace)
      (hannounced : announced cfg i sh c a = []) (hemitted : emitted sh c cs = [])
      (hdue : (∀ m, c ≠ .busCall m) → (∀ d, c ≠ .busCallReturn d) → c.due = []) :
      ∃ new, sh'.trace = sh.trace ++ new ∧ Told cfg i c a sh cs new :=
    ⟨[], heq.trans (List.append_nil _).symm, hannounced.symm, hemitted.symm,
      fun hcall hreturn ↦ (hdue hcall hreturn).symm⟩
  cases h with
  | userCall hmay =>
    rename_i k f
    refine ⟨_, trace_callApi f, ?_⟩
    cases hf : f.broadcasts? with
    | none => exact ⟨by rw [announced, hf]; rfl, rfl, fun _ _ ↦ rfl⟩
    | some major => exact ⟨by rw [announced, hf]; rfl, rfl, fun _ _ ↦ rfl⟩
  | sendDone halloc =>
    obtain ⟨_, -, rfl⟩ := alloc_eq_some halloc
    exact hquiet rfl rfl rfl fun _ _ ↦ rfl
  | tpendTaken hsem =>
    rename_i t o d rest
    cases o <;> exact hquiet rfl rfl rfl fun _ _ ↦ rfl
  | subscribeReleased | released => exact hquiet (trace_release sh _) rfl rfl fun _ _ ↦ rfl
  | subscribed => exact ⟨_, rfl, rfl, rfl, fun _ _ ↦ rfl⟩
  | signalUnheard hmajor hsubs =>
    refine ⟨_, rfl, ?_, rfl, fun _ _ ↦ rfl⟩
    rw [announced, hmajor, Option.elim_some, hsubs]
    rfl
  | signalRelayed hmajor hsubs =>
    refine ⟨_, rfl, ?_, rfl, fun _ _ ↦ rfl⟩
    rw [announced, hmajor, Option.elim_some]
    rfl
  | loopSkipped hctx =>
    refine hquiet rfl ?_ rfl fun _ _ ↦ rfl
    rw [announced, hctx, Option.isSome_none, if_neg Bool.false_ne_true]
  | loopReplicated hctx halloc =>
    obtain ⟨_, -, rfl⟩ := alloc_eq_some halloc
    refine ⟨_, rfl, ?_, rfl, fun _ _ ↦ rfl⟩
    rw [announced, hctx, Option.isSome_some, if_pos rfl]
    rfl
  | callLinked => exact ⟨_, rfl, rfl, rfl, fun hcall _ ↦ absurd rfl (hcall _)⟩
  | returnSync | returnAsync => exact ⟨_, rfl, rfl, rfl, fun _ hreturn ↦ absurd rfl (hreturn _)⟩
  | tposted | notifierFreed => exact ⟨_, rfl, rfl, rfl, fun _ _ ↦ rfl⟩
  | completed =>
    rename_i major e
    refine ⟨[.unlinked major e], ?_, rfl, rfl, fun _ _ ↦ rfl⟩
    exact congrArg (· ++ _) (trace_release sh e.msg)
  | signalUnhandled hno =>
    refine ⟨_, rfl, ?_, rfl, fun _ _ ↦ rfl⟩
    rw [announced, hno, Option.isSome_none, if_neg Bool.false_ne_true]
    rfl
  | signalCalled hsome hne =>
    refine ⟨_, List.append_assoc _ _ _, ?_, rfl, fun _ _ ↦ rfl⟩
    rw [announced, hsome, Option.isSome_some, if_pos rfl]
    rfl
  | finishedPayload hp =>
    refine ⟨_, rfl, ?_, ?_, fun _ _ ↦ rfl⟩
    · rw [announced, if_pos hp]
      rfl
    · rw [emitted, if_pos hp]
      rfl
  | finishedPlain hp =>
    refine hquiet rfl ?_ ?_ fun _ _ ↦ rfl
    · rw [announced, hp, if_neg Bool.false_ne_true]
    · rw [emitted, hp, if_neg Bool.false_ne_true]
  | _ => exact hquiet rfl rfl rfl fun _ _ ↦ rfl

/-- What has happened stays in the trace. -/
theorem Effect.trace_prefix (h : Effect cfg i c a sh sh' cs) : sh.trace <+: sh'.trace := by
  obtain ⟨new, heq, -⟩ := h.exists_told
  exact ⟨new, heq.symm⟩

/-- **The events of a signal that an effect leaves.** -/
theorem Effect.signalEvents_eq (h : Effect cfg i c a sh sh' cs) :
    signalEvents sh' = signalEvents sh ++ announced cfg i sh c a := by
  obtain ⟨new, heq, htold⟩ := h.exists_told
  rw [signalEvents, heq, List.filter_append, htold.ofSignal, signalEvents]

/-- **The events of the heap that an effect leaves.** -/
theorem Effect.heapEvents_eq (h : Effect cfg i c a sh sh' cs) :
    heapEvents sh' = heapEvents sh ++ emitted sh c cs := by
  obtain ⟨new, heq, htold⟩ := h.exists_told
  rw [heapEvents, heq, List.filter_append, htold.onHeap, heapEvents]

/-- **The events an effect leaves for the calls** are those its command was to leave. -/
theorem Effect.callEvents_eq (h : Effect cfg i c a sh sh' cs) (hcall : ∀ m, c ≠ .busCall m)
    (hreturn : ∀ d, c ≠ .busCallReturn d) : callEvents sh' = callEvents sh ++ c.due := by
  obtain ⟨new, heq, htold⟩ := h.exists_told
  rw [callEvents, heq, List.filter_append, htold.ofCall hcall hreturn, callEvents]

theorem heapEvents_callApi (f : Api ι σ) : heapEvents (callApi cfg i sh f).1 = heapEvents sh := by
  rw [heapEvents, trace_callApi, List.filter_append, heapEvents]
  cases f.broadcasts? with
  | none => exact List.append_nil _
  | some major => exact List.append_nil _

end Mblue
