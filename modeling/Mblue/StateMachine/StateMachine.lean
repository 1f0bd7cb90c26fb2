import Mathlib
import Mblue.Library.While

/-!
# The hierarchical state machine

`state_machine.c`: an event is offered to the current state and, while nobody takes it, to the
states above it. `S` are the states, a pointer to a state is an `Option S`, and `States` is the memory
they stand in. A transition table is a list of entries that is scanned up to the entry
`TRANSITION_END`; to scan past the list, or to follow the null pointer, is a fault.

Guards depend on their condition and the event alone. Actions are recorded and not run: they do not
change the machine. The loops up the parents and down the entry states need not end, so the function
is given fuel.
-/

namespace Mblue

/-- `struct event`. -/
structure FsmEvent where
  type : ℤ
  data : ℕ
  deriving DecidableEq, Repr

/-- `struct transition`; a condition is a pointer, `A` are the actions. -/
structure Transition (S A : Type) where
  eventType : ℤ
  condition : ℕ
  guard : Option (ℕ → FsmEvent → Bool)
  action : Option A
  nextState : Option S

/-- `struct state`. -/
structure FsmState (S A : Type) where
  parent : Option S
  entryState : Option S
  transitions : Option (List (Transition S A))
  numTransitions : ℕ
  data : ℕ
  entryAction : Option A
  exitAction : Option A

/-- `struct state_machine`. -/
structure StateMachine (S : Type) where
  currentState : Option S
  previousState : Option S
  errorState : Option S
  deriving DecidableEq, Repr

/-- `enum stateM_handleEventRetVals`. -/
inductive HandleEventRetVal
  | errArg
  | errorStateReached
  | stateChanged
  | stateLoopSelf
  | noStateChange
  | finalStateReached
  deriving DecidableEq, Repr

/-- An action that is run, with the data of the states that is passed to it. -/
inductive ActionCall (A : Type)
  | exit (a : A) (data : ℕ)
  | transition (a : A) (data newData : ℕ)
  | entry (a : A) (data : ℕ)
  deriving DecidableEq, Repr

/-- What stops the function. -/
inductive FsmFault
  /-- `transitions` of a state is followed and is null. -/
  | nullTable
  /-- A table is read past its last entry. -/
  | pastTable
  /-- The fuel is used up. -/
  | noFuel
  deriving DecidableEq, Repr

/-- What the function leaves behind. -/
structure Handled (S A : Type) where
  ret : HandleEventRetVal
  machine : StateMachine S
  calls : List (ActionCall A)
  deriving DecidableEq, Repr

namespace Transition

variable {S A : Type}

/-- `TRANSITION_END`. -/
def transitionEnd : Transition S A := ⟨0, 0, none, none, none⟩

/-- `valid_transition`: some field is not zero. -/
def validTransition (t : Transition S A) : Bool :=
  t.eventType != 0 || t.condition != 0 || t.guard.isSome || t.action.isSome || t.nextState.isSome

/-- The tests of `getTransition` on an entry. -/
def triggeredBy (t : Transition S A) (event : FsmEvent) : Bool :=
  t.eventType == event.type && t.guard.all fun guard ↦ guard t.condition event

end Transition

section Fsm

variable {S A : Type} [DecidableEq S] (states : S → FsmState S A)

/-- `getTransition`, from an entry of the table on. -/
def getTransition (event : FsmEvent) :
    List (Transition S A) → Except FsmFault (Option (Transition S A))
  | [] => .error .pastTable
  | t :: table =>
    if !t.validTransition then .ok none
    else if t.triggeredBy event then .ok (some t)
    else getTransition event table

/-- `goToErrorState`, and the return after it. -/
def goToErrorState (fsm : StateMachine S) : Handled S A where
  ret := .errorStateReached
  machine := { fsm with previousState := fsm.currentState, currentState := fsm.errorState }
  calls := match fsm.errorState with
    | some e => ((states e).entryAction.map fun a ↦ .entry a (states e).data).toList
    | none => []

/-- `while ( nextState->entry_state )`. -/
def entryLoop (fuel : ℕ) (nextState : S) : Option S :=
  While.run (fun s ↦ (states s).entryState.isSome) (fun s ↦ (states s).entryState.getD s) fuel
    nextState

/-- What follows when a transition from the current state to a leaf has been found. -/
def changeState (fsm : StateMachine S) (current : S) (t : Transition S A) (nextState : S) :
    Handled S A where
  ret :=
    if nextState = current then .stateLoopSelf
    else if some nextState = fsm.errorState then .errorStateReached
    else if (states nextState).numTransitions = 0 then .finalStateReached
    else .stateChanged
  machine := { fsm with previousState := some current, currentState := some nextState }
  calls :=
    (if nextState = current then []
      else ((states current).exitAction.map fun a ↦ .exit a (states current).data).toList) ++
    (t.action.map fun a ↦ .transition a (states current).data (states nextState).data).toList ++
    ((states nextState).entryAction.map fun a ↦ .entry a (states nextState).data).toList

/-- The loop of `stateM_handleEvent`: the event is offered to `nextState`. -/
def handleLoop (fsm : StateMachine S) (current : S) (event : FsmEvent) :
    ℕ → S → Except FsmFault (Handled S A)
  | 0, _ => .error .noFuel
  | fuel + 1, nextState =>
    match (states nextState).transitions with
    | none => .error .nullTable
    | some table =>
      match getTransition event table with
      | .error fault => .error fault
      | .ok none =>
        match (states nextState).parent with
        | none => .ok ⟨.noStateChange, fsm, []⟩
        | some parent => handleLoop fsm current event fuel parent
      | .ok (some t) =>
        match t.nextState with
        | none => .ok (goToErrorState states fsm)
        | some next =>
          match entryLoop states fuel next with
          | none => .error .noFuel
          | some leaf => .ok (changeState states fsm current t leaf)

/-- `stateM_handleEvent`, on an event that is not null. -/
def handleEvent (fuel : ℕ) (fsm : StateMachine S) (event : FsmEvent) :
    Except FsmFault (Handled S A) :=
  match fsm.currentState with
  | none => .ok (goToErrorState states fsm)
  | some current =>
    if (states current).transitions.isNone then .ok ⟨.noStateChange, fsm, []⟩
    else handleLoop states fsm current event fuel current

end Fsm

end Mblue
