import Mathlib
import Mblue.Library.PointerChain
import Mblue.StateMachine.StateMachine

/-!
# Which transition an event triggers

`stateM_handleEvent` looks for a transition in the current state and then in the states above it.
`Dispatches` says that it finds the first one in the nearest state that has one and enters the leaf
below its target. A current state whose table is null is a final state: the event is ignored, whatever
the states above it have.
-/

namespace Mblue

open PointerChain

variable {S A : Type} (states : S → FsmState S A)

/-! ### The transition that is found -/

/-- The transitions of a state, up to `TRANSITION_END`. -/
def FsmState.ownTransitions (state : FsmState S A) : List (Transition S A) :=
  (state.transitions.getD []).takeWhile (·.validTransition)

/-- The first transition of a state that an event triggers. -/
def FsmState.firstTriggered (state : FsmState S A) (event : FsmEvent) : Option (Transition S A) :=
  state.ownTransitions.find? (·.triggeredBy event)

/-- The tables end with `TRANSITION_END`. -/
def TablesEnd : Prop :=
  ∀ s table, (states s).transitions = some table → Transition.transitionEnd ∈ table

/-- A state whose table is read has one: those of a chain before the first that takes the event. -/
def SearchedHaveTables (event : FsmEvent) (chain : List S) : Prop :=
  ∀ s ∈ chain.takeWhile fun s ↦ ((states s).firstTriggered event).isNone,
    (states s).transitions.isSome

@[simp] theorem Transition.validTransition_transitionEnd :
    (transitionEnd : Transition S A).validTransition = false :=
  rfl

/-- **The scan of a table** finds the first transition before `TRANSITION_END`. -/
theorem getTransition_eq (event : FsmEvent) {table : List (Transition S A)}
    (hend : Transition.transitionEnd ∈ table) :
    getTransition event table =
      .ok ((table.takeWhile (·.validTransition)).find? (·.triggeredBy event)) := by
  induction table with
  | nil => exact absurd hend List.not_mem_nil
  | cons t table ih =>
    rw [getTransition]
    by_cases hvalid : t.validTransition = true
    · rw [List.takeWhile_cons_of_pos hvalid]
      by_cases htriggered : t.triggeredBy event = true
      · simp [hvalid, htriggered]
      · have hrest : Transition.transitionEnd ∈ table := by
          refine (List.mem_cons.1 hend).resolve_left fun heq ↦ ?_
          rw [← heq, Transition.validTransition_transitionEnd] at hvalid
          exact Bool.false_ne_true hvalid
        rw [ih hrest]
        simp [hvalid, htriggered]
    · rw [List.takeWhile_cons_of_neg hvalid]
      simp [hvalid]

/-- The scan of the table of a state. -/
theorem getTransition_state (hends : TablesEnd states) (event : FsmEvent) {s : S}
    {table : List (Transition S A)} (htable : (states s).transitions = some table) :
    getTransition event table = .ok ((states s).firstTriggered event) := by
  rw [getTransition_eq event (hends s table htable), FsmState.firstTriggered,
    FsmState.ownTransitions, htable, Option.getD_some]

/-- A state that takes an event has a table. -/
theorem FsmState.transitions_isSome {state : FsmState S A} {event : FsmEvent}
    (h : (state.firstTriggered event).isSome) : state.transitions.isSome := by
  cases htable : state.transitions with
  | some => rfl
  | none => simp [firstTriggered, ownTransitions, htable] at h

/-! ### The walk down and the walk up -/

/-- **The entry states are followed to the leaf.** -/
theorem entryLoop_eq {s : S} {path : List S}
    (hpath : Path (fun q ↦ (states q).entryState) s path) {fuel : ℕ} (hfuel : path.length ≤ fuel) :
    entryLoop states fuel s = path.getLast? := by
  unfold entryLoop
  induction hpath generalizing fuel with
  | stop hleaf =>
    obtain ⟨fuel, rfl⟩ := Nat.exists_eq_add_of_le' hfuel
    simp [While.run, hleaf]
  | @step a b l hentry hl ih =>
    obtain ⟨fuel, rfl⟩ := Nat.exists_eq_add_of_le' hfuel
    have hfuel : l.length ≤ fuel + l.length := Nat.le_add_left _ _
    obtain ⟨c, l', rfl⟩ := List.exists_cons_of_ne_nil hl.ne_nil
    rw [List.getLast?_cons_cons, ← ih hfuel, List.length_cons, ← Nat.add_assoc, While.run]
    simp [hentry]

section

variable [DecidableEq S] (fsm : StateMachine S) (current : S) (event : FsmEvent)

/-- What becomes of an event, given the transition that was found. -/
def Outcome : Option (Transition S A) → Handled S A → Prop
  | none, r => r.ret = .noStateChange ∧ r.machine = fsm ∧ r.calls = []
  | some t, r =>
    r.ret ≠ .noStateChange ∧ r.machine.previousState = some current ∧
      r.machine.errorState = fsm.errorState ∧
      match t.nextState with
      | none => r.machine.currentState = fsm.errorState
      | some target => ∃ path leaf, Path (fun s ↦ (states s).entryState) target path ∧
          path.getLast? = some leaf ∧ r.machine.currentState = some leaf ∧
          ∀ a ∈ t.action, .transition a (states current).data (states leaf).data ∈ r.calls

omit [DecidableEq S] in
/-- An error is the outcome of a transition without a target. -/
theorem outcome_goToErrorState {t : Transition S A} (hcur : fsm.currentState = some current)
    (htarget : t.nextState = none) :
    Outcome states fsm current (some t) (goToErrorState states fsm) := by
  refine ⟨by simp [goToErrorState], hcur, rfl, ?_⟩
  rw [htarget]
  rfl

theorem changeState_ret_ne (t : Transition S A) (leaf : S) :
    (changeState states fsm current t leaf).ret ≠ .noStateChange := by
  unfold changeState
  dsimp only
  split_ifs <;> exact HandleEventRetVal.noConfusion

/-- The leaf below the target is entered. -/
theorem outcome_changeState {t : Transition S A} {target leaf : S} {path : List S}
    (htarget : t.nextState = some target)
    (hpath : Path (fun s ↦ (states s).entryState) target path) (hleaf : path.getLast? = some leaf) :
    Outcome states fsm current (some t) (changeState states fsm current t leaf) := by
  refine ⟨changeState_ret_ne states fsm current t leaf, rfl, rfl, ?_⟩
  rw [htarget]
  refine ⟨path, leaf, hpath, hleaf, rfl, fun a ha ↦ ?_⟩
  have haction : t.action = some a := ha
  simp [changeState, haction]

/-- A state with a table is asked and, if it does not take the event, the state above it. -/
theorem handleLoop_succ (hends : TablesEnd states) {s : S}
    (htable : (states s).transitions.isSome) (fuel : ℕ) :
    handleLoop states fsm current event (fuel + 1) s =
      match (states s).firstTriggered event with
      | none =>
        match (states s).parent with
        | none => .ok ⟨.noStateChange, fsm, []⟩
        | some parent => handleLoop states fsm current event fuel parent
      | some t =>
        match t.nextState with
        | none => .ok (goToErrorState states fsm)
        | some next =>
          match entryLoop states fuel next with
          | none => .error .noFuel
          | some leaf => .ok (changeState states fsm current t leaf) := by
  obtain ⟨table, htable⟩ := Option.isSome_iff_exists.1 htable
  rw [handleLoop, htable]
  simp only [getTransition_state states hends event htable]
  cases (states s).firstTriggered event <;> rfl

/-- What the loop does in a state that takes the event. -/
theorem handleLoop_found [Finite S] (hentry : Acyclic fun s ↦ (states s).entryState)
    (hends : TablesEnd states) (hcur : fsm.currentState = some current) {s : S}
    {t : Transition S A} (hfound : (states s).firstTriggered event = some t) :
    ∃ r least, (∀ fuel ≥ least, handleLoop states fsm current event fuel s = .ok r) ∧
      Outcome states fsm current (some t) r := by
  have htable : (states s).transitions.isSome :=
    FsmState.transitions_isSome (Option.isSome_of_mem hfound)
  cases htarget : t.nextState with
  | none =>
    refine ⟨_, 1, fun fuel hfuel ↦ ?_, outcome_goToErrorState states fsm current hcur htarget⟩
    obtain ⟨fuel, rfl⟩ := Nat.exists_eq_add_of_le' hfuel
    rw [handleLoop_succ states fsm current event hends htable, hfound]
    simp only [htarget]
  | some target =>
    obtain ⟨path, hpath⟩ := exists_path hentry target
    have hleaf : path.getLast? = some (path.getLast hpath.ne_nil) := List.getLast?_eq_some_getLast _
    refine ⟨_, path.length + 1, fun fuel hfuel ↦ ?_,
      outcome_changeState states fsm current htarget hpath hleaf⟩
    obtain ⟨fuel, rfl⟩ := Nat.exists_eq_add_of_le' hfuel
    rw [← Nat.add_assoc, handleLoop_succ states fsm current event hends htable, hfound]
    simp only [htarget]
    rw [entryLoop_eq states hpath (Nat.le_add_left _ _), hleaf]

/-- **The walk up** ends at the first state that takes the event, whatever becomes of it there. -/
theorem handleLoop_outcome [Finite S] (hentry : Acyclic fun s ↦ (states s).entryState)
    (hends : TablesEnd states) (hcur : fsm.currentState = some current) {s : S} {chain : List S}
    (hchain : Path (fun q ↦ (states q).parent) s chain)
    (htables : SearchedHaveTables states event chain) :
    ∃ r least, (∀ fuel ≥ least, handleLoop states fsm current event fuel s = .ok r) ∧
      Outcome states fsm current
        (chain.findSome? fun q ↦ (states q).firstTriggered event) r := by
  induction hchain with
  | @stop s hparent =>
    cases hfound : (states s).firstTriggered event with
    | some t =>
      simp only [List.findSome?_cons, hfound]
      exact handleLoop_found states fsm current event hentry hends hcur hfound
    | none =>
      have htable : (states s).transitions.isSome := htables s (by simp [hfound])
      refine ⟨⟨.noStateChange, fsm, []⟩, 1, fun fuel hfuel ↦ ?_, ?_⟩
      · obtain ⟨fuel, rfl⟩ := Nat.exists_eq_add_of_le' hfuel
        rw [handleLoop_succ states fsm current event hends htable, hfound]
        simp only [hparent]
      · simp [hfound, Outcome]
  | @step s parent chain hparent _ ih =>
    cases hfound : (states s).firstTriggered event with
    | some t =>
      simp only [List.findSome?_cons, hfound]
      exact handleLoop_found states fsm current event hentry hends hcur hfound
    | none =>
      have htable : (states s).transitions.isSome := htables s (by simp [hfound])
      -- the parent is searched next
      have hrest : SearchedHaveTables states event chain := fun q hq ↦
        htables q (by simpa [hfound] using Or.inr hq)
      obtain ⟨r, least, hloop, hout⟩ := ih hrest
      refine ⟨r, least + 1, fun fuel hfuel ↦ ?_, ?_⟩
      · obtain ⟨fuel, rfl⟩ : ∃ k, fuel = k + 1 := Nat.exists_eq_add_of_le' (by omega)
        rw [handleLoop_succ states fsm current event hends htable, hfound]
        simp only [hparent]
        exact hloop fuel (Nat.le_of_succ_le_succ hfuel)
      · simp only [List.findSome?_cons, hfound]
        exact hout

/-- A state without a table that is asked is a null pointer that is followed. -/
theorem handleLoop_nullTable (hends : TablesEnd states) {s : S} {chain : List S}
    (hchain : Path (fun q ↦ (states q).parent) s chain)
    (htables : ¬SearchedHaveTables states event chain) :
    ∃ least, ∀ fuel ≥ least, handleLoop states fsm current event fuel s = .error .nullTable := by
  induction hchain with
  | @stop s hparent =>
    refine ⟨1, fun fuel hfuel ↦ ?_⟩
    obtain ⟨fuel, rfl⟩ := Nat.exists_eq_add_of_le' hfuel
    cases htable : (states s).transitions with
    | none => simp only [handleLoop, htable]
    | some =>
      refine absurd (fun q hq ↦ ?_) htables
      rw [List.mem_singleton.1 ((List.takeWhile_subset _) hq), htable]
      rfl
  | @step s parent chain hparent _ ih =>
    cases htable : (states s).transitions with
    | none =>
      refine ⟨1, fun fuel hfuel ↦ ?_⟩
      obtain ⟨fuel, rfl⟩ := Nat.exists_eq_add_of_le' hfuel
      simp only [handleLoop, htable]
    | some table =>
      have hsome : (states s).transitions.isSome := Option.isSome_of_mem htable
      cases hfound : (states s).firstTriggered event with
      | some t => exact absurd (fun q hq ↦ by simp [hfound] at hq) htables
      | none =>
        have hrest : ¬SearchedHaveTables states event chain := by
          refine fun hrest ↦ htables fun q hq ↦ ?_
          obtain rfl | hq : q = s ∨ _ := by simpa [hfound] using hq
          · exact hsome
          · exact hrest q hq
        obtain ⟨least, hloop⟩ := ih hrest
        refine ⟨least + 1, fun fuel hfuel ↦ ?_⟩
        obtain ⟨fuel, rfl⟩ : ∃ k, fuel = k + 1 := Nat.exists_eq_add_of_le' (by omega)
        rw [handleLoop_succ states fsm current event hends hsome, hfound]
        simp only [hparent]
        exact hloop fuel (Nat.le_of_succ_le_succ hfuel)

/-- **The event is dispatched**: the function ends, and what it leaves behind is the outcome of the
first transition that is triggered in the nearest state of the parent chain that has one. -/
def Dispatches : Prop :=
  ∃ chain, Path (fun s ↦ (states s).parent) current chain ∧
    ∃ r least, (∀ fuel ≥ least, handleEvent states fuel fsm event = .ok r) ∧
      Outcome states fsm current
        (chain.findSome? fun s ↦ (states s).firstTriggered event) r

end

/-- **The dispatch of an event** over finitely many states without cycles whose tables end with
`TRANSITION_END`. In a final state, one whose table is null, the event is ignored. -/
theorem handleEvent_dispatches [DecidableEq S] [Finite S] (fsm : StateMachine S) (current : S)
    (event : FsmEvent) (hparent : Acyclic fun s ↦ (states s).parent)
    (hentry : Acyclic fun s ↦ (states s).entryState) (hends : TablesEnd states)
    (hcur : fsm.currentState = some current) :
    ((states current).transitions = none →
      ∀ fuel, handleEvent states fuel fsm event = .ok ⟨.noStateChange, fsm, []⟩) ∧
    ((states current).transitions.isSome →
      (∀ chain, Path (fun s ↦ (states s).parent) current chain →
        SearchedHaveTables states event chain) →
      Dispatches states fsm current event) := by
  constructor
  · intro hfinal fuel
    simp [handleEvent, hcur, hfinal]
  · intro htable hsearched
    obtain ⟨chain, hchain⟩ := exists_path hparent current
    obtain ⟨r, least, hloop, hout⟩ := handleLoop_outcome states fsm current event hentry hends hcur
      hchain (hsearched chain hchain)
    refine ⟨chain, hchain, r, least, fun fuel hfuel ↦ ?_, hout⟩
    have hnone : (states current).transitions.isNone = false := Option.isNone_eq_false_iff.2 htable
    simp only [handleEvent, hcur, hnone]
    exact hloop fuel hfuel

/-! ### Two states -/

/-- A state `false` in a group `true` whose only transition leads back to the state. -/
def pair (own : Option (List (Transition Bool Unit))) : Bool → FsmState Bool Unit
  | false => ⟨some true, none, own, 0, 0, none, none⟩
  | true => ⟨none, some false, some [⟨7, 0, none, none, some true⟩, Transition.transitionEnd], 1, 0,
      none, none⟩

theorem pair_parent_acyclic (own : Option (List (Transition Bool Unit))) :
    Acyclic fun s ↦ (pair own s).parent :=
  acyclic_of_rank (fun s ↦ (!s).toNat) fun a b h ↦ by revert h; cases a <;> cases b <;> simp [pair]

theorem pair_entry_acyclic (own : Option (List (Transition Bool Unit))) :
    Acyclic fun s ↦ (pair own s).entryState :=
  acyclic_of_rank Bool.toNat fun a b h ↦ by revert h; cases a <;> cases b <;> simp [pair]

theorem pair_chain (own : Option (List (Transition Bool Unit))) :
    Path (fun s ↦ (pair own s).parent) false [false, true] :=
  .step rfl (.stop rfl)

/-- The tables of the two states end if the table of the lower one does. -/
theorem pair_tablesEnd {own : Option (List (Transition Bool Unit))}
    (h : ∀ table, own = some table → Transition.transitionEnd ∈ table) : TablesEnd (pair own) := by
  intro s table htable
  cases s with
  | false => exact h table htable
  | true =>
    obtain rfl := Option.some.inj htable
    exact List.mem_cons_of_mem _ List.mem_cons_self

/-- A state with an empty table passes the event to its group, which leads back to the state. -/
theorem handleEvent_dispatches_group :
    Dispatches (pair (some [Transition.transitionEnd])) ⟨some false, none, none⟩ false ⟨7, 0⟩ := by
  have hends : TablesEnd (pair (some [Transition.transitionEnd])) := by
    refine pair_tablesEnd fun table htable ↦ ?_
    obtain rfl := Option.some.inj htable
    exact List.mem_cons_self
  refine (handleEvent_dispatches _ ⟨some false, none, none⟩ false ⟨7, 0⟩ (pair_parent_acyclic _)
    (pair_entry_acyclic _) hends rfl).2 rfl fun chain hchain s _ ↦ ?_
  cases s <;> rfl

/-- A final state does not pass the event to its group. -/
theorem not_dispatches_finalState :
    ¬∀ (S A : Type) [DecidableEq S] [Finite S] (states : S → FsmState S A) (fsm : StateMachine S)
      (current : S) (event : FsmEvent), (Acyclic fun s ↦ (states s).parent) →
      (Acyclic fun s ↦ (states s).entryState) → TablesEnd states →
      fsm.currentState = some current → Dispatches states fsm current event := by
  intro h
  have hends : TablesEnd (pair none) := pair_tablesEnd fun _ htable ↦ absurd htable (by simp)
  obtain ⟨chain, hchain, r, least, hr, hout⟩ := h Bool Unit (pair none) ⟨some false, none, none⟩ false
    ⟨7, 0⟩ (pair_parent_acyclic _) (pair_entry_acyclic _) hends rfl
  obtain rfl := hchain.unique (pair_chain none)
  obtain rfl := Except.ok.inj (hr least le_rfl)
  exact hout.1 rfl

end Mblue
