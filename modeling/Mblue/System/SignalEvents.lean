import Mblue.System.HeapEvents

/-!
# Where the events of a signal come from

The events of a signal are its broadcast, the subscriptions the bus has handled, the list it is
relayed to, its replicas, the calls of its handlers and the frees of its payload. `announced` gives
those that one command leaves; here is what is known of the command when one of them is new.
-/

set_option linter.unusedSectionVars false

namespace Mblue

variable {ι σ : Type} [DecidableEq ι] [DecidableEq σ] {cfg : Config ι σ} {i : ι} {c : Cmd ι σ}
  {a : Choice ι σ} {sh sh' : Shared ι σ} {cs : List (Cmd ι σ)}

/-- A handler is called with the payload of the message that is being handled. -/
theorem called_of_announced {ms : σ} {d : ℕ} {p : Word}
    (h : .called ms d p ∈ announced cfg i sh c a) :
    ∃ m, c = .signalHandler ms m ∧ (sh.pool m).draw = d ∧ (sh.pool m).smartPayload = p := by
  unfold announced at h
  split at h
  · next f =>
    cases hf : f.broadcasts? <;> simp [hf] at h
  · simp at h
  · next m =>
    cases hmajor : (sh.pool m).major <;> simp [hmajor] at h
  · split at h <;> simp at h
  · next m =>
    rw [List.mem_cons] at h
    rcases h with h | h
    · cases h
    · split at h
      · cases List.mem_singleton.1 h
        exact ⟨m, rfl, rfl, rfl⟩
      · cases h
  · split at h <;> simp at h
  · cases h

theorem freed_of_announced {d : ℕ} {p : Word} (h : .freed d p ∈ announced cfg i sh c a) :
    ∃ m, c = .finish m := by
  unfold announced at h
  split at h
  · next f =>
    cases hf : f.broadcasts? <;> simp [hf] at h
  · simp at h
  · next m =>
    cases hmajor : (sh.pool m).major <;> simp [hmajor] at h
  · split at h <;> simp at h
  · split at h <;> simp at h
  · exact ⟨_, rfl⟩
  · cases h

/-- **Where a loop of `bus_signal` comes from**: the bus has found the publish list, or a longer list
was left. -/
theorem Effect.loop_origin (h : Effect cfg i c a sh sh' cs) {m : MsgId} {subs : List σ}
    (hm : .busSignalLoop m subs ∈ cs) :
    (c = .busSignal m ∧ ∃ major, (sh.pool m).major = some major ∧
      subs = sh.publishList major) ∨ ∃ ms, c = .busSignalLoop m (ms :: subs) := by
  cases h with
  | signalRelayed hmajor hsubs =>
    cases List.mem_singleton.1 hm
    exact .inl ⟨rfl, _, hmajor, rfl⟩
  | loopSkipped hctx =>
    cases List.mem_singleton.1 hm
    exact .inr ⟨_, rfl⟩
  | loopReplicated hctx halloc =>
    rcases List.mem_cons.1 hm with hm | hm
    · cases hm
    · cases List.mem_singleton.1 hm
      exact .inr ⟨_, rfl⟩
  | removed hmq hdst htype hhandler =>
    rw [← List.mem_singleton.1 hm] at hhandler
    cases handles_of_getHandler hhandler
  | userCall hmay =>
    rename_i k f
    cases f <;> simp [callApi] at hm
  | _ => simp at hm

/-- Which command says what of a signal. -/
inductive Announces (cfg : Config ι σ) (i : ι) (sh : Shared ι σ) (a : Choice ι σ) :
    Cmd ι σ → Event ι σ → Prop
  | broadcast {k f major} (ha : a = .api f) (hf : f.broadcasts? = some major) :
      Announces cfg i sh a (.userCode k) (.broadcast i (sh.draws + 1) major)
  | subscribed {ms major} :
      Announces cfg i sh a (.busSubscribe ms major) (.subscribed ms major)
  | relayed {m major} (hmajor : (sh.pool m).major = some major) :
      Announces cfg i sh a (.busSignal m)
        (.relayed (sh.pool m).draw major (sh.publishList major))
  | replica {m ms subs} (hctx : (cfg.context ms).isSome = true) :
      Announces cfg i sh a (.busSignalLoop m (ms :: subs))
        (.replica (sh.pool m) (replicate (sh.pool m) ms))
  | handled {ms m} : Announces cfg i sh a (.signalHandler ms m) (.handled ms (sh.pool m).draw)
  | called {ms m} (hsome : (findHandler (cfg.signalItems ms) (sh.pool m).minor).isSome = true) :
      Announces cfg i sh a (.signalHandler ms m)
        (.called ms (sh.pool m).draw (sh.pool m).smartPayload)
  | freed {m} (hp : pbPayload (sh.pool m).smartPayload = true) :
      Announces cfg i sh a (.finish m) (.freed (sh.pool m).draw (sh.pool m).smartPayload)

/-- **Where an event of a signal comes from.** -/
theorem announces_of_mem {e : Event ι σ} (h : e ∈ announced cfg i sh c a) :
    Announces cfg i sh a c e := by
  unfold announced at h
  split at h
  · next f =>
    cases hf : f.broadcasts? with
    | none => simp [hf] at h
    | some major =>
      rw [hf] at h
      obtain rfl := List.mem_singleton.1 h
      exact .broadcast rfl hf
  · obtain rfl := List.mem_singleton.1 h
    exact .subscribed
  · next m =>
    cases hmajor : (sh.pool m).major with
    | none => simp [hmajor] at h
    | some major =>
      rw [hmajor] at h
      obtain rfl := List.mem_singleton.1 h
      exact .relayed hmajor
  · split at h
    · next hctx =>
      obtain rfl := List.mem_singleton.1 h
      exact .replica hctx
    · cases h
  · rcases List.mem_cons.1 h with rfl | h
    · exact .handled
    · split at h
      · next hsome =>
        obtain rfl := List.mem_singleton.1 h
        exact .called hsome
      · cases h
  · split at h
    · next hp =>
      obtain rfl := List.mem_singleton.1 h
      exact .freed hp
    · cases h
  · cases h

end Mblue
