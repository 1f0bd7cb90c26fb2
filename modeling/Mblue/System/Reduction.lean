import Mblue.System.Invariant

/-!
# Reduction to coarser steps

A match in `bus_call_return` ends with two steps of the source: `mblue_message_release` of the
request, a critical section, and `list_del` of its entry. Between them the request can be free, and
even used again, while its entry still is in the call list. But only the bus task reads or writes a
call list, so no step of another task depends on whether the entry is still there.

`fuse` takes the entry out at once, and the results are

* `runCmd_unlink` — a command that is not the bus's does the same with and without the entry;
* `Split.step` — a step of the system is a step of the fused system, or the `list_del` itself, which
  the fused system does not see;
* `Split.of_run` and `Split.run` — **the reduction**: every run of the system is a run of the fused
  system between the fused states.

So what is proved of all runs of `fused` holds of the fused state of every state that `system`
reaches. The two states differ in one entry of one call list, and only while the bus is at that
`list_del`.
-/

set_option linter.unusedSectionVars false

namespace Mblue

variable {ι σ : Type}

/-! ### Commands that do not see the call lists -/

section Commute

variable [DecidableEq ι] [DecidableEq σ] {cfg : Config ι σ} {i : ι} {a : Choice ι σ}
  {sh : Shared ι σ}

/-- The commands that read or write a call list. -/
def Cmd.usesCallList : Cmd ι σ → Bool
  | .busCall _ | .busCallReturn _ | .complete _ _ | .unlink _ _ => true
  | _ => false

/-- The outcome of a command with an entry taken out of a call list. -/
def unlinked (major : Major) (e : PendingCall) (r : Shared ι σ × List (Cmd ι σ)) :
    Shared ι σ × List (Cmd ι σ) :=
  (r.1.unlink major e, r.2)

omit [DecidableEq ι] [DecidableEq σ] in
theorem alloc_unlink (content : Message ι σ) (major : Major) (e : PendingCall) :
    (sh.unlink major e).alloc content =
      (sh.alloc content).map fun r ↦ (r.1, r.2.unlink major e) := by
  unfold Shared.alloc
  have hlist : (sh.unlink major e).msgList = sh.msgList := rfl
  have hcount : (sh.unlink major e).count = sh.count := rfl
  rw [hlist, hcount]
  split
  · split <;> rfl
  · rfl

omit [DecidableEq ι] [DecidableEq σ] in
theorem isSome_alloc_unlink (content : Message ι σ) (major : Major) (e : PendingCall) :
    ((sh.unlink major e).alloc content).isSome = (sh.alloc content).isSome := by
  rw [alloc_unlink, Option.isSome_map]

omit [DecidableEq ι] [DecidableEq σ] in
theorem release_unlink (m : MsgId) (major : Major) (e : PendingCall) :
    (sh.unlink major e).release m = (sh.release m).unlink major e := by
  unfold Shared.release
  have hpool : (sh.unlink major e).pool = sh.pool := rfl
  simp only [hpool]
  split <;> rfl

theorem callApi_unlink (f : Api ι σ) (major : Major) (e : PendingCall) :
    callApi cfg i (sh.unlink major e) f = unlinked major e (callApi cfg i sh f) := by
  cases f with
  | targetSignal source m minor dest data extra =>
    cases dest with
    | none => rfl
    | some ms => rfl
  | _ => rfl

theorem runUserCode_unlink (k : UserCode ι σ) (major : Major) (e : PendingCall) :
    runUserCode cfg i k a (sh.unlink major e) =
      (runUserCode cfg i k a sh).map (unlinked major e) := by
  have hfinish (w : Word) : finishUserCode cfg i (sh.unlink major e) w k =
      finishUserCode cfg i sh w k := by
    cases k <;> rfl
  have hheap : (sh.unlink major e).heap = sh.heap := rfl
  cases a with
  | malloc p block =>
    simp only [runUserCode, hheap]
    split <;> rfl
  | api f =>
    simp only [runUserCode, callApi_unlink]
    split <;> rfl
  | finish w =>
    simp only [runUserCode, hfinish, Option.map_map]
    rfl
  | go | fail => rfl

omit [DecidableEq σ] in
theorem runTemplateProc_unlink (major : Major) (e : PendingCall) :
    runTemplateProc i a (sh.unlink major e) =
      (runTemplateProc i a sh).map (unlinked major e) := by
  have hsem : (sh.unlink major e).msgSem = sh.msgSem := rfl
  cases a with
  | go =>
    simp only [runTemplateProc, hsem]
    split <;> rfl
  | _ => rfl

theorem runRemove_unlink (major : Major) (e : PendingCall) :
    runRemove cfg i (sh.unlink major e) = (runRemove cfg i sh).map (unlinked major e) := by
  have hmq : (sh.unlink major e).mq = sh.mq := rfl
  have hpool : (sh.unlink major e).pool = sh.pool := rfl
  simp only [runRemove, hmq, hpool]
  split
  · rfl
  · next m rest _ =>
    cases (sh.pool m).dst with
    | none => rfl
    | some ms =>
      cases (sh.pool m).type with
      | none => rfl
      | some type =>
        simp only [Option.bind_eq_bind, Option.bind_some]
        cases getHandler cfg ms m type <;> rfl

omit [DecidableEq ι] [DecidableEq σ] in
theorem runSend_unlink (b : SendArgs ι σ) (major : Major) (e : PendingCall) :
    runSend cfg b (sh.unlink major e) = (runSend cfg b sh).map (unlinked major e) := by
  simp only [runSend, alloc_unlink]
  cases sh.alloc (initMessage cfg b) with
  | none => rfl
  | some r => cases cfg.context (b.dst.getD cfg.bus) <;> rfl

omit [DecidableEq σ] in
theorem runPost_unlink (t : ι) (m : MsgId) (major : Major) (e : PendingCall) :
    runPost cfg t m (sh.unlink major e) = (runPost cfg t m sh).map (unlinked major e) := by
  have hmq : (sh.unlink major e).mq = sh.mq := rfl
  simp only [runPost, Shared.queueAdd, hmq]
  by_cases hfull : cfg.capacity t ≤ (sh.mq t).length
  · rw [if_pos hfull, if_pos hfull]
    rfl
  · rw [if_neg hfull, if_neg hfull]
    rfl

omit [DecidableEq ι] [DecidableEq σ] in
theorem runSyncCheck_unlink (m : MsgId) (o : Option CellId) (major : Major) (e : PendingCall) :
    runSyncCheck m o (sh.unlink major e) = (runSyncCheck m o sh).map (unlinked major e) := by
  have hpool : (sh.unlink major e).pool = sh.pool := rfl
  simp only [runSyncCheck, hpool]
  split
  · cases (sh.pool m).src <;> rfl
  · rfl

omit [DecidableEq σ] in
theorem runTpend_unlink (t : ι) (o : Option CellId) (major : Major) (e : PendingCall) :
    runTpend t o a (sh.unlink major e) = (runTpend t o a sh).map (unlinked major e) := by
  have hsem : (sh.unlink major e).callSem = sh.callSem := rfl
  cases a with
  | go =>
    simp only [runTpend, hsem]
    cases sh.callSem t with
    | nil => rfl
    | cons d rest => cases o <;> rfl
  | _ => rfl

omit [DecidableEq ι] [DecidableEq σ] in
theorem runHandleSubscribe_unlink (m : MsgId) (major : Major) (e : PendingCall) :
    runHandleSubscribe m (sh.unlink major e) =
      (runHandleSubscribe m sh).map (unlinked major e) := by
  have hpool : (sh.unlink major e).pool = sh.pool := rfl
  simp only [runHandleSubscribe, hpool, release_unlink]
  cases (sh.pool m).aux with
  | extra ms => cases (sh.pool m).major <;> rfl
  | _ => rfl

omit [DecidableEq ι] [DecidableEq σ] in
theorem runBusSignal_unlink (m : MsgId) (major : Major) (e : PendingCall) :
    runBusSignal m (sh.unlink major e) = (runBusSignal m sh).map (unlinked major e) := by
  have hpool : (sh.unlink major e).pool = sh.pool := rfl
  have hsubs : (sh.unlink major e).publishList = sh.publishList := rfl
  simp only [runBusSignal, hpool, hsubs]
  cases (sh.pool m).major with
  | none => rfl
  | some n =>
    simp only [Option.map_some]
    split <;> rfl

omit [DecidableEq ι] [DecidableEq σ] in
theorem runBusSignalLoop_unlink (m : MsgId) (subs : List σ) (major : Major) (e : PendingCall) :
    runBusSignalLoop cfg m subs (sh.unlink major e) =
      (runBusSignalLoop cfg m subs sh).map (unlinked major e) := by
  have hpool : (sh.unlink major e).pool = sh.pool := rfl
  cases subs with
  | nil => rfl
  | cons ms rest =>
    simp only [runBusSignalLoop, hpool, alloc_unlink]
    cases cfg.context ms with
    | none => rfl
    | some t => cases sh.alloc (replicate (sh.pool m) ms) <;> rfl

omit [DecidableEq ι] [DecidableEq σ] in
theorem runSignalHandler_unlink (ms : σ) (m : MsgId) (major : Major) (e : PendingCall) :
    runSignalHandler cfg ms m (sh.unlink major e) =
      (runSignalHandler cfg ms m sh).map (unlinked major e) := by
  have hpool : (sh.unlink major e).pool = sh.pool := rfl
  simp only [runSignalHandler, hpool]
  cases findHandler (cfg.signalItems ms) (sh.pool m).minor with
  | none => rfl
  | some f =>
    dsimp only
    split <;> rfl

omit [DecidableEq ι] [DecidableEq σ] in
theorem runIpcHandler_unlink (ms : σ) (m : MsgId) (major : Major) (e : PendingCall) :
    runIpcHandler cfg i ms m (sh.unlink major e) =
      (runIpcHandler cfg i ms m sh).map (unlinked major e) := by
  have hpool : (sh.unlink major e).pool = sh.pool := rfl
  have hblock : payloadBlock (sh.pool m) (sh.unlink major e) = payloadBlock (sh.pool m) sh := rfl
  simp only [runIpcHandler, hpool, hblock]
  cases payloadBlock (sh.pool m) sh with
  | none => rfl
  | some payload =>
    simp only [Option.bind_some]
    split
    · rfl
    · rfl
    · simp only [Option.map_map]
      rfl
    · rfl
    · rfl

omit [DecidableEq ι] [DecidableEq σ] in
theorem runFinish_unlink (m : MsgId) (major : Major) (e : PendingCall) :
    runFinish m (sh.unlink major e) = (runFinish m sh).map (unlinked major e) := by
  have hpool : (sh.unlink major e).pool = sh.pool := rfl
  simp only [runFinish, hpool]
  split <;> rfl

/-- **A command that does not look at the call lists** does the same with an entry and without. -/
theorem runCmd_unlink {c : Cmd ι σ} (hc : c.usesCallList = false) (major : Major)
    (e : PendingCall) :
    runFused cfg i c a (sh.unlink major e) = (runCmd cfg i c a sh).map (unlinked major e) := by
  cases c with
  | templateProc => exact runTemplateProc_unlink major e
  | remove => exact runRemove_unlink major e
  | userCode k => exact runUserCode_unlink k major e
  | send b => exact runSend_unlink b major e
  | post t m => exact runPost_unlink t m major e
  | syncCheck m o => exact runSyncCheck_unlink m o major e
  | tpend t o => exact runTpend_unlink t o major e
  | handleSubscribe m => exact runHandleSubscribe_unlink m major e
  | busSubscribe ms n => cases a <;> rfl
  | busSignal m => exact runBusSignal_unlink m major e
  | busSignalLoop m subs => exact runBusSignalLoop_unlink m subs major e
  | release m => exact congrArg (fun sh ↦ some (sh, [])) (release_unlink m major e)
  | signalHandler ms m => exact runSignalHandler_unlink ms m major e
  | ipcHandler ms m => exact runIpcHandler_unlink ms m major e
  | finish m => exact runFinish_unlink m major e
  | semPost | remoteReturn | tpost | freeNotifier => rfl
  | busCall | busCallReturn | complete | unlink => cases hc

/-- The two systems differ in the end of a match only. -/
theorem runFused_of_runCmd {c : Cmd ι σ} (hcomplete : ∀ major e, c ≠ .complete major e)
    (hunlink : ∀ major e, c ≠ .unlink major e) :
    runFused cfg i c a sh = runCmd cfg i c a sh := by
  cases c with
  | complete major e => exact absurd rfl (hcomplete major e)
  | unlink major e => exact absurd rfl (hunlink major e)
  | _ => rfl

/-- A command that does not look at the call lists leaves them as they are. -/
theorem callList_runCmd {c : Cmd ι σ} {sh' : Shared ι σ} {cs : List (Cmd ι σ)}
    (hc : c.usesCallList = false) (h : runCmd cfg i c a sh = some (sh', cs)) :
    sh'.callList = sh.callList := by
  have hcall : ∀ m, c ≠ .busCall m := by
    rintro m rfl
    cases hc
  have hcomplete : ∀ major e, c ≠ .complete major e := by
    rintro major e rfl
    cases hc
  have hunlink : ∀ major e, c ≠ .unlink major e := by
    rintro major e rfl
    cases hc
  have hfused := (runFused_of_runCmd hcomplete hunlink).trans h
  exact (move_of_effect (effect_of_runFused hfused)).callList_eq hcall hcomplete

/-- No command of the fused system expands to a `list_del`. -/
theorem Effect.ne_unlink {c d : Cmd ι σ} {sh' : Shared ι σ} {cs : List (Cmd ι σ)}
    (h : Effect cfg i c a sh sh' cs) (hd : d ∈ cs) (major : Major) (e : PendingCall) :
    d ≠ .unlink major e := by
  rintro rfl
  cases h with
  | removed hmq hdst htype hhandler =>
    rw [← List.mem_singleton.1 hd] at hhandler
    cases handles_of_getHandler hhandler
  | userCall hmay =>
    rename_i k f
    cases f <;> simp [callApi] at hd
  | _ => simp at hd

/-- A `list_del` is what follows the release of the request. -/
theorem complete_of_unlink_mem {c : Cmd ι σ} {sh' : Shared ι σ} {cs : List (Cmd ι σ)}
    {major : Major} {e : PendingCall} (h : runCmd cfg i c a sh = some (sh', cs))
    (hd : .unlink major e ∈ cs) : c = .complete major e := by
  by_cases hunlink : ∃ n e', c = .unlink n e'
  · obtain ⟨n, e', rfl⟩ := hunlink
    obtain ⟨-, rfl⟩ := Prod.mk.inj (Option.some.inj h)
    cases hd
  · by_cases hcomplete : ∃ n e', c = .complete n e'
    · obtain ⟨n, e', rfl⟩ := hcomplete
      obtain ⟨-, rfl⟩ := Prod.mk.inj (Option.some.inj h)
      obtain ⟨rfl, rfl⟩ := Cmd.unlink.inj (List.mem_singleton.1 hd)
      rfl
    · have hfused := (runFused_of_runCmd (fun n e' heq ↦ hcomplete ⟨n, e', heq⟩)
        fun n e' heq ↦ hunlink ⟨n, e', heq⟩).trans h
      exact absurd rfl ((effect_of_runFused hfused).ne_unlink hd major e)

end Commute

/-- A step, and the sum of what the commands executed so far are worth. -/
def counted (step : State ι σ → ι × Choice ι σ → Option (State ι σ))
    (f : Cmd ι σ → Shared ι σ → ℕ) (p : State ι σ × ℕ) (l : ι × Choice ι σ) :
    Option (State ι σ × ℕ) :=
  (step p.1 l).map fun t ↦ (t, p.2 + (p.1.threads l.1).head?.elim 0 fun c ↦ f c p.1.shared)

/-- A counted run is a run. -/
theorem run_of_counted {step : State ι σ → ι × Choice ι σ → Option (State ι σ)}
    {f : Cmd ι σ → Shared ι σ → ℕ} {ok : State ι σ → ι × Choice ι σ → Prop} {s : State ι σ} {n : ℕ}
    {y : State ι σ × ℕ} (h : Run (counted step f) (fun x l ↦ ok x.1 l) (s, n) y) :
    Run step ok s y.1 := by
  induction h with
  | refl => exact .refl
  | tail _ hok hstep ih =>
    obtain ⟨t, ht, rfl⟩ := Option.map_eq_some_iff.1 hstep
    exact .tail ih hok ht

/-! ### The fused state -/

section Fuse

variable [Fintype ι] [DecidableEq ι] [DecidableEq σ]

/-- The state with the entry that the bus is about to unlink already taken out of its list. -/
def fuse (cfg : Config ι σ) (s : State ι σ) : State ι σ :=
  match s.threads cfg.busTask with
  | .unlink major e :: rest =>
    ⟨s.shared.unlink major e, Function.update s.threads cfg.busTask rest⟩
  | _ => s

variable {cfg : Config ι σ} {s t : State ι σ} {i : ι} {a : Choice ι σ} {l : ι × Choice ι σ}
  {p : ι → Cmd ι σ → Choice ι σ → Shared ι σ → Prop}

theorem fuse_of_unlink {major : Major} {e : PendingCall} {rest : List (Cmd ι σ)}
    (h : s.threads cfg.busTask = .unlink major e :: rest) :
    fuse cfg s = ⟨s.shared.unlink major e, Function.update s.threads cfg.busTask rest⟩ := by
  unfold fuse
  rw [h]

/-- Where no entry is about to be unlinked there is nothing to fuse. -/
theorem fuse_of_whole (h : ∀ d ∈ s.threads cfg.busTask, ∀ major e, d ≠ .unlink major e) :
    fuse cfg s = s := by
  unfold fuse
  split
  · next major e rest hc => exact absurd rfl (h _ (hc ▸ List.mem_cons_self) major e)
  · rfl

/-- The bus is about to unlink an entry, or the state is its own fused state. -/
theorem fuse_cases (cfg : Config ι σ) (s : State ι σ) :
    (∃ major e rest, s.threads cfg.busTask = .unlink major e :: rest) ∨ fuse cfg s = s := by
  unfold fuse
  split
  · next major e rest hc => exact .inl ⟨major, e, rest, hc⟩
  · exact .inr rfl

/-- A condition on the steps of commands that do not see the call lists, which the entry that is about
to be unlinked makes no easier to meet. -/
def Unseen (p : ι → Cmd ι σ → Choice ι σ → Shared ι σ → Prop) : Prop :=
  ∀ ⦃i c a sh⦄ (major : Major) (e : PendingCall), c.usesCallList = false → p i c a sh →
    p i c a (sh.unlink major e)

omit [Fintype ι] [DecidableEq ι] [DecidableEq σ] in
theorem NoWrap.unseen : Unseen (NoWrap (ι := ι) (σ := σ)) := fun _ _ _ _ _ _ _ h ↦ h

/-- What the fused state's threads have to do is part of what the state's threads have. -/
theorem mem_of_mem_fuse {j : ι} {d : Cmd ι σ} (h : d ∈ (fuse cfg s).threads j) :
    d ∈ s.threads j := by
  rcases fuse_cases cfg s with ⟨major, e, rest, hbus⟩ | hfuse
  · rw [fuse_of_unlink hbus] at h
    exact mem_of_mem_rest hbus h
  · rwa [hfuse] at h

/-- What unlinking an entry keeps holds of the fused state if it does of the state. -/
theorem to_fuse {P : Shared ι σ → Prop} (hP : ∀ sh major e, P sh → P (sh.unlink major e))
    (h : P s.shared) : P (fuse cfg s).shared := by
  rcases fuse_cases cfg s with ⟨major, e, rest, hbus⟩ | hfuse
  · rw [fuse_of_unlink hbus]
    exact hP _ major e h
  · rwa [hfuse]

/-- What does not speak of the call lists holds of a state if it does of the fused state. -/
theorem of_fuse {P : Shared ι σ → Prop} (hP : ∀ sh major e, P (sh.unlink major e) → P sh)
    (h : P (fuse cfg s).shared) : P s.shared := by
  rcases fuse_cases cfg s with ⟨major, e, rest, hbus⟩ | hfuse
  · rw [fuse_of_unlink hbus] at h
    exact hP _ major e h
  · rwa [hfuse] at h

@[simp] theorem fuse_pool (cfg : Config ι σ) (s : State ι σ) :
    (fuse cfg s).shared.pool = s.shared.pool :=
  to_fuse (P := fun sh ↦ sh.pool = s.shared.pool) (fun _ _ _ h ↦ h) rfl

@[simp] theorem fuse_mq (cfg : Config ι σ) (s : State ι σ) :
    (fuse cfg s).shared.mq = s.shared.mq :=
  to_fuse (P := fun sh ↦ sh.mq = s.shared.mq) (fun _ _ _ h ↦ h) rfl

@[simp] theorem fuse_cells (cfg : Config ι σ) (s : State ι σ) :
    (fuse cfg s).shared.cells = s.shared.cells :=
  to_fuse (P := fun sh ↦ sh.cells = s.shared.cells) (fun _ _ _ h ↦ h) rfl

@[simp] theorem fuse_count (cfg : Config ι σ) (s : State ι σ) :
    (fuse cfg s).shared.count = s.shared.count :=
  to_fuse (P := fun sh ↦ sh.count = s.shared.count) (fun _ _ _ h ↦ h) rfl

@[simp] theorem fuse_msgList (cfg : Config ι σ) (s : State ι σ) :
    (fuse cfg s).shared.msgList = s.shared.msgList :=
  to_fuse (P := fun sh ↦ sh.msgList = s.shared.msgList) (fun _ _ _ h ↦ h) rfl

@[simp] theorem fuse_heap (cfg : Config ι σ) (s : State ι σ) :
    (fuse cfg s).shared.heap = s.shared.heap :=
  to_fuse (P := fun sh ↦ sh.heap = s.shared.heap) (fun _ _ _ h ↦ h) rfl

@[simp] theorem fuse_draws (cfg : Config ι σ) (s : State ι σ) :
    (fuse cfg s).shared.draws = s.shared.draws :=
  to_fuse (P := fun sh ↦ sh.draws = s.shared.draws) (fun _ _ _ h ↦ h) rfl

@[simp] theorem fuse_trace (cfg : Config ι σ) (s : State ι σ) :
    (fuse cfg s).shared.trace = s.shared.trace :=
  to_fuse (P := fun sh ↦ sh.trace = s.shared.trace) (fun _ _ _ h ↦ h) rfl

omit [Fintype ι] [DecidableEq ι] [DecidableEq σ] in
theorem mem_callList_of_unlink {sh : Shared ι σ} {major n : Major} {e e' : PendingCall}
    (h : e ∈ (sh.unlink n e').callList major) : e ∈ sh.callList major := by
  have hmem : e ∈ Function.update sh.callList n ((sh.callList n).erase e') major := h
  by_cases hm : major = n
  · rw [hm, Function.update_self] at hmem
    exact hm ▸ List.mem_of_mem_erase hmem
  · rwa [Function.update_of_ne hm] at hmem

/-- An entry of the fused state stands in the call list. -/
theorem mem_callList_of_fuse {major : Major} {e : PendingCall}
    (h : e ∈ (fuse cfg s).shared.callList major) : e ∈ s.shared.callList major := by
  rcases fuse_cases cfg s with ⟨n, e', rest, hbus⟩ | hfuse
  · rw [fuse_of_unlink hbus] at h
    exact mem_callList_of_unlink h
  · rwa [hfuse] at h

/-- An entry that is not about to be unlinked stands in the fused state's call list. -/
theorem mem_callList_fuse {major : Major} {e : PendingCall} (h : e ∈ s.shared.callList major)
    (hne : .unlink major e ∉ s.threads cfg.busTask) : e ∈ (fuse cfg s).shared.callList major := by
  rcases fuse_cases cfg s with ⟨n, e', rest, hbus⟩ | hfuse
  · rw [fuse_of_unlink hbus]
    show e ∈ Function.update s.shared.callList n ((s.shared.callList n).erase e') major
    by_cases hm : major = n
    · subst hm
      have hee : e ≠ e' := fun heq ↦ hne (heq ▸ hbus ▸ List.mem_cons_self)
      rw [Function.update_self]
      exact (List.mem_erase_of_ne hee).2 h
    · rwa [Function.update_of_ne hm]
  · rwa [hfuse]

/-- What a thread has to do besides a `list_del` it has to do in the fused state. -/
theorem mem_fuse_of_ne {d : Cmd ι σ} (hd : d ∈ s.threads i) (hne : ∀ major e, d ≠ .unlink major e) :
    d ∈ (fuse cfg s).threads i := by
  rcases fuse_cases cfg s with ⟨major, e, tail, hbus⟩ | hfuse
  · rw [fuse_of_unlink hbus]
    dsimp only
    by_cases hi : i = cfg.busTask
    · rw [hi, Function.update_self]
      rw [hi, hbus] at hd
      exact (List.mem_cons.1 hd).resolve_left (hne major e)
    · rwa [Function.update_of_ne hi]
  · rwa [hfuse]

/-- A thread that is not at a `list_del` has the same commands in the fused state. -/
theorem threads_fuse_of_ne {c : Cmd ι σ} {rest : List (Cmd ι σ)} (hc : s.threads i = c :: rest)
    (hne : ∀ major e, c ≠ .unlink major e) : (fuse cfg s).threads i = c :: rest := by
  rcases fuse_cases cfg s with ⟨major, e, tail, hbus⟩ | hfuse
  · have hi : i ≠ cfg.busTask := fun heq ↦ by
      rw [heq, hbus] at hc
      exact hne major e (List.cons.inj hc).1.symm
    rw [fuse_of_unlink hbus]
    exact (Function.update_of_ne hi _ _).trans hc
  · rw [hfuse, hc]

/-- What the fused state of a reachable state is. -/
structure Split (cfg : Config ι σ) (s : State ι σ) : Prop where
  good : Good cfg (fuse cfg s)
  /-- The bus unlinks before it does anything else. -/
  whole : ∀ j, ∀ d ∈ (fuse cfg s).threads j, ∀ major e, d ≠ .unlink major e
  /-- The entry the bus is about to unlink is in its call list. -/
  linked : ∀ {major e rest}, s.threads cfg.busTask = .unlink major e :: rest →
    e ∈ s.shared.callList major

namespace Split

/-- A command of another task than the bus's is the same in the fused state. -/
theorem threads_fuse {major : Major} {e : PendingCall} {tail : List (Cmd ι σ)}
    (hbus : s.threads cfg.busTask = .unlink major e :: tail) (hi : i ≠ cfg.busTask) :
    (fuse cfg s).threads i = s.threads i := by
  rw [fuse_of_unlink hbus]
  exact Function.update_of_ne hi _ _

/-- The call lists are the bus's. -/
theorem not_usesCallList (h : Split cfg s) {c : Cmd ι σ} (hc : c ∈ (fuse cfg s).threads i)
    (hi : i ≠ cfg.busTask) : c.usesCallList = false := by
  have hknows := h.good.knows i c hc
  have hwhole := h.whole i c hc
  cases c with
  | busCall | busCallReturn | complete => exact absurd hknows.1 hi
  | unlink major e => exact absurd rfl (hwhole major e)
  | _ => rfl

/-- What is not a step of the bus from a `list_del` is no `list_del`. -/
theorem ne_unlink_of_head (h : Split cfg s) {c : Cmd ι σ} {rest : List (Cmd ι σ)}
    (hi : ¬∃ major e rest, s.threads cfg.busTask = .unlink major e :: rest ∧ i = cfg.busTask)
    (hc : s.threads i = c :: rest) (major : Major) (e : PendingCall) : c ≠ .unlink major e := by
  rintro rfl
  rcases fuse_cases cfg s with ⟨n, e', tail, hbus⟩ | hfuse
  · have hne : i ≠ cfg.busTask := fun heq ↦ hi ⟨n, e', tail, hbus, heq⟩
    exact h.whole i _ (by rw [threads_fuse hbus hne, hc]; exact List.mem_cons_self) major e rfl
  · exact h.whole i _ (by rw [hfuse, hc]; exact List.mem_cons_self) major e rfl

/-- What a thread does later is no `list_del`. -/
theorem ne_unlink_of_rest (h : Split cfg s) {c d : Cmd ι σ} {rest : List (Cmd ι σ)}
    (hc : s.threads i = c :: rest) (hd : d ∈ rest) (major : Major) (e : PendingCall) :
    d ≠ .unlink major e := by
  suffices hmem : d ∈ (fuse cfg s).threads i from h.whole i d hmem major e
  rcases fuse_cases cfg s with ⟨n, e', tail, hbus⟩ | hfuse
  · by_cases hi : i = cfg.busTask
    · subst hi
      obtain ⟨rfl, rfl⟩ := List.cons.inj (hc.symm.trans hbus)
      rw [fuse_of_unlink hbus]
      dsimp only
      rwa [Function.update_self]
    · rw [threads_fuse hbus hi, hc]
      exact List.mem_cons_of_mem _ hd
  · rw [hfuse, hc]
    exact List.mem_cons_of_mem _ hd

/-- The `list_del` of the bus changes nothing in the fused state. -/
theorem fuse_unlinked (h : Split cfg s) {major : Major} {e : PendingCall} {tail : List (Cmd ι σ)}
    (hbus : s.threads cfg.busTask = .unlink major e :: tail)
    (hstep : (system cfg).step s (cfg.busTask, a) = some t) : fuse cfg t = fuse cfg s := by
  obtain ⟨c, rest, sh', cs, hc, hrun, rfl⟩ := (system cfg).step_eq_some_iff.1 hstep
  obtain ⟨rfl, rfl⟩ := List.cons.inj (hc.symm.trans hbus)
  obtain ⟨rfl, rfl⟩ := Prod.mk.inj (Option.some.inj hrun)
  have hwhole := h.whole
  rw [fuse_of_unlink hbus] at hwhole ⊢
  exact fuse_of_whole (hwhole cfg.busTask)

/-- **Every other step** is a step of the fused system. -/
theorem step_fused (h : Split cfg s)
    (hi : ¬∃ major e rest, s.threads cfg.busTask = .unlink major e :: rest ∧ i = cfg.busTask)
    (hstep : (system cfg).step s (i, a) = some t) :
    (fused cfg).step (fuse cfg s) (i, a) = some (fuse cfg t) := by
  obtain ⟨c, rest, sh', cs, hc, hrun, rfl⟩ := (system cfg).step_eq_some_iff.1 hstep
  have hrun : runCmd cfg i c a s.shared = some (sh', cs) := hrun
  rcases fuse_cases cfg s with ⟨major, e, tail, hbus⟩ | hfuse
  · -- another task, which does not see the entry
    have hne : i ≠ cfg.busTask := fun heq ↦ hi ⟨major, e, tail, hbus, heq⟩
    refine (fused cfg).step_eq_some_iff.2 ⟨c, rest, sh'.unlink major e, cs, ?_, ?_, ?_⟩
    · rw [threads_fuse hbus hne, hc]
    · have huses : c.usesCallList = false := h.not_usesCallList
        (by rw [threads_fuse hbus hne, hc]; exact List.mem_cons_self) hne
      have hcommute : runFused cfg i c a (s.shared.unlink major e) =
          (runCmd cfg i c a s.shared).map (unlinked major e) := runCmd_unlink huses major e
      rw [fuse_of_unlink hbus]
      exact hcommute.trans (congrArg (Option.map (unlinked major e)) hrun)
    · have hbus' : Function.update s.threads i (cs ++ rest) cfg.busTask =
          .unlink major e :: tail := by
        rw [Function.update_of_ne (Ne.symm hne), hbus]
      rw [fuse_of_unlink hbus, fuse_of_unlink hbus']
      exact congrArg _ (Function.update_comm hne _ _ _)
  · have hmem : c ∈ (fuse cfg s).threads i := by rw [hfuse, hc]; exact List.mem_cons_self
    have hwhole := h.whole
    have hknows := h.good.knows i c hmem
    rw [hfuse] at hwhole hknows
    by_cases hcomplete : ∃ major e, c = .complete major e
    · -- the release of the request, which the fused system makes together with the `list_del`
      obtain ⟨major, e, rfl⟩ := hcomplete
      obtain ⟨rfl, -⟩ := hknows
      obtain ⟨rfl, rfl⟩ := Prod.mk.inj (Option.some.inj hrun)
      refine (fused cfg).step_eq_some_iff.2 ⟨_, rest, _, [], hfuse ▸ hc, by rw [hfuse]; rfl, ?_⟩
      rw [fuse_of_unlink (Function.update_self _ _ _), hfuse]
      exact congrArg _ (Function.update_idem _ _ _)
    · have hrun' : runFused cfg i c a s.shared = some (sh', cs) := by
        cases c with
        | complete major e => exact absurd ⟨major, e, rfl⟩ hcomplete
        | unlink major e => exact absurd rfl (hwhole i _ (hfuse ▸ hmem) major e)
        | _ => exact hrun
      have hnone : ∀ d ∈ Function.update s.threads i (cs ++ rest) cfg.busTask, ∀ major e,
          d ≠ .unlink major e := fun d hd ↦
        (mem_expand_iff.1 hd).elim (fun hnew ↦ (effect_of_runFused hrun').ne_unlink hnew.2)
          fun hrest ↦ hwhole _ d (mem_of_mem_rest hc hrest)
      rw [hfuse, fuse_of_whole hnone]
      exact (fused cfg).step_eq_some_iff.2 ⟨c, rest, sh', cs, hc, hrun', rfl⟩

/-- **Where a `list_del` comes from**: the bus was at it, or has just released the request. -/
theorem unlink_origin (h : Split cfg s) (hstep : (system cfg).step s (i, a) = some t)
    {major : Major} {e : PendingCall} {tail : List (Cmd ι σ)}
    (hbus : t.threads cfg.busTask = .unlink major e :: tail) :
    i ≠ cfg.busTask ∧ s.threads cfg.busTask = .unlink major e :: tail ∨
      i = cfg.busTask ∧ ∃ rest, s.threads i = .complete major e :: rest := by
  obtain ⟨c, rest, sh', cs, hc, hrun, rfl⟩ := (system cfg).step_eq_some_iff.1 hstep
  by_cases hi : i = cfg.busTask
  · subst hi
    have hmem : Cmd.unlink major e ∈ cs ++ rest :=
      (Function.update_self cfg.busTask (cs ++ rest) s.threads).symm.trans hbus ▸
        List.mem_cons_self
    have hnew : Cmd.unlink major e ∈ cs := (List.mem_append.1 hmem).elim id
      fun hd ↦ absurd rfl (h.ne_unlink_of_rest hc hd major e)
    exact .inr ⟨rfl, rest, by rw [hc, complete_of_unlink_mem hrun hnew]⟩
  · exact .inl ⟨hi, (Function.update_of_ne (Ne.symm hi) _ _).symm.trans hbus⟩

/-- An entry that is about to be unlinked is in its list: the match has found it there, and the call
lists are the bus's. -/
theorem linked_step (h : Split cfg s) (hstep : (system cfg).step s (i, a) = some t)
    {major : Major} {e : PendingCall} {tail : List (Cmd ι σ)}
    (hbus : t.threads cfg.busTask = .unlink major e :: tail) : e ∈ t.shared.callList major := by
  have horigin := h.unlink_origin hstep hbus
  obtain ⟨c, rest, sh', cs, hc, hrun, rfl⟩ := (system cfg).step_eq_some_iff.1 hstep
  have hrun : runCmd cfg i c a s.shared = some (sh', cs) := hrun
  rcases horigin with ⟨hi, hbus⟩ | ⟨rfl, rest', hc'⟩
  · have huses : c.usesCallList = false := h.not_usesCallList
      (by rw [threads_fuse hbus hi, hc]; exact List.mem_cons_self) hi
    exact (callList_runCmd huses hrun).symm ▸ h.linked hbus
  · obtain ⟨rfl, -⟩ := List.cons.inj (hc.symm.trans hc')
    obtain ⟨rfl, -⟩ := Prod.mk.inj (Option.some.inj hrun)
    have hknows := h.good.knows cfg.busTask (.complete major e)
      (by rw [threads_fuse_of_ne hc fun _ _ heq ↦ by cases heq]; exact List.mem_cons_self)
    show e ∈ (s.shared.release e.msg).callList major
    rw [callList_release]
    exact mem_callList_of_fuse hknows.2

/-- A condition on steps of the system, at the step of the fused system. -/
theorem atHead_fuse (h : Split cfg s) (hp : Unseen p) (hok : AtHead p s (i, a))
    (hi : ¬∃ major e rest, s.threads cfg.busTask = .unlink major e :: rest ∧ i = cfg.busTask) :
    AtHead p (fuse cfg s) (i, a) := by
  rcases fuse_cases cfg s with ⟨major, e, tail, hbus⟩ | hfuse
  · have hne : i ≠ cfg.busTask := fun heq ↦ hi ⟨major, e, tail, hbus, heq⟩
    refine AtHead.of_cmd fun c rest hc ↦ ?_
    have huses := h.not_usesCallList (hc ▸ List.mem_cons_self) hne
    rw [threads_fuse hbus hne] at hc
    rw [fuse_of_unlink hbus]
    exact hp major e huses (hok.cmd hc)
  · rwa [hfuse]

/-- **The step lemma.** -/
theorem step (h : Split cfg s) (hp : Unseen p)
    (hgood : AtHead p (fuse cfg s) (i, a) →
      (fused cfg).step (fuse cfg s) (i, a) = some (fuse cfg t) → Good cfg (fuse cfg t))
    (hok : AtHead p s (i, a)) (hstep : (system cfg).step s (i, a) = some t) :
    Split cfg t ∧ (fuse cfg t = fuse cfg s ∨
      AtHead p (fuse cfg s) (i, a) ∧ (fused cfg).step (fuse cfg s) (i, a) = some (fuse cfg t)) := by
  by_cases hi : ∃ major e rest, s.threads cfg.busTask = .unlink major e :: rest ∧ i = cfg.busTask
  · obtain ⟨major, e, rest, hbus, rfl⟩ := hi
    have heq := h.fuse_unlinked hbus hstep
    exact ⟨⟨heq ▸ h.good, heq ▸ h.whole, h.linked_step hstep⟩, .inl heq⟩
  · have hfused := h.step_fused hi hstep
    have hok' := h.atHead_fuse hp hok hi
    obtain ⟨c, rest, sh', cs, hc, he, heq⟩ := effect_of_step hfused
    refine ⟨⟨hgood hok' hfused, fun j d hd ↦ ?_, h.linked_step hstep⟩, .inr ⟨hok', hfused⟩⟩
    rw [heq] at hd
    exact (mem_expand_iff.1 hd).elim (fun hnew ↦ he.ne_unlink hnew.2)
      fun hrest ↦ h.whole j d (mem_of_mem_rest hc hrest)

theorem ne_unlink_initial {d : Cmd ι σ} (hd : d ∈ (initial cfg).threads i) (major : Major)
    (e : PendingCall) : d ≠ .unlink major e := by
  rintro rfl
  unfold initial at hd
  dsimp only at hd
  split at hd <;> simp at hd

theorem fuse_initial (cfg : Config ι σ) : fuse cfg (initial cfg) = initial cfg :=
  fuse_of_whole fun _ ↦ ne_unlink_initial

theorem initial (cfg : Config ι σ) : Split cfg (initial cfg) where
  good := (fuse_initial cfg).symm ▸ Good.initial cfg
  whole := (fuse_initial cfg).symm ▸ fun _ _ ↦ ne_unlink_initial
  linked hbus := absurd rfl (ne_unlink_initial (hbus ▸ List.mem_cons_self) _ _)

/-- **The reduction**: a run of the system is a run of the fused system between the fused states,
under every condition that keeps the fused system's invariant. -/
theorem run (hr : Run (system cfg).step (AtHead p) s t) (hs : Split cfg s) (hp : Unseen p)
    (hgood : ∀ {u}, Run (fused cfg).step (AtHead p) (fuse cfg s) u → Good cfg u) :
    Split cfg t ∧ Run (fused cfg).step (AtHead p) (fuse cfg s) (fuse cfg t) := by
  induction hr with
  | refl => exact ⟨hs, .refl⟩
  | tail hr hok hstep ih =>
    obtain ⟨hsplit, heq | ⟨hok', hfused⟩⟩ := ih.1.step hp
      (fun hok' hfused ↦ hgood (.tail ih.2 hok' hfused)) hok hstep
    · exact ⟨hsplit, heq ▸ ih.2⟩
    · exact ⟨hsplit, .tail ih.2 hok' hfused⟩

/-- The reduction of a run from the first state. -/
theorem of_run (hr : Run (system cfg).step (AtHead p) (Mblue.initial cfg) t) (hp : Unseen p)
    (hgood : ∀ {u}, Run (fused cfg).step (AtHead p) (Mblue.initial cfg) u → Good cfg u) :
    Split cfg t ∧ Run (fused cfg).step (AtHead p) (Mblue.initial cfg) (fuse cfg t) := by
  have h := run hr (initial cfg) hp
  rw [fuse_initial] at h
  exact h hgood

/-- The reduction of a run in which no counter wraps around. -/
theorem of_noWrap (hr : Run (system cfg).step (AtHead p) (Mblue.initial cfg) t) (hp : Unseen p)
    (hwrap : ∀ {i c a sh}, p i c a sh → NoWrap i c a sh) :
    Split cfg t ∧ Run (fused cfg).step (AtHead p) (Mblue.initial cfg) (fuse cfg t) :=
  of_run hr hp fun h ↦ Good.of_run (h.mono fun hok ↦ hok.mono hwrap)

/-- The reduction of a call of user code after such a run. -/
theorem of_api {f : Api ι σ} (hr : Run (system cfg).step (AtHead NoWrap) (Mblue.initial cfg) s)
    (hc : ∃ k rest, s.threads i = .userCode k :: rest)
    (hstep : (system cfg).step s (i, .api f) = some t) :
    Split cfg t ∧ Run (fused cfg).step (AtHead NoWrap) (Mblue.initial cfg) (fuse cfg s) ∧
      (fused cfg).step (fuse cfg s) (i, .api f) = some (fuse cfg t) := by
  obtain ⟨k, rest, hc⟩ := hc
  have hok : AtHead NoWrap s (i, .api f) := AtHead.of_cmd fun c rest' hc' m hm ↦ by
    cases (List.cons.inj (hc.symm.trans hc')).1.trans hm
  obtain ⟨hsplit, hrun⟩ := of_noWrap hr NoWrap.unseen id
  refine ⟨(of_noWrap (.tail hr hok hstep) NoWrap.unseen id).1, hrun, hsplit.step_fused ?_ hstep⟩
  rintro ⟨major, e, tail, hbus, rfl⟩
  cases (List.cons.inj (hc.symm.trans hbus)).1

/-! #### Counted runs -/

/-- **The reduction of a counted run.** A count that does not see the call lists, and to which the
`list_del` adds nothing. -/
theorem run_counted {f : Cmd ι σ → Shared ι σ → ℕ} {n : ℕ} {y : State ι σ × ℕ}
    (hr : Run (counted (system cfg).step f) (fun x l ↦ AtHead p x.1 l) (s, n) y)
    (hs : Split cfg s) (hp : Unseen p) (hf : ∀ c sh major e, f c (sh.unlink major e) = f c sh)
    (hzero : ∀ major e sh, f (.unlink major e) sh = 0)
    (hgood : ∀ {u : State ι σ × ℕ}, Run (counted (fused cfg).step f) (fun x l ↦ AtHead p x.1 l)
      (fuse cfg s, n) u → Good cfg u.1) :
    Split cfg y.1 ∧ Run (counted (fused cfg).step f) (fun x l ↦ AtHead p x.1 l) (fuse cfg s, n)
      (fuse cfg y.1, y.2) := by
  induction hr with
  | refl => exact ⟨hs, .refl⟩
  | @tail x y' l hr hok hstep ih =>
    obtain ⟨u, k⟩ := x
    obtain ⟨i, a⟩ := l
    obtain ⟨hsplit, hrun⟩ := ih
    have hok : AtHead p u (i, a) := hok
    obtain ⟨t, ht, rfl⟩ := Option.map_eq_some_iff.1 hstep
    have ht : (system cfg).step u (i, a) = some t := ht
    obtain ⟨c, rest, sh', cs, hc, -, -⟩ := (system cfg).step_eq_some_iff.1 ht
    by_cases hi : ∃ major e rest, u.threads cfg.busTask = .unlink major e :: rest ∧ i = cfg.busTask
    · -- the fused system does not see the step, and it counts nothing
      obtain ⟨major, e, tail, hbus, rfl⟩ := hi
      have hzero : ((u.threads cfg.busTask).head?.elim 0 fun c ↦ f c u.shared) = 0 := by
        rw [hbus]
        exact hzero major e u.shared
      have heq := hsplit.fuse_unlinked hbus ht
      refine ⟨⟨heq ▸ hsplit.good, heq ▸ hsplit.whole, hsplit.linked_step ht⟩, ?_⟩
      dsimp only
      rw [hzero, heq]
      exact hrun
    · have hc' : (fuse cfg u).threads i = c :: rest :=
        threads_fuse_of_ne hc (hsplit.ne_unlink_of_head hi hc)
      have hsame : f c (fuse cfg u).shared = f c u.shared :=
        to_fuse (P := fun sh ↦ f c sh = f c u.shared) (fun sh n e h ↦ (hf c sh n e).trans h) rfl
      have hfused : counted (fused cfg).step f (fuse cfg u, k) (i, a) =
          some (fuse cfg t, k + ((u.threads i).head?.elim 0 fun c ↦ f c u.shared)) := by
        rw [counted, hsplit.step_fused hi ht, Option.map_some, hc', hc, List.head?_cons,
          Option.elim_some, Option.elim_some, hsame]
      have hrun' := Run.tail hrun (hsplit.atHead_fuse hp hok hi) hfused
      refine ⟨(hsplit.step hp (fun _ _ ↦ hgood hrun') hok ht).1, hrun'⟩

end Split

/-- The call has the same effect on the fused state. -/
theorem callApi_fuse (f : Api ι σ) :
    (callApi cfg i (fuse cfg s).shared f).2 = (callApi cfg i s.shared f).2 :=
  to_fuse (P := fun sh ↦ (callApi cfg i sh f).2 = (callApi cfg i s.shared f).2)
    (fun sh major e h ↦ by rw [callApi_unlink]; exact h) rfl

end Fuse

end Mblue
