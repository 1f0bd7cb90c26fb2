import Mblue.System.Machine

/-!
# How `bus_call` fails

`bus_call` with what the command `busCall` of `System/Machine.lean` leaves out: its return value, its
variable `call`, the blocks its entries live in, and the pointer `nproc` of the destination's task.
The machine's tasks all have theirs, and then the two are the same function (`runBusCall_of_busCall`).

`FailsCleanly` is what a caller would like to conclude from an error: the call lists are as before,
nothing was freed but an entry of this invocation that is in no list, and the request's counter is
unchanged. The exits at the missing segment, at the missing context and at the failed allocation keep
it. **The last one does not** (`failsCleanly_iff`): when the task has no `nproc`, the entry has been
linked already, and `free_call` frees it where it stands; for an asynchronous call without notifier
there is no entry, and `free_call` frees a variable that was never set.
-/

namespace Mblue

variable {ι σ : Type}

/-! ### The function -/

/-- The call lists, with the address of each entry. -/
abbrev CallLists := Major → List (ℕ × PendingCall)

/-- The variable `call`. -/
inductive CallPointer
  | uninitialised
  | block (p : ℕ)
  deriving DecidableEq, Repr

/-- What `bus_call` returns and leaves behind. -/
structure CallOutcome (ι σ : Type) where
  rc : MblueErrcode
  lists : CallLists
  msg : Message ι σ
  /-- The block `mblue_malloc` returned. -/
  allocated : Option ℕ
  /-- The arguments of `mblue_free`. -/
  freed : List CallPointer
  /-- The task whose `nproc` was called. -/
  posted : Option ι

/-- `list_add_tail` of the entry at address `p`. -/
def CallLists.link (lists : CallLists) (major : Major) (p : ℕ) (e : PendingCall) : CallLists :=
  Function.update lists major (lists major ++ [(p, e)])

/-- `bus_call` from the test of `nproc` on, for the segment `ms` of task `t`. -/
def notifyTask (nproc : ι → Bool) (ms : σ) (t : ι) (call : CallPointer) (allocated : Option ℕ)
    (lists : CallLists) (msg : Message ι σ) : CallOutcome ι σ :=
  if nproc t then
    { rc := .ok
      lists := lists
      msg := { msg with ref := getMblueMessage msg.ref, dst := some ms }
      allocated := allocated
      freed := []
      posted := some t }
  else
    -- `goto free_call` with `rc` still at its first value
    { rc := .errUnknown
      lists := lists
      msg := msg
      allocated := allocated
      freed := [call]
      posted := none }

/-- `goto exit_point`. -/
def exitPoint (lists : CallLists) (msg : Message ι σ) : CallOutcome ι σ where
  rc := .errUnknown
  lists := lists
  msg := msg
  allocated := none
  freed := []
  posted := none

/-- `bus_call` on the request `m` with contents `msg`; `mem` is what `mblue_malloc` returns. -/
def busCall (cfg : Config ι σ) (nproc : ι → Bool) (mem : Option ℕ) (lists : CallLists)
    (msg : Message ι σ) (m : MsgId) : Option (CallOutcome ι σ) :=
  msg.major.map fun major ↦
    match (cfg.node major).bind fun ms ↦ (cfg.context ms).map fun t ↦ (ms, t) with
    | none => exitPoint lists msg
    | some (ms, t) =>
      match pendingCall msg m with
      | none => notifyTask nproc ms t .uninitialised none lists msg
      | some e =>
        match mem with
        | none => exitPoint lists msg
        | some p => notifyTask nproc ms t (.block p) (some p) (lists.link major p e) msg

variable {cfg : Config ι σ} {nproc : ι → Bool} {mem : Option ℕ} {lists : CallLists}
  {msg : Message ι σ} {m : MsgId} {major : Major} {ms : σ} {t : ι} {e : PendingCall} {p : ℕ}

theorem busCall_of_noSegment (hmajor : msg.major = some major)
    (hnode : ∀ ms, cfg.node major = some ms → cfg.context ms = none) :
    busCall cfg nproc mem lists msg m = some (exitPoint lists msg) := by
  have hnone : ((cfg.node major).bind fun ms ↦ (cfg.context ms).map fun t ↦ (ms, t)) = none := by
    refine Option.bind_eq_none_iff.2 fun ms hms ↦ ?_
    rw [hnode ms hms, Option.map_none]
  rw [busCall, hmajor, Option.map_some, hnone]

section Found

variable (hmajor : msg.major = some major) (hnode : cfg.node major = some ms)
  (hctx : cfg.context ms = some t)

include hmajor hnode hctx

theorem busCall_of_noEntry (hentry : pendingCall msg m = none) :
    busCall cfg nproc mem lists msg m =
      some (notifyTask nproc ms t .uninitialised none lists msg) := by
  rw [busCall, hmajor, Option.map_some, hnode, Option.bind_some, hctx, Option.map_some]
  dsimp only
  rw [hentry]

theorem busCall_of_noMemory (hentry : pendingCall msg m = some e) :
    busCall cfg nproc none lists msg m = some (exitPoint lists msg) := by
  rw [busCall, hmajor, Option.map_some, hnode, Option.bind_some, hctx, Option.map_some]
  dsimp only
  rw [hentry]

theorem busCall_of_linked (hentry : pendingCall msg m = some e) :
    busCall cfg nproc (some p) lists msg m =
      some (notifyTask nproc ms t (.block p) (some p) (lists.link major p e) msg) := by
  rw [busCall, hmajor, Option.map_some, hnode, Option.bind_some, hctx, Option.map_some]
  dsimp only
  rw [hentry]

end Found

/-! ### The same code as the machine's -/

/-- The list of entries without their addresses. -/
def CallLists.entries (lists : CallLists) (major : Major) : List PendingCall :=
  (lists major).map (·.2)

theorem CallLists.entries_link (lists : CallLists) (major : Major) (p : ℕ) (e : PendingCall) :
    (lists.link major p e).entries =
      Function.update lists.entries major (lists.entries major ++ [e]) := by
  funext n
  rw [entries, link]
  by_cases hn : n = major
  · subst hn
    rw [Function.update_self, Function.update_self, List.map_append]
    rfl
  · rw [Function.update_of_ne hn, Function.update_of_ne hn]
    rfl

/-- **The command `busCall` is `bus_call` for tasks that have their `nproc`.** -/
theorem runBusCall_of_busCall [DecidableEq ι] [DecidableEq σ] {sh : Shared ι σ}
    {r : CallOutcome ι σ}
    (hlists : lists.entries = sh.callList)
    (h : busCall cfg (fun _ ↦ true) mem lists (sh.pool m) m = some r) :
    ∃ sh', runBusCall cfg m (if mem = none then .fail else .go) sh =
        some (sh', r.posted.elim [.userCode .log] fun t ↦ [.post t m]) ∧
      sh'.callList = r.lists.entries ∧ sh'.pool = Function.update sh.pool m r.msg := by
  obtain ⟨major, hmajor, -⟩ := Option.map_eq_some_iff.1 h
  -- the cases of the source: no segment, no entry to make, no memory for it, linked
  by_cases hfound : ∃ ms t, cfg.node major = some ms ∧ cfg.context ms = some t
  · obtain ⟨ms, t, hnode, hctx⟩ := hfound
    cases hentry : pendingCall (sh.pool m) m with
    | none =>
      rw [busCall_of_noEntry hmajor hnode hctx hentry] at h
      cases h
      refine ⟨sh.forward m ms, ?_, hlists.symm, rfl⟩
      rw [runBusCall, hmajor, Option.bind_some, hnode, Option.bind_some, hctx, Option.map_some]
      dsimp only
      rw [hentry]
      rfl
    | some e =>
      cases mem with
      | none =>
        rw [busCall_of_noMemory hmajor hnode hctx hentry] at h
        cases h
        refine ⟨sh, ?_, hlists.symm, (Function.update_eq_self _ _).symm⟩
        rw [runBusCall, hmajor, Option.bind_some, hnode, Option.bind_some, hctx, Option.map_some]
        dsimp only
        rw [hentry]
        rfl
      | some p =>
        rw [busCall_of_linked hmajor hnode hctx hentry] at h
        cases h
        refine ⟨((sh.link major e).log (.linked major e (sh.pool m).seq)).forward m ms, ?_, ?_,
          rfl⟩
        · rw [runBusCall, hmajor, Option.bind_some, hnode, Option.bind_some, hctx,
            Option.map_some]
          dsimp only
          rw [hentry]
          rfl
        · refine Eq.trans ?_ (CallLists.entries_link lists major p e).symm
          rw [hlists]
          rfl
  · have hnone : ∀ ms, cfg.node major = some ms → cfg.context ms = none := fun ms hnode ↦
      Option.eq_none_iff_forall_ne_some.2 fun t hctx ↦ hfound ⟨ms, t, hnode, hctx⟩
    rw [busCall_of_noSegment hmajor hnone] at h
    cases h
    refine ⟨sh, ?_, hlists.symm, (Function.update_eq_self _ _).symm⟩
    have hbind : ((cfg.node major).bind fun ms ↦ (cfg.context ms).map fun t ↦ (ms, t)) = none := by
      refine Option.bind_eq_none_iff.2 fun ms hms ↦ ?_
      rw [hnone ms hms, Option.map_none]
    rw [runBusCall, hmajor, Option.bind_some, hbind]
    rfl

/-! ### Clean failures -/

/-- An error means that the call lists and the request's counter are as before, and that nothing was
freed but an entry of this invocation that is in no list. -/
structure FailsCleanly (lists : CallLists) (msg : Message ι σ) (r : CallOutcome ι σ) : Prop where
  lists_eq : r.rc ≠ .ok → r.lists = lists
  ref_eq : r.rc ≠ .ok → r.msg.ref = msg.ref
  freed_own : r.rc ≠ .ok → ∀ c ∈ r.freed, ∃ p, c = .block p ∧ r.allocated = some p ∧
    ∀ major, ∀ x ∈ r.lists major, x.1 ≠ p

/-- `bus_call` gets to the test of `nproc`, for a task that has none. -/
def LacksNproc (cfg : Config ι σ) (nproc : ι → Bool) (mem : Option ℕ) (major : Major)
    (msg : Message ι σ) (m : MsgId) : Prop :=
  ∃ ms t, cfg.node major = some ms ∧ cfg.context ms = some t ∧ nproc t = false ∧
    (pendingCall msg m = none ∨ mem ≠ none)

/-- The early exits leave everything as it was. -/
theorem failsCleanly_exitPoint : FailsCleanly lists msg (exitPoint lists msg) :=
  ⟨fun _ ↦ rfl, fun _ ↦ rfl, fun _ c hc ↦ by cases hc⟩

/-- A call that is passed on has not failed. -/
theorem failsCleanly_of_nproc {call : CallPointer} {allocated : Option ℕ} {lists' : CallLists}
    (h : nproc t = true) :
    FailsCleanly lists msg (notifyTask nproc ms t call allocated lists' msg) := by
  have hok : (notifyTask nproc ms t call allocated lists' msg).rc = .ok := by
    rw [notifyTask, if_pos h]
  exact ⟨fun hne ↦ absurd hok hne, fun hne ↦ absurd hok hne, fun hne ↦ absurd hok hne⟩

/-- The error of a task without `nproc`: the variable `call` is freed, whatever it is, and the lists
stay as they have become. -/
theorem notifyTask_of_not_nproc {call : CallPointer} {allocated : Option ℕ} {lists' : CallLists}
    (h : nproc t = false) : notifyTask nproc ms t call allocated lists' msg =
      ⟨.errUnknown, lists', msg, allocated, [call], none⟩ := by
  rw [notifyTask, h, if_neg Bool.false_ne_true]

/-- What is freed there is an uninitialised pointer, or an entry that is in its list. -/
theorem not_failsCleanly_of_not_nproc (h : nproc t = false) :
    ¬FailsCleanly lists msg (notifyTask nproc ms t .uninitialised none lists msg) ∧
      ¬FailsCleanly lists msg
        (notifyTask nproc ms t (.block p) (some p) (lists.link major p e) msg) := by
  have herr : MblueErrcode.errUnknown ≠ .ok := by decide
  constructor
  · intro hclean
    rw [notifyTask_of_not_nproc h] at hclean
    obtain ⟨q, hq, -⟩ := hclean.freed_own herr .uninitialised (List.mem_singleton_self _)
    cases hq
  · intro hclean
    rw [notifyTask_of_not_nproc h] at hclean
    obtain ⟨q, hq, -, hout⟩ := hclean.freed_own herr (.block p) (List.mem_singleton_self _)
    cases hq
    have hlinked : (p, e) ∈ lists.link major p e major := by
      rw [CallLists.link, Function.update_self]
      exact List.mem_append_right _ (List.mem_singleton_self _)
    exact hout major _ hlinked rfl

/-- **When `bus_call` fails cleanly**: unless it gets as far as a task without `nproc`. -/
theorem failsCleanly_iff (hmajor : msg.major = some major) :
    ∃ r, busCall cfg nproc mem lists msg m = some r ∧
      (FailsCleanly lists msg r ↔ ¬LacksNproc cfg nproc mem major msg m) := by
  by_cases hfound : ∃ ms t, cfg.node major = some ms ∧ cfg.context ms = some t
  · obtain ⟨ms, t, hnode, hctx⟩ := hfound
    -- the segment and the task are the ones that `LacksNproc` speaks of
    have hsame : LacksNproc cfg nproc mem major msg m ↔
        nproc t = false ∧ (pendingCall msg m = none ∨ mem ≠ none) := by
      constructor
      · rintro ⟨ms', t', hnode', hctx', hlacks⟩
        obtain rfl : ms = ms' := Option.some.inj (hnode.symm.trans hnode')
        obtain rfl : t = t' := Option.some.inj (hctx.symm.trans hctx')
        exact hlacks
      · intro hlacks
        exact ⟨ms, t, hnode, hctx, hlacks⟩
    rw [hsame]
    cases hentry : pendingCall msg m with
    | none =>
      refine ⟨_, busCall_of_noEntry hmajor hnode hctx hentry, ?_⟩
      rcases Bool.eq_false_or_eq_true (nproc t) with hproc | hproc
      · refine iff_of_true (failsCleanly_of_nproc hproc) fun hlacks ↦ ?_
        exact Bool.false_ne_true (hlacks.1.symm.trans hproc)
      · have hfails : ¬FailsCleanly lists msg (notifyTask nproc ms t .uninitialised none lists msg) ∧
            ¬FailsCleanly lists msg (notifyTask nproc ms t (.block 0) (some 0)
              (lists.link major 0 ⟨m, .syncCall, none⟩) msg) := not_failsCleanly_of_not_nproc hproc
        exact iff_of_false hfails.1 fun hnot ↦ hnot ⟨hproc, .inl rfl⟩
    | some e =>
      cases mem with
      | none =>
        refine ⟨_, busCall_of_noMemory hmajor hnode hctx hentry, ?_⟩
        refine iff_of_true failsCleanly_exitPoint fun hlacks ↦ ?_
        rcases hlacks.2 with hnone | hnone
        · cases hnone
        · exact hnone rfl
      | some p =>
        refine ⟨_, busCall_of_linked hmajor hnode hctx hentry, ?_⟩
        rcases Bool.eq_false_or_eq_true (nproc t) with hproc | hproc
        · refine iff_of_true (failsCleanly_of_nproc hproc) fun hlacks ↦ ?_
          exact Bool.false_ne_true (hlacks.1.symm.trans hproc)
        · exact iff_of_false (not_failsCleanly_of_not_nproc hproc).2
            fun hnot ↦ hnot ⟨hproc, .inr (Option.some_ne_none p)⟩
  · have hnone : ∀ ms, cfg.node major = some ms → cfg.context ms = none := fun ms hnode ↦
      Option.eq_none_iff_forall_ne_some.2 fun t hctx ↦ hfound ⟨ms, t, hnode, hctx⟩
    refine ⟨_, busCall_of_noSegment hmajor hnone, iff_of_true failsCleanly_exitPoint ?_⟩
    rintro ⟨ms, t, hnode, hctx, -⟩
    exact hfound ⟨ms, t, hnode, hctx⟩

/-- A synchronous call of the log service by task `2`, as the bus takes it from its queue. -/
def sampleCall : Message (Fin 3) Bool where
  seq := 1
  ref := 1
  code := mkCode .syncCall mblueLogService 0
  src := .task 2
  dst := some true
  smartPayload := 0
  aux := .ipcReturn 0
  draw := 1

/-- Without memory for the entry the call fails, and fails cleanly. -/
theorem failsCleanly_noMemory : ∃ r,
    busCall (.small 4 [] []) (fun _ ↦ true) none (fun _ ↦ []) sampleCall 0 = some r ∧
      r.rc = .errUnknown ∧ FailsCleanly (fun _ ↦ []) sampleCall r := by
  have hmajor : sampleCall.major = some mblueLogService := getMajor_mkCode _ _ _
  have hnproc : ¬LacksNproc (.small 4 [] []) (fun _ ↦ true) none mblueLogService sampleCall 0 := by
    rintro ⟨ms, t, -, -, hproc, -⟩
    cases hproc
  obtain ⟨r, hr, hiff⟩ := failsCleanly_iff hmajor
  refine ⟨r, hr, ?_, hiff.2 hnproc⟩
  cases hr
  rfl

/-- With the service's task not started, the entry is freed while it is in the call list. -/
theorem not_failsCleanly_noTask : ∃ r,
    busCall (.small 4 [] []) (· != 1) (some 100) (fun _ ↦ []) sampleCall 0 = some r ∧
      r.freed = [.block 100] ∧ r.lists mblueLogService = [(100, ⟨0, .syncCall, none⟩)] ∧
      ¬FailsCleanly (fun _ ↦ []) sampleCall r := by
  refine ⟨_, rfl, rfl, rfl, fun hclean ↦ ?_⟩
  obtain ⟨p, hp, -, hout⟩ := hclean.freed_own (by decide) (.block 100) (List.mem_singleton_self _)
  cases hp
  exact hout mblueLogService _ (List.mem_singleton_self _) rfl

end Mblue
