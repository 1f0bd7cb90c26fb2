import Mblue.Properties.OneAnswer

/-!
# Error codes through the smart-data tag

A handler answers with an error code in a tagged word, `MAKE_INTEGER(rc)`, and both the dispatcher
and the client's stub read it back with `(mblue_errcode)GET_INTEGER(...)`. `Faithful` is what they
rely on: the word reads back as the code; a request whose handler returns
`MBLUE_REMOTE_CALL_PENDING` is not answered, and keeps its entry and its message until someone else
returns for it; every other code is sent in exactly one return, and the stub reads it.

All this is said of the states that are reached after the handler has returned (`AfterReturn`), as
long as nothing disturbs the answer (`Relaying`): where `send_message` finds no message, or
`template_msg_post` no room, the return is gone without a word.

**Only codes that are not negative are treated so** (`faithful_iff`), since the shift back is
logical: of the error codes this is `MBLUE_OK` alone (`faithful_errcode_iff`). A deferral is
answered at once with the word `MAKE_INTEGER(MBLUE_REMOTE_CALL_PENDING)`, and a stub reads a failure
as a large positive number.
-/

namespace Mblue

section Codes

variable {ι σ : Type} [Fintype ι] [DecidableEq ι] [DecidableEq σ]

/-- `P` holds of each state that is reached under the condition `ok` after the handler of a request
has returned the word, and of the number of returns for it that have been put into a queue since. -/
def AfterReturn (cfg : Config ι σ) (w : Word)
    (ok : CallNumber → ι → Cmd ι σ → Choice ι σ → Shared ι σ → Prop)
    (P : State ι σ → ι → MsgId → CallNumber → State ι σ → ℕ → Prop) : Prop :=
  ∀ s i m k t y, Run (system cfg).step (AtHead (Undisturbed cfg)) (initial cfg) s →
    Handling s i m k → (system cfg).step s (i, .finish w) = some t →
    Run (counted (system cfg).step (putsReturn cfg k)) (fun x l ↦ AtHead (ok k) x.1 l) (t, 0) y →
      P s i m k y.1 y.2

/-- **What handlers, dispatcher and stubs rely on** for the code `v`. -/
structure Faithful (cfg : Config ι σ) (v : ℤ) : Prop where
  reads_back : toErrcode (getInteger (makeInteger v)) = v
  /-- A deferral is not answered. -/
  deferred : v = MblueErrcode.remoteCallPending.toInt →
    AfterReturn cfg (makeInteger v) (Relaying cfg) fun _ _ _ _ _ n ↦ n = 0
  /-- The entry and the request are kept until a return is processed. -/
  kept : AfterReturn cfg (makeInteger v) (Awaiting cfg) fun s _ m k t _ ↦
    ∀ e ∈ s.shared.callList k.major, e.msg = m →
      e ∈ t.shared.callList k.major ∧ m ∉ t.shared.msgList
  answered : v ≠ MblueErrcode.remoteCallPending.toInt →
    AfterReturn cfg (makeInteger v) (Relaying cfg) fun s i m k t n ↦
      Answered s i m k (makeInteger v) t n
  /-- The stub of a synchronous call reads the code. -/
  stub : v ≠ MblueErrcode.remoteCallPending.toInt →
    AfterReturn cfg (makeInteger v) (Relaying cfg) fun s _ m _ t _ ↦
      ∀ x, (s.shared.pool m).aux = .ipcReturn x → ∀ r, (t.shared.cells x).result = some r →
        ∃ w, r = some w ∧ toErrcode (getInteger w) = v

variable {cfg : Config ι σ} {v : ℤ}

omit [Fintype ι] in
theorem Faithful.nonneg (h : Faithful cfg v) (hlo : -2 ^ 29 ≤ v) (hhi : v < 2 ^ 29) : 0 ≤ v :=
  (toInt_getInteger_makeInteger_iff hlo hhi).1 h.reads_back

theorem faithful_of_nonneg (h : 0 ≤ v) (hhi : v < 2 ^ 29) : Faithful cfg v := by
  have hreads := (toInt_getInteger_makeInteger_iff (h.trans' (by decide)) hhi).2 h
  have hne : v ≠ MblueErrcode.remoteCallPending.toInt := by
    rintro rfl
    exact absurd h (by decide)
  refine ⟨hreads, fun hpending ↦ absurd hpending hne, ?_,
    fun _ s i m k t y hr hs hstep hrun ↦ answered_of_run hr hs hstep hrun,
    fun _ s i m k t y hr hs hstep hrun x hx r hresult ↦ ?_⟩
  · intro s i m k t y hr hs hstep hrun e he hmsg
    exact kept_of_run hr hs hstep he hmsg (run_of_counted hrun)
  · exact ⟨makeInteger v, (answered_of_run hr hs hstep hrun).value x hx r hresult, hreads⟩

/-- **Which codes survive the tag.** -/
theorem faithful_iff (cfg : Config ι σ) {v : ℤ} (hlo : -2 ^ 29 ≤ v) (hhi : v < 2 ^ 29) :
    Faithful cfg v ↔ 0 ≤ v :=
  ⟨fun h ↦ h.nonneg hlo hhi, fun h ↦ faithful_of_nonneg h hhi⟩

/-- Of the error codes this is `MBLUE_OK` alone. -/
theorem faithful_errcode_iff (cfg : Config ι σ) (rc : MblueErrcode) :
    Faithful cfg rc.toInt ↔ rc = .ok := by
  obtain ⟨hlo, hhi⟩ := rc.toInt_mem_range
  rw [← rc.toInt_nonneg_iff]
  exact ⟨fun h ↦ h.nonneg hlo hhi, fun h ↦ faithful_of_nonneg h hhi⟩

end Codes

/-! ### A request of the log service -/

/-- A task calls the log service, whose handler is at work. -/
def calledRun : List (Fin 3 × Choice (Fin 3) Bool) :=
  blockedRun mblueLogService ++ [(0, .go), (0, .go), (0, .go), (1, .go), (1, .go), (1, .go)]

/-- The service's task goes on, then the bus, then the caller. -/
def returnedRun : List (Fin 3 × Choice (Fin 3) Bool) :=
  [(1, .go), (1, .go), (1, .go), (1, .go), (1, .go), (1, .go), (0, .go), (0, .go), (0, .go),
    (0, .go), (0, .go), (0, .go), (0, .go), (2, .go), (2, .go)]

/-- The numbers of the request. -/
def calledNumber : CallNumber := ⟨mblueLogService, 1⟩

/-- The handler returns the code `v`, and all go on. -/
def afterCode (v : ℤ) : Option (State (Fin 3) Bool × ℕ) := do
  let s ← exec (system strandConfig).step (AtHead (Undisturbed strandConfig))
    (initial strandConfig) calledRun
  let t ← (system strandConfig).step s (1, .finish (makeInteger v))
  exec (counted (system strandConfig).step (putsReturn strandConfig calledNumber))
    (fun x l ↦ AtHead (Relaying strandConfig calledNumber) x.1 l) (t, 0) returnedRun

/-- The request is message `0`, with a handler; nothing else has its numbers. -/
theorem handling_called {s : State (Fin 3) Bool} (h : exec (system strandConfig).step
    (AtHead (Undisturbed strandConfig)) (initial strandConfig) calledRun = some s) :
    Handling s 1 0 calledNumber ∧ (s.shared.pool 0).aux = .ipcReturn 0 := by
  obtain ⟨t, hexec, hvalues⟩ : ∃ s, exec (system strandConfig).step
      (AtHead (Undisturbed strandConfig)) (initial strandConfig) calledRun = some s ∧
    (s.threads 0, s.threads 1, s.threads 2, s.shared.msgList, (s.shared.pool 0).type,
        (s.shared.pool 0).major, (s.shared.pool 0).seq, (s.shared.pool 0).aux,
        (s.shared.cells 0).answers) =
      ([.templateProc], [.userCode (.service false 0 1 []), .templateProc],
        [.tpend 2 (some 0), .remoteReturn 0, .userCode .app, .templateProc],
        (List.finRange mblueMaxMessageNum).tail, some .syncCall, some mblueLogService, 1,
        .ipcReturn 0, []) := ⟨_, rfl, rfl⟩
  obtain rfl := Option.some.inj (h.symm.trans hexec)
  simp only [Prod.mk.injEq] at hvalues
  obtain ⟨hbus, hservice, hcaller, hfree, htype, hmajor, hseq, haux, hanswers⟩ := hvalues
  have hused : ∀ o : MsgId, o ∉ s.shared.msgList → o = 0 := by
    rw [hfree]
    decide
  refine ⟨⟨⟨false, 1, [], _, hservice⟩, ⟨hmajor, hseq⟩, fun o ho _ _ ↦ hused o ho,
    fun d hd hreturns ↦ ?_, fun j b hb ↦ ?_, fun x hx ↦ ?_, fun j e _ ↦ ?_⟩, haux⟩
  · rw [hused d hd] at hreturns
    cases htype.symm.trans hreturns.1
  · fin_cases j
    · exact absurd (hbus ▸ hb) (by simp)
    · exact absurd (hservice ▸ hb) (by simp)
    · exact absurd (hcaller ▸ hb) (by simp)
  · obtain rfl := Aux.ipcReturn.inj (haux.symm.trans hx)
    exact hanswers
  · fin_cases j
    · exact ⟨fun hd ↦ absurd (hbus ▸ hd) (by simp), fun hd ↦ absurd (hbus ▸ hd) (by simp)⟩
    · exact ⟨fun hd ↦ absurd (hservice ▸ hd) (by simp), fun hd ↦ absurd (hservice ▸ hd) (by simp)⟩
    · exact ⟨fun hd ↦ absurd (hcaller ▸ hd) (by simp), fun hd ↦ absurd (hcaller ▸ hd) (by simp)⟩

/-- What holds after a handler has returned the code's word holds there. -/
theorem AfterReturn.of_afterCode {v : ℤ} {y : State (Fin 3) Bool × ℕ}
    {P : State (Fin 3) Bool → Fin 3 → MsgId → CallNumber → State (Fin 3) Bool → ℕ → Prop}
    (h : AfterReturn strandConfig (makeInteger v) (Relaying strandConfig) P)
    (hy : afterCode v = some y) :
    ∃ s, (s.shared.pool 0).aux = .ipcReturn 0 ∧ P s 1 0 calledNumber y.1 y.2 := by
  simp only [afterCode, Option.bind_eq_bind, Option.bind_eq_some_iff] at hy
  obtain ⟨s, hs, t, ht, hy⟩ := hy
  obtain ⟨hhandling, haux⟩ := handling_called hs
  exact ⟨s, haux, h s 1 0 calledNumber t y (run_exec hs) hhandling ht (run_exec hy)⟩

/-- `MBLUE_OK` survives: one return is sent, and the caller reads it. -/
theorem faithful_ok : ∃ y, afterCode 0 = some y ∧
    (y.2, (y.1.shared.cells 0).result) = (1, some (some (makeInteger 0))) ∧
    ∃ w, (y.1.shared.cells 0).result = some (some w) ∧ toErrcode (getInteger w) = 0 := by
  have hfaithful := (faithful_iff strandConfig (v := 0) (by decide) (by decide)).2 le_rfl
  obtain ⟨y, hy, hvalues⟩ : ∃ y, afterCode 0 = some y ∧
    (y.2, (y.1.shared.cells 0).result) = (1, some (some (makeInteger 0))) := ⟨_, rfl, rfl⟩
  obtain ⟨s, haux, hstub⟩ := AfterReturn.of_afterCode (hfaithful.stub (by decide)) hy
  have hresult := (Prod.mk.inj hvalues).2
  obtain ⟨w, hw, hread⟩ := hstub 0 haux _ hresult
  exact ⟨y, hy, hvalues, w, hresult.trans (congrArg some hw), hread⟩

/-- **`MBLUE_REMOTE_CALL_PENDING` does not**: a return is sent at once, the entry is gone, the
request is free, and the caller has returned with the word. -/
theorem not_faithful_pending :
    ¬Faithful strandConfig MblueErrcode.remoteCallPending.toInt ∧
      ∃ y, afterCode MblueErrcode.remoteCallPending.toInt = some y ∧
        (y.2, decide (0 ∈ y.1.shared.msgList), y.1.shared.callList mblueLogService,
          (y.1.shared.cells 0).result) = (1, true, [], some (some (makeInteger (-64)))) := by
  obtain ⟨y, hy, hvalues⟩ : ∃ y, afterCode MblueErrcode.remoteCallPending.toInt = some y ∧
    (y.2, decide (0 ∈ y.1.shared.msgList), y.1.shared.callList mblueLogService,
      (y.1.shared.cells 0).result) = (1, true, [], some (some (makeInteger (-64)))) :=
    ⟨_, rfl, rfl⟩
  refine ⟨fun h ↦ ?_, y, hy, hvalues⟩
  obtain ⟨s, -, hzero⟩ := AfterReturn.of_afterCode (h.deferred rfl) hy
  exact absurd (hzero.symm.trans (Prod.mk.inj hvalues).1) (by decide)

end Mblue
