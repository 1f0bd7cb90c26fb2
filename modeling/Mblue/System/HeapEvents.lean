import Mblue.System.Trace

/-!
# Blocks, notifiers and the numbers drawn

Three commands free a payload block, call a notifier or free it, and leave an event in the trace
(`emitted`); every other command leaves none (`Effect.heapEvents_eq`).

Draws and notifiers are numbered in the order they are made, so a new one has a number that nothing
in the system mentions yet. `Numbered` says so: what commands, messages and events mention was drawn
or allocated before.
-/

set_option linter.unusedSectionVars false

namespace Mblue

variable {ι σ : Type}

theorem heap_release (sh : Shared ι σ) (m : MsgId) : (sh.release m).heap = sh.heap := by
  unfold Shared.release
  dsimp only
  split <;> rfl

theorem numbers_release (sh : Shared ι σ) (m : MsgId) :
    (sh.release m).draws = sh.draws ∧ (sh.release m).notifiers = sh.notifiers := by
  unfold Shared.release
  dsimp only
  split <;> exact ⟨rfl, rfl⟩

variable [DecidableEq ι] [DecidableEq σ] {cfg : Config ι σ} {i : ι} {c : Cmd ι σ}
  {a : Choice ι σ} {sh sh' : Shared ι σ} {cs : List (Cmd ι σ)}

theorem heap_callApi (f : Api ι σ) : (callApi cfg i sh f).1.heap = sh.heap := by
  cases f with
  | targetSignal source major minor dest data extra =>
    show Shared.heap (if dest = none then _ else _) = _
    split <;> rfl
  | _ => rfl

/-! ### Numbers -/

/-- The notifier of an asynchronous call, in the union of its message. -/
def Aux.pn? : Aux σ → Option NotifierId
  | .pn p => some p
  | _ => none

omit [DecidableEq ι] [DecidableEq σ] in
/-- A message made for the arguments carries their notifier. -/
theorem pn_initMessage {b : SendArgs ι σ} {p : NotifierId}
    (h : (initMessage cfg b).aux.pn? = some p) : b.pn = some p := by
  have haux : b.aux.pn? = some p := h
  unfold SendArgs.aux at haux
  split at haux
  · cases hout : b.out <;> rw [hout] at haux <;> cases haux
  · cases hpn : b.pn <;> rw [hpn] at haux <;> cases haux
    rfl
  · cases hextra : b.extra <;> rw [hextra] at haux <;> cases haux

/-- Every draw and every notifier that is mentioned was drawn or allocated before. -/
structure Numbered (s : State ι σ) : Prop where
  send_le : ∀ i a, .send a ∈ s.threads i → a.draw ≤ s.shared.draws
  send_lt : ∀ i a, .send a ∈ s.threads i → ∀ p, a.pn = some p → p < s.shared.notifiers
  pool_le : ∀ m, m ∉ s.shared.msgList → (s.shared.pool m).draw ≤ s.shared.draws
  pool_lt : ∀ m, m ∉ s.shared.msgList → ∀ p, (s.shared.pool m).aux.pn? = some p →
    p < s.shared.notifiers
  freeing_lt : ∀ i p, .freeNotifier p ∈ s.threads i → p < s.shared.notifiers
  freed_le : ∀ d p, .freed d p ∈ heapEvents s.shared → d ≤ s.shared.draws
  notified_lt : ∀ p w, .notified p w ∈ heapEvents s.shared → p < s.shared.notifiers
  notifierFreed_lt : ∀ p, .notifierFreed p ∈ heapEvents s.shared → p < s.shared.notifiers

/-- The numbers only grow. -/
theorem Effect.numbers_le (h : Effect cfg i c a sh sh' cs) :
    sh.draws ≤ sh'.draws ∧ sh.notifiers ≤ sh'.notifiers := by
  have hsame : ∀ {sh' : Shared ι σ}, sh'.draws = sh.draws ∧ sh'.notifiers = sh.notifiers →
      sh.draws ≤ sh'.draws ∧ sh.notifiers ≤ sh'.notifiers := fun h ↦ ⟨h.1.ge, h.2.ge⟩
  cases h with
  | userCall hmay =>
    rename_i k f
    cases f with
    | targetSignal source major minor dest data extra =>
      unfold callApi
      dsimp only
      split <;> exact ⟨Nat.le_succ _, le_rfl⟩
    | mblueRemoteCallAsync major minor input => exact ⟨Nat.le_succ _, Nat.le_succ _⟩
    | ipcReturn major seq data => exact ⟨le_rfl, le_rfl⟩
    | _ => exact ⟨Nat.le_succ _, le_rfl⟩
  | sendDone halloc =>
    obtain ⟨_, -, rfl⟩ := alloc_eq_some halloc
    exact ⟨le_rfl, le_rfl⟩
  | loopReplicated hctx halloc =>
    obtain ⟨_, -, rfl⟩ := alloc_eq_some halloc
    exact ⟨le_rfl, le_rfl⟩
  | tpendTaken hsem =>
    rename_i t o d rest
    cases o <;> exact ⟨le_rfl, le_rfl⟩
  | subscribeReleased | released => exact hsame (numbers_release sh _)
  | completed =>
    rename_i major e
    exact hsame (numbers_release sh e.msg)
  | _ => exact ⟨le_rfl, le_rfl⟩

/-- The word a function hands over that its message's handler is to free, if it is a block. -/
def Api.payload? : Api ι σ → Option Word
  | .mblueRemoteCall _ _ input | .mblueRemoteCallAsync _ _ input | .sendAsyncCall _ _ input =>
    some input
  | .targetSignal _ _ _ _ data _ | .broadcastSignal _ _ data
  | .broadcastSignalWithContext _ _ _ data => some data
  | .mblueSubscribe _ _ | .ipcReturn _ _ _ => none

/-- The numbers a function of `ipc_helper.h` gives to `send_message`. -/
theorem send_of_callApi {f : Api ι σ} {b : SendArgs ι σ} (h : .send b ∈ (callApi cfg i sh f).2) :
    (b.draw = 0 ∨ b.draw = sh.draws + 1) ∧ b.draw ≤ (callApi cfg i sh f).1.draws ∧
      (∀ p, b.pn = some p → p = sh.notifiers ∧ p < (callApi cfg i sh f).1.notifiers) ∧
      (b.type = .callReturn ∨ pbPayload b.input = false ∨ f.payload? = some b.input) := by
  have hzero : pbPayload 0 = false := by decide
  cases f with
  | targetSignal source major minor dest data extra =>
    have hdraws : (callApi cfg i sh (.targetSignal source major minor dest data extra)).1.draws =
        sh.draws + 1 := by
      unfold callApi
      dsimp only
      split <;> rfl
    obtain rfl : b = drawnArgs sh source .signal major minor dest data extra := by
      simpa only [callApi, List.mem_singleton, Cmd.send.injEq] using h
    exact ⟨.inr rfl, hdraws.ge, fun p hp ↦ (by cases hp), .inr (.inr rfl)⟩
  | mblueRemoteCall major minor input =>
    simp only [callApi, List.mem_cons, Cmd.send.injEq, reduceCtorEq, List.not_mem_nil,
      or_false] at h
    subst h
    exact ⟨.inr rfl, le_rfl, fun p hp ↦ (by cases hp), .inr (.inr rfl)⟩
  | mblueRemoteCallAsync major minor input =>
    simp only [callApi, List.mem_singleton, Cmd.send.injEq] at h
    subst h
    refine ⟨.inr rfl, le_rfl, fun p hp ↦ ?_, .inr (.inr rfl)⟩
    obtain rfl : sh.notifiers = p := Option.some.inj hp
    exact ⟨rfl, Nat.lt_succ_self _⟩
  | ipcReturn major seq data =>
    simp only [callApi, List.mem_singleton, Cmd.send.injEq] at h
    subst h
    exact ⟨.inl rfl, Nat.zero_le _, fun p hp ↦ (by cases hp), .inl rfl⟩
  | mblueSubscribe ms major =>
    simp only [callApi, List.mem_singleton, Cmd.send.injEq] at h
    subst h
    exact ⟨.inr rfl, le_rfl, fun p hp ↦ (by cases hp), .inr (.inl hzero)⟩
  | _ =>
    simp only [callApi, List.mem_singleton, Cmd.send.injEq] at h
    subst h
    exact ⟨.inr rfl, le_rfl, fun p hp ↦ (by cases hp), .inr (.inr rfl)⟩

/-- A function of `ipc_helper.h` is a call of `send_message`, and `mblue_remote_call` then returns. -/
theorem cmd_of_callApi {f : Api ι σ} {x : Cmd ι σ} (h : x ∈ (callApi cfg i sh f).2) :
    (∃ b, x = .send b) ∨ ∃ o, x = .remoteReturn o := by
  cases f with
  | mblueRemoteCall major minor input =>
    simp only [callApi, List.mem_cons, List.not_mem_nil, or_false] at h
    exact h.imp (fun heq ↦ ⟨_, heq⟩) fun heq ↦ ⟨_, heq⟩
  | _ => exact .inl ⟨_, List.mem_singleton.1 h⟩

/-- A call of `send_message` is new when user code calls a function, or answers a request. -/
theorem Effect.send_origin (h : Effect cfg i c a sh sh' cs) {b : SendArgs ι σ}
    (hb : .send b ∈ cs) :
    (∃ k f, c = .userCode k ∧ a = .api f ∧ .send b ∈ (callApi cfg i sh f).2 ∧
      sh' = (callApi cfg i sh f).1) ∨
    b.draw = 0 ∧ b.pn = none ∧ b.type = .callReturn := by
  cases h with
  | userCall hmay =>
    rename_i k f
    rw [List.mem_append, List.mem_singleton] at hb
    exact .inl ⟨k, f, rfl, rfl, hb.resolve_right (fun heq ↦ by cases heq), rfl⟩
  | removed hmq hdst htype hhandler =>
    rw [← List.mem_singleton.1 hb] at hhandler
    cases handles_of_getHandler hhandler
  | serviceFinished | requestRefused =>
    simp only [List.mem_cons, Cmd.send.injEq, reduceCtorEq, List.not_mem_nil, or_false] at hb
    subst hb
    exact .inr ⟨rfl, rfl, rfl⟩
  | _ => simp at hb

/-- A notifier is to be freed when an entry that carries it was found. -/
theorem Effect.freeNotifier_origin (h : Effect cfg i c a sh sh' cs) {p : NotifierId}
    (hp : .freeNotifier p ∈ cs) : ∃ major, ∃ e ∈ sh.callList major, e.notifier = some p := by
  cases h with
  | userCall hmay =>
    rename_i k f
    rw [List.mem_append, List.mem_singleton] at hp
    have hmem := hp.resolve_right (fun heq ↦ by cases heq)
    cases f <;> simp [callApi] at hmem
  | removed hmq hdst htype hhandler =>
    rw [← List.mem_singleton.1 hp] at hhandler
    cases handles_of_getHandler hhandler
  | returnAsync hmajor hfind htype hnotifier =>
    rename_i d major e q
    simp only [List.mem_cons, Cmd.freeNotifier.injEq, reduceCtorEq, List.not_mem_nil, or_false,
      false_or] at hp
    subst hp
    exact ⟨major, e, List.mem_of_find?_eq_some hfind, hnotifier⟩
  | _ => simp at hp

theorem freed_of_emitted {d : ℕ} {p : Word} (h : .freed d p ∈ emitted sh c cs) :
    ∃ m, c = .finish m ∧ d = (sh.pool m).draw ∧ p = (sh.pool m).smartPayload := by
  unfold emitted at h
  split at h
  · split at h
    · obtain ⟨rfl, rfl⟩ : d = _ ∧ p = _ := by simpa using h
      exact ⟨_, rfl, rfl, rfl⟩
    · cases h
  all_goals simp at h

theorem notifierFreed_of_emitted {p : NotifierId} (h : .notifierFreed p ∈ emitted sh c cs) :
    c = .freeNotifier p := by
  unfold emitted at h
  split at h
  · split at h <;> simp at h
  · simp at h
  · obtain rfl : p = _ := by simpa using h
    rfl
  · simp at h

/-- A notifier is called when an entry that carries it was found. -/
theorem Effect.notified_origin (h : Effect cfg i c a sh sh' cs) {p : NotifierId} {w : Word}
    (hp : .notified p w ∈ emitted sh c cs) :
    ∃ major, ∃ e ∈ sh.callList major, e.notifier = some p := by
  cases h with
  | returnAsync hmajor hfind htype hnotifier =>
    rename_i d major e q
    obtain ⟨rfl, -⟩ : p = q ∧ w = _ := by simpa [emitted] using hp
    exact ⟨major, e, List.mem_of_find?_eq_some hfind, hnotifier⟩
  | finishedPayload hpb => simp [emitted, hpb] at hp
  | finishedPlain hpb => simp [emitted, hpb] at hp
  | _ => simp [emitted] at hp

/-- The notifier of an entry is the one its request carries. -/
theorem pn_of_pendingCall {msg : Message ι σ} {m : MsgId} {e : PendingCall} {p : NotifierId}
    (h : pendingCall msg m = some e) (hp : e.notifier = some p) :
    msg.aux.pn? = some p ∧ e.callType = .asyncCall := by
  unfold pendingCall at h
  split at h <;> cases h
  · next haux =>
    rw [haux]
    exact ⟨hp, rfl⟩
  · cases hp

namespace Numbered

variable [Fintype ι] {s : State ι σ} {rest : List (Cmd ι σ)}

/-- An entry's notifier was allocated. -/
theorem entry_lt (h : Numbered s) (hgood : Good cfg s) {major : Major} {e : PendingCall}
    (he : e ∈ s.shared.callList major) {p : NotifierId} (hp : e.notifier = some p) :
    p < s.shared.notifiers :=
  h.pool_lt e.msg (hgood.not_free_of_entry he) p
    (pn_of_pendingCall (hgood.linked major e he).2.2 hp).1

theorem step (h : Numbered s) (hgood : Good cfg s) (hc : s.threads i = c :: rest)
    (he : Effect cfg i c a s.shared sh' cs) :
    Numbered ⟨sh', Function.update s.threads i (cs ++ rest)⟩ := by
  obtain ⟨hdraws, hnotifiers⟩ := he.numbers_le
  have hmove := move_of_effect he
  have hevents := he.heapEvents_eq
  have hnew : ∀ b, .send b ∈ cs → b.draw ≤ sh'.draws ∧ ∀ p, b.pn = some p → p < sh'.notifiers := by
    intro b hb
    rcases he.send_origin hb with ⟨k, f, rfl, rfl, hmem, rfl⟩ | ⟨hdraw, hpn, -⟩
    · obtain ⟨-, hle, hlt, -⟩ := send_of_callApi hmem
      exact ⟨hle, fun p hp ↦ (hlt p hp).2⟩
    · rw [hdraw, hpn]
      exact ⟨Nat.zero_le _, fun p hp ↦ (by cases hp)⟩
  -- what is written into a message is mentioned by the command, or by a message in use
  have hmade : ∀ m, m ∉ sh'.msgList → (sh'.pool m).draw ≤ sh'.draws ∧
      ∀ p, (sh'.pool m).aux.pn? = some p → p < sh'.notifiers := by
    intro m hm
    rcases hmove.origin hm with hfree | ⟨⟨b, rfl, heq⟩ | ⟨n, ms, subs, rfl, heq⟩, -⟩
    · have hheader := hmove.header_eq hfree
      rw [Message.draw_eq hheader, Message.aux_eq hheader]
      exact ⟨(h.pool_le m hfree).trans hdraws, fun p hp ↦ (h.pool_lt m hfree p hp).trans_le
        hnotifiers⟩
    · have hmem : .send b ∈ s.threads i := hc ▸ List.mem_cons_self
      rw [heq]
      refine ⟨(h.send_le i b hmem).trans hdraws, fun p hp ↦ ?_⟩
      exact (h.send_lt i b hmem p (pn_initMessage hp)).trans_le hnotifiers
    · have hfree := hgood.not_free (hc ▸ List.mem_cons_self) rfl
      rw [heq]
      exact ⟨(h.pool_le n hfree).trans hdraws, fun p hp ↦ (h.pool_lt n hfree p hp).trans_le
        hnotifiers⟩
  constructor
  · intro j b hb
    rcases mem_expand_iff.1 hb with ⟨-, hb⟩ | hb
    · exact (hnew b hb).1
    · exact (h.send_le j b (mem_of_mem_rest hc hb)).trans hdraws
  · intro j b hb p hp
    rcases mem_expand_iff.1 hb with ⟨-, hb⟩ | hb
    · exact (hnew b hb).2 p hp
    · exact (h.send_lt j b (mem_of_mem_rest hc hb) p hp).trans_le hnotifiers
  · exact fun m hm ↦ (hmade m hm).1
  · exact fun m hm ↦ (hmade m hm).2
  · intro j p hp
    rcases mem_expand_iff.1 hp with ⟨-, hp⟩ | hp
    · obtain ⟨major, e, hmem, hn⟩ := he.freeNotifier_origin hp
      exact (h.entry_lt hgood hmem hn).trans_le hnotifiers
    · exact (h.freeing_lt j p (mem_of_mem_rest hc hp)).trans_le hnotifiers
  · intro d p hd
    have hd : .freed d p ∈ heapEvents sh' := hd
    rw [hevents, List.mem_append] at hd
    rcases hd with hd | hd
    · exact (h.freed_le d p hd).trans hdraws
    · obtain ⟨m, rfl, rfl, -⟩ := freed_of_emitted hd
      exact (h.pool_le m (hgood.not_free (hc ▸ List.mem_cons_self) rfl)).trans hdraws
  · intro p w hp
    have hp : .notified p w ∈ heapEvents sh' := hp
    rw [hevents, List.mem_append] at hp
    rcases hp with hp | hp
    · exact (h.notified_lt p w hp).trans_le hnotifiers
    · obtain ⟨major, e, hmem, hn⟩ := he.notified_origin hp
      exact (h.entry_lt hgood hmem hn).trans_le hnotifiers
  · intro p hp
    have hp : .notifierFreed p ∈ heapEvents sh' := hp
    rw [hevents, List.mem_append] at hp
    rcases hp with hp | hp
    · exact (h.notifierFreed_lt p hp).trans_le hnotifiers
    · obtain rfl := notifierFreed_of_emitted hp
      exact (h.freeing_lt i p (hc ▸ List.mem_cons_self)).trans_le hnotifiers

theorem initial (cfg : Config ι σ) : Numbered (Mblue.initial cfg) := by
  have hthreads : ∀ i, ∀ c ∈ (Mblue.initial cfg).threads i, c = .userCode .app ∨ c = .templateProc :=
    fun i c hc ↦ by
      unfold Mblue.initial at hc
      dsimp only at hc
      split at hc
      · simpa using hc
      · exact .inl (List.mem_singleton.1 hc)
  constructor
  · intro i b hb
    rcases hthreads i _ hb with h | h <;> cases h
  · intro i b hb
    rcases hthreads i _ hb with h | h <;> cases h
  · exact fun m hm ↦ absurd (List.mem_finRange m) hm
  · exact fun m hm ↦ absurd (List.mem_finRange m) hm
  · intro i p hp
    rcases hthreads i _ hp with h | h <;> cases h
  · exact fun d p hd ↦ absurd hd List.not_mem_nil
  · exact fun p w hp ↦ absurd hp List.not_mem_nil
  · exact fun p hp ↦ absurd hp List.not_mem_nil

/-- **What is mentioned was drawn or allocated**, in every state reached. -/
theorem of_run (h : Run (fused cfg).step (AtHead NoWrap) (Mblue.initial cfg) s) : Numbered s := by
  refine h.invariant_of (fun hr ↦ Good.of_run hr) (initial cfg) fun hgood hnum _ hstep ↦ ?_
  obtain ⟨c, rest, sh', cs, hc, he, rfl⟩ := effect_of_step hstep
  exact hnum.step hgood hc he

end Numbered

end Mblue
