import Mblue.Ledger.Opening

/-!
# Who frees the heap blocks of a remote call

A remote call hands a payload block over, and an asynchronous call a notifier. What is expected
(`HeapOwned`) is that both are freed once, and not used after that, whatever becomes of the call.

It is so as long as the call gets through (`heapOwned_of_run`): the service that answers frees the
block, also when it has no handler, and the bus frees the notifier. The early exits free nothing.
`send_message` without a free message, `template_msg_post` with a full queue, `bus_call` without a
segment, a task or memory, and `default_ipc_handler` with a header it cannot decode all return
without the block, and all but the last leave the notifier with it (`not_heapOwned_noSegment`).
-/

set_option linter.unusedSectionVars false

namespace Mblue

variable {ι σ : Type}

/-! ### What is expected -/

section Expected

variable [DecidableEq ι] [DecidableEq σ]

/-- A message of the call is being sent, carried, queued or pending, or the bus is handling the
return for its notifier. -/
def Remains (A : SendArgs ι σ) (s : State ι σ) : Prop :=
  (∃ i, ∃ c ∈ s.threads i, (∃ a, c = .send a ∧ a.draw = A.draw) ∨
    (∃ m, c.msg? = some m ∧ (s.shared.pool m).draw = A.draw) ∨
    ∃ p, c = .freeNotifier p ∧ A.pn = some p) ∨
  (∃ t, ∃ m ∈ s.shared.mq t, (s.shared.pool m).draw = A.draw) ∨
  ∃ major, ∃ e ∈ s.shared.callList major, (s.shared.pool e.msg).draw = A.draw

/-- **Who frees the blocks of a call.** The payload block is where it was until the call frees it,
whoever may still read it finds it, and it is freed once; the notifier is called at most once, freed
once, and not called after that. -/
structure HeapOwned (A : SendArgs ι σ) (block : List UInt8) (s : State ι σ) : Prop where
  live : .freed A.draw A.input ∉ s.shared.trace → s.shared.heap A.input = some block
  readable : ∀ i, ∀ c ∈ s.threads i, ∀ m, c.frees? = some m →
    (s.shared.pool m).draw = A.draw → s.shared.heap A.input = some block
  freed_le : s.shared.trace.count (.freed A.draw A.input) ≤ 1
  freed : ¬Remains A s → s.shared.trace.count (.freed A.draw A.input) = 1
  notified_le : ∀ p, A.pn = some p → (s.shared.trace.filterMap Event.notifies?).count p ≤ 1
  notifier_freed_le : ∀ p, A.pn = some p → s.shared.trace.count (.notifierFreed p) ≤ 1
  notifier_freed : ∀ p, A.pn = some p → ¬Remains A s →
    s.shared.trace.count (.notifierFreed p) = 1
  notifier_unused : ∀ p, A.pn = some p → s.shared.trace.Pairwise
    fun e e' ↦ e = .notifierFreed p → e'.notifies? ≠ some p

end Expected

/-! ### What the ledger says -/

section Ledger

variable [Fintype ι] [DecidableEq ι] [DecidableEq σ] {cfg : Config ι σ} {A : SendArgs ι σ}
  {block : List UInt8} {s s₁ t : State ι σ} {i : ι} {f : Api ι σ}

omit [Fintype ι] in
/-- An event of the heap is counted in the trace. -/
theorem count_heapEvents {sh : Shared ι σ} {e : Event ι σ} (h : e.onHeap = true) :
    (heapEvents sh).count e = sh.trace.count e := by
  rw [heapEvents, List.count_filter h]

omit [Fintype ι] [DecidableEq ι] [DecidableEq σ] in
theorem filterMap_heapEvents {sh : Shared ι σ} :
    (heapEvents sh).filterMap Event.notifies? = sh.trace.filterMap Event.notifies? := by
  rw [heapEvents, List.filterMap_filter]
  refine List.filterMap_congr fun e _ ↦ ?_
  cases e <;> rfl

/-- When nothing of the call remains, nothing stands for its block. -/
theorem payloads_of_not_remains (h : ¬Remains A s) : payloads.total s A.draw = 0 := by
  refine Tally.total_eq_zero (fun j x hx hxd ↦ ?_) fun u m hm hmd ↦ ?_
  · rcases payloads_eq_some hxd with ⟨b, rfl, hb⟩ | ⟨m, hm, hmd⟩
    · exact h (.inl ⟨j, _, hx, .inl ⟨b, rfl, hb⟩⟩)
    · exact h (.inl ⟨j, _, hx, .inr (.inl ⟨m, Cmd.msg_of_frees hm, hmd⟩)⟩)
  · exact h (.inr (.inl ⟨u, m, hm, Option.some.inj hmd⟩))

namespace Ledger

/-- When nothing of the call remains, its notifier is on nobody's account. -/
theorem notifier_of_not_remains (h : Ledger cfg A block s) (hremains : ¬Remains A s)
    {p : NotifierId} (hp : A.pn = some p) :
    (looseNotifiers cfg).total s p = 0 ∧ notifierEntries s.shared p = 0 := by
  constructor
  · refine Tally.total_eq_zero (fun j x hx hxp ↦ ?_) fun u m hm hmp ↦ ?_
    · rcases looseNotifiers_eq_some hxp with ⟨b, rfl, hb⟩ | ⟨m, hm, hmp⟩ | rfl
      · exact hremains (.inl ⟨j, _, hx, .inl ⟨b, rfl, h.send_pn j b p hx hp hb⟩⟩)
      · exact hremains (.inl ⟨j, _, hx, .inr (.inl ⟨m, hm, h.msg_pn m p (h.not_free hx hm) hp hmp⟩)⟩)
      · exact hremains (.inl ⟨j, _, hx, .inr (.inr ⟨p, rfl, hp⟩)⟩)
    · exact hremains (.inr (.inl ⟨u, m, hm,
        h.msg_pn m p (h.not_free_of_mq hm) hp (waiting_eq_some.1 hmp).2⟩))
  · refine Finset.sum_eq_zero fun major _ ↦ count_tokens_of_ne fun e he hep ↦ ?_
    have hmp := (pn_of_pendingCall (h.linked major e he).2.2 hep).1
    exact hremains (.inr (.inr ⟨major, e, he, h.msg_pn e.msg p (h.not_free_of_entry he) hp hmp⟩))

/-- **The ledger says who frees the blocks.** -/
theorem heapOwned (h : Ledger cfg A block s) : HeapOwned A block s := by
  have hpayload := h.payload
  rw [count_heapEvents rfl] at hpayload
  have hnotifier : ∀ p, A.pn = some p → (looseNotifiers cfg).total s p +
      notifierEntries s.shared p + s.shared.trace.count (.notifierFreed p) =
        1 + mentions Cmd.completes? s.threads p := fun p hp ↦ by
    rw [← count_heapEvents rfl]
    exact h.notifier p hp
  constructor
  case live => exact fun hfreed ↦ h.live (mt freed_mem_iff.1 hfreed)
  case readable =>
    intro j c hc m hm hdraw
    -- whoever may free the block is on the account, so it has not been freed
    have hpos : 0 < mentions (payloads.cmd s.shared) s.threads A.draw :=
      mentions_pos hc (hdraw ▸ payloads_of_frees hm)
    refine h.live fun hfreed ↦ ?_
    have hcount := List.count_pos_iff.2 (freed_mem_iff.1 hfreed)
    rw [Tally.total] at hpayload
    omega
  case freed_le => omega
  case freed =>
    intro hremains
    rw [payloads_of_not_remains hremains] at hpayload
    omega
  case notified_le =>
    intro p hp
    have hcalled := h.notified p hp
    rw [filterMap_heapEvents, count_heapEvents rfl] at hcalled
    have hcount := hnotifier p hp
    have hcompletes := completes_le h.toGood p
    have hloose : mentions Cmd.freesNotifier? s.threads p ≤
        mentions ((looseNotifiers cfg).cmd s.shared) s.threads p :=
      mentions_mono fun c hc ↦ by
        cases c <;> first | exact hc | cases hc
    rw [Tally.total] at hcount
    omega
  case notifier_freed_le =>
    intro p hp
    have hcount := hnotifier p hp
    have hcompletes := completes_le h.toGood p
    omega
  case notifier_freed =>
    intro p hp hremains
    have hcount := hnotifier p hp
    have hcompletes := completes_le h.toGood p
    obtain ⟨hloose, hentries⟩ := h.notifier_of_not_remains hremains hp
    omega
  case notifier_unused =>
    intro p hp
    have hunused := List.pairwise_filter.1 (h.unused p hp)
    refine hunused.imp fun {e e'} himp heq hcalled ↦ ?_
    have he : e.onHeap = true := heq ▸ rfl
    have he' : e'.onHeap = true := by
      cases e' <;> first | rfl | cases hcalled
    exact himp he he' heq hcalled

end Ledger

/-! ### The entry that is being unlinked -/

/-- What remains in the fused state remains. -/
theorem Remains.of_fuse (h : Remains A (fuse cfg s)) : Remains A s := by
  have hpool := fuse_pool cfg s
  unfold Remains at h
  rw [hpool, fuse_mq] at h
  exact h.imp (fun ⟨i, c, hc, hdraw⟩ ↦ ⟨i, c, mem_of_mem_fuse hc, hdraw⟩)
    (Or.imp_right fun ⟨major, e, he, hdraw⟩ ↦ ⟨major, e, mem_callList_of_fuse he, hdraw⟩)

theorem HeapOwned.of_fuse (h : HeapOwned A block (fuse cfg s)) : HeapOwned A block s where
  live := by simpa using h.live
  readable := fun j c hc m hm hdraw ↦ by
    have hmem : c ∈ (fuse cfg s).threads j := mem_fuse_of_ne hc fun major e heq ↦ by
      rw [heq] at hm
      cases hm
    simpa using h.readable j c hmem m hm (by simpa using hdraw)
  freed_le := by simpa using h.freed_le
  freed := fun hremains ↦ by simpa using h.freed (mt Remains.of_fuse hremains)
  notified_le := by simpa using h.notified_le
  notifier_freed_le := by simpa using h.notifier_freed_le
  notifier_freed := fun p hp hremains ↦ by
    simpa using h.notifier_freed p hp (mt Remains.of_fuse hremains)
  notifier_unused := by simpa using h.notifier_unused

theorem HandsOver.fuse (h : HandsOver cfg i f A block s) :
    HandsOver cfg i f A block (fuse cfg s) where
  inUserCode := by
    obtain ⟨k, rest, hc⟩ := h.inUserCode
    exact ⟨k, rest, threads_fuse_of_ne hc fun _ _ heq ↦ by cases heq⟩
  isRemoteCall := h.isRemoteCall
  sends := callApi_fuse (s := s) f ▸ h.sends
  isBlock := h.isBlock
  allocated := by simpa using h.allocated
  sole := fun d hd ↦ h.sole d hd.of_fuse

theorem Unbroken.unseen : Unseen (Unbroken cfg A) := by
  intro i c a sh major e _ hok
  refine ⟨hok.1, ?_⟩
  cases c with
  | send args => simpa only [unbroken, isSome_alloc_unlink] using hok.2
  | _ => cases a <;> exact hok.2

/-- **The blocks of a call that gets through are freed once.** In every run from the call on in
which nothing breaks the call off. -/
theorem heapOwned_of_run
    (hs : Run (system cfg).step (AtHead NoWrap) (initial cfg) s)
    (hcall : HandsOver cfg i f A block s) (hstep : (system cfg).step s (i, .api f) = some s₁)
    (ht : Run (system cfg).step (AtHead (Unbroken cfg A)) s₁ t) : HeapOwned A block t := by
  obtain ⟨hsplit, hrun, hfused⟩ := Split.of_api hs hcall.inUserCode hstep
  have hledger := hcall.fuse.ledger (Good.of_run hrun) (Numbered.of_run hrun) hfused
  have ht' := (Split.run ht hsplit Unbroken.unseen fun hr ↦ (hledger.of_run hr).toGood).2
  exact (hledger.of_run ht').heapOwned.of_fuse

end Ledger

/-! ### A call that gets through, and one that does not -/

/-- The header of a request without data. -/
def requestBlock : List UInt8 := [5, 10, 1, 97, 16, 0]

/-- A system whose log service has a handler. -/
def heapConfig : Config (Fin 3) Bool := .small 4 [] [⟨0, 1⟩]

/-- A number without segment. -/
def noSegment : Major := ⟨4, by decide⟩

/-- Task `2` has serialized a request. -/
def serialized : State (Fin 3) Bool where
  shared := (initial heapConfig).shared.mallocPayload 16 requestBlock
  threads := Function.update (initial heapConfig).threads 2 [.userCode .app, .templateProc]

/-- What `mblue_remote_call_async` sends for it. -/
def sampleArgs (major : Major) : SendArgs (Fin 3) Bool :=
  { drawnArgs serialized.shared (.task 2) .asyncCall major 0 none 16 none with pn := some 0 }

theorem run_serialized : Run (system heapConfig).step (AtHead NoWrap) (initial heapConfig)
    serialized :=
  .single (l := (2, .malloc 16 requestBlock)) (fun _ hm ↦ by cases hm) rfl

theorem handsOver_serialized (major : Major) :
    HandsOver heapConfig 2 (.mblueRemoteCallAsync major 0 16) (sampleArgs major) requestBlock
      serialized := by
  have hthreads : ∀ i, ∀ c ∈ serialized.threads i, c = .userCode .app ∨ c = .templateProc := by
    intro i c hc
    have heq : serialized.threads i = [.userCode .app, .templateProc] := by
      fin_cases i <;> rfl
    simpa [heq] using hc
  refine ⟨⟨_, _, rfl⟩, rfl, List.mem_singleton_self _, (by decide : pbPayload 16 = true), rfl, fun d hd ↦ ?_⟩
  cases hd with
  | sending hc htype hp => rcases hthreads _ _ hc with h | h <;> cases h
  | carried hc hm htype hp =>
    rcases hthreads _ _ hc with rfl | rfl <;> cases hm
  | queued hm htype hp => exact absurd hm List.not_mem_nil

/-- A call of the log service: the service answers, and everything has been freed. -/
theorem heapOwned_answered : ∃ s₁, (system heapConfig).step serialized
      (2, .api (.mblueRemoteCallAsync mblueLogService 0 16)) = some s₁ ∧ ∃ t,
    exec (system heapConfig).step (AtHead (Unbroken heapConfig (sampleArgs mblueLogService))) s₁
      [(2, .go), (2, .go), (2, .go), (2, .go), (0, .finish 0), (0, .go), (0, .go), (0, .go),
        (0, .go), (0, .go), (1, .finish 0), (1, .go), (1, .go), (1, .go), (1, .finish 1),
        (1, .go), (1, .go), (1, .go), (1, .go), (1, .go), (1, .go), (0, .go), (0, .go), (0, .go),
        (0, .finish 0), (0, .go), (0, .go), (0, .go), (0, .go)] = some t ∧
    t.shared.trace.filter Event.onHeap = [.freed 1 16, .notified 0 1, .notifierFreed 0] ∧
    HeapOwned (sampleArgs mblueLogService) requestBlock t :=
  ⟨_, rfl, exists_of_exec_eq rfl fun _ h ↦
    heapOwned_of_run run_serialized (handsOver_serialized mblueLogService) rfl h⟩

/-- A call of a number without segment: nothing of it remains, and nothing has been freed. -/
theorem not_heapOwned_noSegment :
    ¬∀ (i : Fin 3) (f : Api (Fin 3) Bool) A block s s₁ t,
      Run (system heapConfig).step (AtHead NoWrap) (initial heapConfig) s →
      HandsOver heapConfig i f A block s → (system heapConfig).step s (i, .api f) = some s₁ →
      Run (system heapConfig).step (AtHead NoWrap) s₁ t → HeapOwned A block t := by
  intro hall
  obtain ⟨s₁, hstep, t, hexec, hvalues⟩ : ∃ s₁, (system heapConfig).step serialized
      (2, .api (.mblueRemoteCallAsync noSegment 0 16)) = some s₁ ∧ ∃ t,
    exec (system heapConfig).step (AtHead NoWrap) s₁
      [(2, .go), (2, .go), (2, .go), (2, .go), (0, .finish 0), (0, .go), (0, .go), (0, .go),
        (0, .finish 0)] = some t ∧
    (t.threads 0, t.threads 1, t.threads 2, t.shared.mq 0, t.shared.mq 1, t.shared.mq 2,
      t.shared.callList, t.shared.trace) = ([.templateProc], [.userCode .app, .templateProc],
        [.userCode .app, .templateProc], [], [], [], fun _ ↦ [], []) :=
    ⟨_, rfl, _, rfl, rfl⟩
  simp only [Prod.mk.injEq] at hvalues
  obtain ⟨h₀, h₁, h₂, hq₀, hq₁, hq₂, hlist, htrace⟩ := hvalues
  have howned := hall 2 _ _ _ _ s₁ t run_serialized (handsOver_serialized noSegment) hstep
    (run_exec hexec)
  have hremains : ¬Remains (sampleArgs noSegment) t := by
    rintro (⟨i, c, hc, h⟩ | ⟨u, m, hm, -⟩ | ⟨major, e, he, -⟩)
    · have hcases : c = .userCode .app ∨ c = .templateProc := by
        fin_cases i <;> simp_all
      rcases hcases with rfl | rfl <;>
        rcases h with ⟨a, ha, -⟩ | ⟨m, hm, -⟩ | ⟨p, hp, -⟩ <;> contradiction
    · fin_cases u <;> simp_all
    · rw [hlist] at he
      exact absurd he List.not_mem_nil
  have hcount := howned.freed hremains
  rw [htrace] at hcount
  cases hcount

end Mblue
