import Mblue.Ledger.Broadcast
import Mblue.Properties.RemoteHeap

/-!
# Who frees the payload of a broadcast

A broadcast hands a payload block over. What is expected (`PayloadOwned`) is that it is freed once,
however many subscriptions there are, and that no handler is called with it after that.

The replicas of a broadcast share the block, and the handler of each frees it. So it is freed once
exactly when one subscription hears the broadcast (`payloadOwned_of_run`). Without one, `bus_signal`
drops the message and nobody frees the block; with two, the second handler is called with a block
that the first has freed, and frees it again (`not_payloadOwned_two`). As for a remote call, a
message that finds no free message or a full queue is lost with its block.
-/

set_option linter.unusedSectionVars false

namespace Mblue

variable {ι σ : Type}

/-! ### What is expected -/

/-- A handler that is about to be called with the payload of a message, or has been. -/
def Cmd.hasPayload? : Cmd ι σ → Option MsgId
  | .signalHandler _ m | .userCode (.signal _ m) => some m
  | _ => none

section Expected

variable [DecidableEq ι] [DecidableEq σ]

/-- **Who frees the payload of a broadcast.** The block is where it was until it is freed, and every
handler finds it there; it is freed at most once, and once when nothing of the broadcast is left;
and no handler is called with it after that. -/
structure PayloadOwned (A : SendArgs ι σ) (block : List UInt8) (s : State ι σ) : Prop where
  live : .freed A.draw A.input ∉ s.shared.trace → s.shared.heap A.input = some block
  readable : ∀ i, ∀ c ∈ s.threads i, ∀ m, c.hasPayload? = some m →
    (s.shared.pool m).draw = A.draw → s.shared.heap A.input = some block
  freed_le : s.shared.trace.count (.freed A.draw A.input) ≤ 1
  freed : ¬Remains A s → s.shared.trace.count (.freed A.draw A.input) = 1
  unused : s.shared.trace.Pairwise
    fun e e' ↦ e = .freed A.draw A.input → ∀ ms, e' ≠ .called ms A.draw A.input

end Expected

/-! ### What the account says -/

section Account

variable [Fintype ι] [DecidableEq ι] [DecidableEq σ] {cfg : Config ι σ} {A : SendArgs ι σ}
  {block : List UInt8} {s s₁ t : State ι σ} {i : ι} {f : Api ι σ}

/-- When nothing of the broadcast is left, nothing is going to free its block. -/
theorem dues_of_not_remains (h : ¬Remains A s) : (dues cfg).total s A.draw = 0 := by
  refine Tally.total_eq_zero (fun j x hx hxd ↦ ?_) fun u m hm hmd ↦ ?_
  · rcases dues_eq_some hxd with ⟨b, rfl, hb⟩ | ⟨m, hm, hmd⟩
    · exact h (.inl ⟨j, _, hx, .inl ⟨b, rfl, hb⟩⟩)
    · exact h (.inl ⟨j, _, hx, .inr (.inl ⟨m, Cmd.msg_of_frees hm, hmd⟩)⟩)
  · exact h (.inr (.inl ⟨u, m, hm, Option.some.inj hmd⟩))

/-- **The account says who frees the payload.** -/
theorem Aired.payloadOwned (h : Aired cfg A block s) : PayloadOwned A block s := by
  have hdue := h.due
  rw [count_heapEvents rfl] at hdue
  constructor
  case live => exact fun hfreed ↦ h.live (mt freed_mem_iff.1 hfreed)
  case readable =>
    intro j c hc m hm hdraw
    have hdues : (dues cfg).cmd s.shared c = some A.draw := by
      rw [← hdraw]
      cases c with
      | userCode k => cases k <;> cases hm; rfl
      | signalHandler => cases hm; rfl
      | _ => cases hm
    -- the handler is still going to free the block, so it has not been freed
    have hpos := mentions_pos hc hdues
    refine h.live fun hfreed ↦ ?_
    have hcount := List.count_pos_iff.2 (freed_mem_iff.1 hfreed)
    rw [Tally.total] at hdue
    omega
  case freed_le => omega
  case freed =>
    intro hremains
    rw [dues_of_not_remains hremains] at hdue
    omega
  case unused =>
    refine (List.pairwise_filter.1 h.unused).imp fun {e e'} himp heq ms hcalled ↦ ?_
    exact himp (heq ▸ rfl) (hcalled ▸ rfl) heq ms hcalled

theorem PayloadOwned.of_fuse (h : PayloadOwned A block (fuse cfg s)) : PayloadOwned A block s where
  live := by simpa using h.live
  readable := fun j c hc m hm hdraw ↦ by
    have hmem : c ∈ (fuse cfg s).threads j := mem_fuse_of_ne hc fun major e heq ↦ by
      rw [heq] at hm
      cases hm
    simpa using h.readable j c hmem m hm (by simpa using hdraw)
  freed_le := by simpa using h.freed_le
  freed := fun hremains ↦ by simpa using h.freed (mt Remains.of_fuse hremains)
  unused := by simpa using h.unused

theorem Broadcasts.fuse (h : Broadcasts cfg i f A block s) :
    Broadcasts cfg i f A block (fuse cfg s) where
  inUserCode := by
    obtain ⟨k, rest, hc⟩ := h.inUserCode
    exact ⟨k, rest, threads_fuse_of_ne hc fun _ _ heq ↦ by cases heq⟩
  isBroadcast := h.isBroadcast
  sends := callApi_fuse (s := s) f ▸ h.sends
  isBlock := h.isBlock
  allocated := by simpa using h.allocated
  sole := fun d hd ↦ h.sole d hd.of_fuse

theorem HeardOnce.unseen : Unseen (HeardOnce cfg A) := by
  intro i c a sh major e _ hok
  refine ⟨hok.1, ?_⟩
  cases c with
  | send args => simpa only [heardOnce, isSome_alloc_unlink] using hok.2
  | _ => cases a <;> exact hok.2

/-- **A payload that one subscription hears is freed once.** In every run from the broadcast on. -/
theorem payloadOwned_of_run
    (hs : Run (system cfg).step (AtHead NoWrap) (initial cfg) s)
    (hcast : Broadcasts cfg i f A block s) (hstep : (system cfg).step s (i, .api f) = some s₁)
    (ht : Run (system cfg).step (AtHead (HeardOnce cfg A)) s₁ t) : PayloadOwned A block t := by
  obtain ⟨hsplit, hrun, hfused⟩ := Split.of_api hs hcast.inUserCode hstep
  have haired := hcast.fuse.aired (Good.of_run hrun) (Numbered.of_run hrun) hfused
  have ht' := (Split.run ht hsplit HeardOnce.unseen fun hr ↦ (haired.of_run hr).toGood).2
  exact (haired.of_run ht').payloadOwned.of_fuse

end Account

/-! ### One subscription, and two -/

/-- A bus on task `0` and two segments on tasks of their own, with a handler for the signals with
minor number `0`. -/
def broadcastConfig : Config (Fin 3) (Fin 3) where
  isTask _ := true
  busTask := 0
  bus := 0
  major ms := ⟨2 * ms, by unfold segmentMajorMax; omega⟩
  context ms := some ms
  node m := if m = mblueBus then some 0 else if m = mblueLogService then some 1
    else if m = noSegment then some 2 else none
  capacity _ := 4
  signalItems _ := [⟨0, 1⟩]
  ipcItems _ := []
  context_bus := rfl
  major_bus := rfl
  node_major := by decide

/-- The number of the broadcast. -/
def broadcastMajor : Major := ⟨5, by decide⟩

/-- Task `0` has allocated a payload. -/
def prepared : State (Fin 3) (Fin 3) where
  shared := (initial broadcastConfig).shared.mallocPayload 16 [7]
  threads := Function.update (initial broadcastConfig).threads 0 [.userCode .app, .templateProc]

/-- What `broadcast_signal` sends. -/
def broadcastArgs : SendArgs (Fin 3) (Fin 3) :=
  drawnArgs prepared.shared (.task 0) .signal broadcastMajor 0 none 16 none

theorem run_prepared : Run (system broadcastConfig).step (AtHead NoWrap) (initial broadcastConfig)
    prepared :=
  .single (l := (0, .malloc 16 [7])) (fun _ hm ↦ by cases hm) rfl

theorem broadcasts_prepared :
    Broadcasts broadcastConfig 0 (.broadcastSignal broadcastMajor 0 16) broadcastArgs [7]
      prepared := by
  have hthreads : ∀ i, ∀ c ∈ prepared.threads i, c = .userCode .app ∨ c = .templateProc := by
    intro i c hc
    have heq : prepared.threads i = [.userCode .app, .templateProc] := by
      fin_cases i <;> rfl
    simpa [heq] using hc
  refine ⟨⟨_, _, rfl⟩, rfl, List.mem_singleton_self _, (by decide : pbPayload 16 = true), rfl,
    fun d hd ↦ ?_⟩
  cases hd with
  | sending hc htype hp => rcases hthreads _ _ hc with h | h <;> cases h
  | carried hc hm htype hp => rcases hthreads _ _ hc with rfl | rfl <;> cases hm
  | queued hm htype hp => exact absurd hm List.not_mem_nil

/-- Segments subscribe from their tasks, the signal is sent, and the bus takes everything in. -/
def subscribeFirst (subs : List (Fin 3)) : List (Fin 3 × Choice (Fin 3) (Fin 3)) :=
  subs.flatMap (fun ms ↦ [(ms, .api (.mblueSubscribe ms broadcastMajor)), (ms, .go), (ms, .go),
    (ms, .go), (ms, .go), (ms, .finish 0)]) ++
  [(0, .go), (0, .go), (0, .go), (0, .go), (0, .finish 0)] ++
  subs.flatMap (fun _ ↦ [(0, .go), (0, .go), (0, .go), (0, .go)]) ++ [(0, .go), (0, .go), (0, .go)]

/-- What a task does with its replica: it takes it, calls the handler, and ends it. -/
def handleReplica (t : Fin 3) : List (Fin 3 × Choice (Fin 3) (Fin 3)) :=
  [(t, .go), (t, .go), (t, .go), (t, .finish 0), (t, .go), (t, .go)]

/-- One subscription: its handler is called, and the block is freed. -/
theorem payloadOwned_one : ∃ s₁, (system broadcastConfig).step prepared
      (0, .api (.broadcastSignal broadcastMajor 0 16)) = some s₁ ∧ ∃ t,
    exec (system broadcastConfig).step (AtHead (HeardOnce broadcastConfig broadcastArgs)) s₁
      (subscribeFirst [1] ++ [(0, .go), (0, .go), (0, .go), (0, .go), (0, .go)] ++
        handleReplica 1) = some t ∧
    t.shared.trace.filter Event.onHeap = [.freed 1 16] ∧ PayloadOwned broadcastArgs [7] t :=
  ⟨_, rfl, exists_of_exec_eq rfl fun _ h ↦
    payloadOwned_of_run run_prepared broadcasts_prepared rfl h⟩

/-- Two subscriptions: the second handler is called with a block that has been freed, and frees it
again. -/
theorem not_payloadOwned_two :
    ¬∀ (i : Fin 3) (f : Api (Fin 3) (Fin 3)) A block s s₁ t,
      Run (system broadcastConfig).step (AtHead NoWrap) (initial broadcastConfig) s →
      Broadcasts broadcastConfig i f A block s →
      (system broadcastConfig).step s (i, .api f) = some s₁ →
      Run (system broadcastConfig).step (AtHead NoWrap) s₁ t → PayloadOwned A block t := by
  intro hall
  obtain ⟨s₁, hstep, t, hexec, hcount⟩ : ∃ s₁, (system broadcastConfig).step prepared
      (0, .api (.broadcastSignal broadcastMajor 0 16)) = some s₁ ∧ ∃ t,
    exec (system broadcastConfig).step (AtHead NoWrap) s₁
      (subscribeFirst [1, 2] ++ [(0, .go), (0, .go), (0, .go), (0, .go), (0, .go),
        (0, .go), (0, .go), (0, .go)] ++ handleReplica 1 ++ handleReplica 2) = some t ∧
    t.shared.trace.filter (fun e ↦ e.onHeap || e matches .called _ _ _) =
      [.called 1 1 16, .freed 1 16, .called 2 1 16, .freed 1 16] :=
    ⟨_, rfl, _, rfl, rfl⟩
  have howned := hall 0 _ _ _ _ s₁ t run_prepared broadcasts_prepared hstep (run_exec hexec)
  have hunused := howned.unused.filter (fun e ↦ e.onHeap || e matches .called _ _ _)
  rw [hcount] at hunused
  exact List.rel_of_pairwise_cons (List.Pairwise.of_cons hunused) List.mem_cons_self rfl 2 rfl

end Mblue
