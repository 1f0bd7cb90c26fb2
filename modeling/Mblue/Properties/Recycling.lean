import Mblue.System.Reduction

/-!
# No message is recycled while it is in use

What the invariant of `System/Invariant.lean` says about the message pool: the count is the length
of the free list, the list contains no message twice, and what is in it is in no queue, carried by
no command and not about to be released (`PoolKept`), and referred to by no entry of a call list
(`PoolIntact`). The order in which the bus and a service drop their references to a request plays no
part, since the states of all interleavings are covered.

**Two conditions are needed.**

* A request addressed to `MBLUE_BUS` finds the bus segment in the node table, so `bus_call` passes it
  on to the bus, again and again, and takes a reference every time. After 65535 rounds the 16-bit
  counter is zero while the request is queued, and one `ipc_return` puts it into the free list
  (`Wrap.not_poolIntact`). `NoWrap` excludes this.
* `bus_call_return` releases the request of an answered call before it takes its entry out of the
  call list. In between, once the last reference is dropped, the entry refers to a free message
  (`FreedInList`, `not_poolIntact_released`). Only the bus itself reads the list, and the entry is
  gone before it does. `poolIntact_iff_of_run` says that this is the only exception.
-/

set_option linter.unusedSectionVars false

namespace Mblue

variable {ι σ : Type} [Fintype ι] [DecidableEq ι] [DecidableEq σ] {cfg : Config ι σ}

/-- The message a command is going to release. -/
def Cmd.releases? : Cmd ι σ → Option MsgId
  | .release m | .handleSubscribe m => some m
  | .complete _ e => some e.msg
  | _ => none

/-- The free list is intact, and no free message is queued, being handled or about to be released. -/
structure PoolKept (s : State ι σ) : Prop where
  count_eq : s.shared.count = s.shared.msgList.length
  nodup : s.shared.msgList.Nodup
  not_queued : ∀ m ∈ s.shared.msgList, ∀ t, m ∉ s.shared.mq t
  not_carried : ∀ m ∈ s.shared.msgList, ∀ i, ∀ c ∈ s.threads i, c.msg? ≠ some m
  not_released : ∀ m ∈ s.shared.msgList, ∀ i, ∀ c ∈ s.threads i, c.releases? ≠ some m

/-- No message is free and in use at the same time. -/
structure PoolIntact (s : State ι σ) : Prop extends PoolKept s where
  not_pending : ∀ m ∈ s.shared.msgList, ∀ major, ∀ e ∈ s.shared.callList major, e.msg ≠ m

/-- The bus stands between the release of an answered request and the `list_del` of its entry, and
the request is free. -/
def FreedInList (cfg : Config ι σ) (s : State ι σ) : Prop :=
  ∃ major e rest, s.threads cfg.busTask = .unlink major e :: rest ∧ e.msg ∈ s.shared.msgList

/-- A message that is going to be released is in use. -/
theorem Good.not_free_of_releases {s : State ι σ} (h : Good cfg s) {i : ι} {c : Cmd ι σ}
    {m : MsgId} (hc : c ∈ s.threads i) (hm : c.releases? = some m) : m ∉ s.shared.msgList := by
  cases c with
  | release n => exact h.not_free hc hm
  | handleSubscribe n => exact h.not_free hc hm
  | complete major e =>
    obtain rfl : e.msg = m := Option.some.inj hm
    exact h.not_free_of_entry (h.knows i _ hc).2
  | _ => cases hm

theorem Good.poolIntact {s : State ι σ} (h : Good cfg s) : PoolIntact s where
  count_eq := h.sound.count_eq
  nodup := h.sound.nodup
  not_queued := fun _ hm _ hq ↦ h.not_free_of_mq hq hm
  not_carried := fun _ hm _ _ hc heq ↦ h.not_free hc heq hm
  not_released := fun _ hm _ _ hc heq ↦ h.not_free_of_releases hc heq hm
  not_pending := fun _ hm _ _ he heq ↦ h.not_free_of_entry he (heq ▸ hm)

/-- A `list_del` carries and releases no message, so the pool is as in the fused state. -/
theorem PoolKept.of_fuse {s : State ι σ} (h : PoolKept (fuse cfg s)) : PoolKept s where
  count_eq := by simpa using h.count_eq
  nodup := by simpa using h.nodup
  not_queued := by simpa using h.not_queued
  not_carried m hm i c hc heq := by
    refine h.not_carried m (by simpa using hm) i c (mem_fuse_of_ne hc ?_) heq
    rintro major e rfl
    cases heq
  not_released m hm i c hc heq := by
    refine h.not_released m (by simpa using hm) i c (mem_fuse_of_ne hc ?_) heq
    rintro major e rfl
    cases heq

/-- An entry of a free message is the one that the bus is about to unlink. -/
theorem Split.not_pending {s : State ι σ} (h : Split cfg s) (hfreed : ¬FreedInList cfg s)
    {major : Major} {e : PendingCall} (he : e ∈ s.shared.callList major) :
    e.msg ∉ s.shared.msgList := by
  have hgood : ∀ n, e ∈ (fuse cfg s).shared.callList n → e.msg ∉ s.shared.msgList := fun n hn ↦
    fuse_msgList cfg s ▸ h.good.not_free_of_entry hn
  rcases fuse_cases cfg s with ⟨n, e', rest, hbus⟩ | hfuse
  · rw [fuse_of_unlink hbus] at hgood
    by_cases heq : e = e'
    · exact fun hfree ↦ hfreed ⟨n, e', rest, hbus, heq ▸ hfree⟩
    · refine hgood major ?_
      show e ∈ Function.update s.shared.callList n ((s.shared.callList n).erase e') major
      by_cases hm : major = n
      · rw [hm, Function.update_self]
        exact (List.mem_erase_of_ne heq).2 (hm ▸ he)
      · rwa [Function.update_of_ne hm]
  · exact hgood major (hfuse.symm ▸ he)

/-- **No message is recycled while in use**, except that an answered request can be free for as long
as the bus needs to take its entry out of the call list. -/
theorem poolIntact_iff_of_run {s : State ι σ}
    (h : Run (system cfg).step (AtHead NoWrap) (initial cfg) s) :
    PoolKept s ∧ (PoolIntact s ↔ ¬FreedInList cfg s) := by
  have hsplit := (Split.of_noWrap h NoWrap.unseen id).1
  have hkept := PoolKept.of_fuse hsplit.good.poolIntact.toPoolKept
  refine ⟨hkept, ?_, fun hfreed ↦ ⟨hkept, fun m hm major e he heq ↦ ?_⟩⟩
  · rintro hintact ⟨major, e, rest, hbus, hfree⟩
    exact hintact.not_pending e.msg hfree major e (hsplit.linked hbus) rfl
  · exact hsplit.not_pending hfreed he (heq ▸ hm)

/-- The log service has a handler for requests. -/
abbrev recyclingConfig : Config (Fin 3) Bool := .small 4 [] [⟨0, 1⟩]

/-- An asynchronous call of the log service, which answers it and releases the request; the bus
matches the return, and releases the request for the last time. -/
def answeredCall : List (Fin 3 × Choice (Fin 3) Bool) :=
  [(2, .malloc 16 [5, 10, 1, 97, 16, 0]), (2, .api (.mblueRemoteCallAsync mblueLogService 0 16)),
    (2, .go), (2, .go), (2, .go), (2, .go), (0, .finish 0), (0, .go), (0, .go), (0, .go),
    (0, .go), (0, .go), (1, .finish 0), (1, .go), (1, .go), (1, .go), (1, .finish 1),
    (1, .go), (1, .go), (1, .go), (1, .go), (1, .go), (1, .go), (0, .go), (0, .go), (0, .go),
    (0, .finish 0), (0, .go), (0, .go)]

/-- The call is answered, and its entry unlinked. -/
theorem poolIntact_answered : ∃ t, exec (system recyclingConfig).step (AtHead NoWrap)
      (initial recyclingConfig) (answeredCall ++ [(0, .go)]) = some t ∧
    (t.threads 0, t.shared.callList mblueLogService) = ([.release 1, .templateProc], []) ∧
    PoolKept t ∧ (PoolIntact t ↔ ¬FreedInList recyclingConfig t) :=
  exists_of_exec_eq rfl fun _ h ↦ poolIntact_iff_of_run h

/-- **Between the release and the `list_del`** the entry refers to a free message. -/
theorem not_poolIntact_released : ∃ t, exec (system recyclingConfig).step (AtHead NoWrap)
    (initial recyclingConfig) answeredCall = some t ∧ ¬PoolIntact t := by
  obtain ⟨t, ht, hvalues⟩ : ∃ t, exec (system recyclingConfig).step (AtHead NoWrap)
      (initial recyclingConfig) answeredCall = some t ∧
    (decide (0 ∈ t.shared.msgList), t.shared.callList mblueLogService) =
      (true, [⟨0, .asyncCall, some 0⟩]) := ⟨_, rfl, rfl⟩
  obtain ⟨hfree, hlist⟩ := Prod.mk.inj hvalues
  exact ⟨t, ht, fun h ↦ h.not_pending 0 (of_decide_eq_true hfree) mblueLogService
    ⟨0, .asyncCall, some 0⟩ (hlist ▸ List.mem_singleton_self _) rfl⟩

/-! ### The counter wraps around -/

namespace Wrap

/-- The system of the counterexample: the bus is registered under `MBLUE_BUS`. -/
abbrev config : Config (Fin 3) Bool := .small 4 [] []

/-- The message of the request. -/
def req : MsgId := 0

/-- The message of the return. -/
def ret : MsgId := 1

/-- The request of task `2` to `MBLUE_BUS`, after `n` references were taken. -/
def request (n : ℕ) : Message (Fin 3) Bool where
  seq := 1
  ref := Fin.ofNat (2 ^ 16) (n + 1)
  code := mkCode .syncCall mblueBus 0
  src := .task 2
  dst := some true
  smartPayload := 0
  aux := .ipcReturn 0
  draw := 1

/-- The return for it, sent by task `1`. -/
def answer : Message (Fin 3) Bool :=
  initMessage config (ipcReturnArgs config 1 mblueBus 1 0)

/-- The entry each round adds to the call list. -/
def entry : PendingCall := ⟨req, .syncCall, none⟩

/-- The bus is about to take the request from its queue for the next time, and task `1` is about to
post the return. -/
structure Round (n : ℕ) (s : State (Fin 3) Bool) : Prop where
  bus : s.threads 0 = [.templateProc]
  sender : ∃ rest, s.threads 1 = .post 0 ret :: rest
  mq : s.shared.mq 0 = [req]
  sem : s.shared.msgSem 0 = 1
  pool_req : s.shared.pool req = request n
  pool_ret : s.shared.pool ret = answer
  calls : s.shared.callList mblueBus = List.replicate n entry

/-- The return is in front of the request, whose counter has been through zero. -/
structure Waiting (s : State (Fin 3) Bool) : Prop where
  bus : s.threads 0 = [.templateProc]
  mq : s.shared.mq 0 = [ret, req]
  sem : s.shared.msgSem 0 = 2
  pool_req : s.shared.pool req = request 65536
  pool_ret : s.shared.pool ret = answer
  calls : ∃ rest, s.shared.callList mblueBus = entry :: rest

theorem request_type (n : ℕ) : (request n).type = some .syncCall := getType_mkCode _ _ _

theorem request_major (n : ℕ) : (request n).major = some mblueBus := getMajor_mkCode _ _ _

theorem request_dst (n : ℕ) : (request n).dst = some true := rfl

theorem request_src (n : ℕ) : (request n).src = .task 2 := rfl

theorem request_aux (n : ℕ) : (request n).aux = .ipcReturn 0 := rfl

theorem request_seq (n : ℕ) : (request n).seq = 1 := rfl

theorem answer_type : answer.type = some .callReturn := getType_mkCode _ _ _

theorem answer_major : answer.major = some mblueBus := getMajor_mkCode _ _ _

theorem answer_dst : answer.dst = some true := rfl

theorem answer_seq : answer.seq = 1 := rfl

/-- One more reference. -/
theorem request_succ (n : ℕ) :
    { request n with ref := getMblueMessage (request n).ref, dst := some true } =
      request (n + 1) := by
  have hval : getMblueMessage (Fin.ofNat (2 ^ 16) (n + 1)) = Fin.ofNat (2 ^ 16) (n + 1 + 1) :=
    Fin.ext (by simp [getMblueMessage, Fin.val_add])
  simp only [request, hval]

/-- The counterexample's run has reached its first round. -/
theorem exists_round : ∃ t, Run (system config).step (fun _ _ ↦ True) (initial config) t ∧
    Round 0 t := by
  have hexec : ∃ t, exec (system config).step (fun _ _ ↦ True) (initial config)
      [(0, .finish 0), (2, .api (.mblueRemoteCall mblueBus 0 0)), (2, .go), (2, .go), (2, .go),
        (1, .api (.ipcReturn mblueBus 1 0)), (1, .go)] = some t ∧ Round 0 t :=
    ⟨_, rfl, rfl, ⟨_, rfl⟩, rfl, rfl, rfl, rfl, rfl⟩
  obtain ⟨t, ht, hround⟩ := hexec
  exact ⟨t, run_exec ht, hround⟩

/-- One round: from the queue through `bus_call` back into the queue. -/
theorem Round.next {n : ℕ} {s : State (Fin 3) Bool} (h : Round n s) :
    ∃ t, Run (system config).step (fun _ _ ↦ True) s t ∧ Round (n + 1) t := by
  obtain ⟨rest, hsender⟩ := h.sender
  have hne : ret ≠ req := by decide
  have hexec : ∃ t, exec (system config).step (fun _ _ ↦ True) s
      [(0, .go), (0, .go), (0, .go), (0, .go), (0, .go)] = some t ∧ Round (n + 1) t := by
    simp [exec, Machine.step, system, h.bus, runCmd, runTemplateProc, h.sem, runRemove, h.mq,
      h.pool_req, request_type, request_major, request_dst, request_aux, getHandler, runBusCall,
      pendingCall, runPost, Shared.queueAdd, Shared.forward, Shared.link, Shared.log, config,
      Config.small]
    constructor <;>
      simp [hsender, h.pool_ret, hne, h.calls, List.replicate_succ', entry, ← request_succ,
        request_aux]
  obtain ⟨t, ht, hround⟩ := hexec
  exact ⟨t, run_exec ht, hround⟩

theorem exists_rounds (n : ℕ) :
    ∃ t, Run (system config).step (fun _ _ ↦ True) (initial config) t ∧ Round n t := by
  induction n with
  | zero => exact exists_round
  | succ n ih =>
    obtain ⟨s, hs, hround⟩ := ih
    obtain ⟨t, ht, hnext⟩ := hround.next
    exact ⟨t, hs.trans ht, hnext⟩

/-- The return is posted, and one round later it is in front of the request. -/
theorem Round.waiting {s : State (Fin 3) Bool} (h : Round 65535 s) :
    ∃ t, Run (system config).step (fun _ _ ↦ True) s t ∧ Waiting t := by
  obtain ⟨rest, hsender⟩ := h.sender
  have hne : ret ≠ req := by decide
  obtain ⟨calls, hcalls⟩ : ∃ rest, s.shared.callList mblueBus = entry :: rest :=
    ⟨_, h.calls.trans List.replicate_succ⟩
  have hexec : ∃ t, exec (system config).step (fun _ _ ↦ True) s
      [(1, .go), (1, .go), (0, .go), (0, .go), (0, .go), (0, .go), (0, .go)] = some t ∧
        Waiting t := by
    simp [exec, Machine.step, system, h.bus, runCmd, runTemplateProc, h.sem, runRemove, h.mq,
      h.pool_req, request_type, request_major, request_dst, request_aux, getHandler, runBusCall,
      pendingCall, runPost, hsender, Shared.queueAdd, Shared.forward, Shared.link, Shared.log,
      config, Config.small]
    constructor <;> simp [h.pool_ret, hne, hcalls, request_aux, ← request_succ 65535]
  obtain ⟨t, ht, hwaiting⟩ := hexec
  exact ⟨t, run_exec ht, hwaiting⟩

/-- The return completes one entry, and the request is released although it is queued. -/
theorem Waiting.recycled {s : State (Fin 3) Bool} (h : Waiting s) :
    ∃ t, Run (system config).step (fun _ _ ↦ True) s t ∧ req ∈ t.shared.msgList ∧
      req ∈ t.shared.mq 0 := by
  have hne : ret ≠ req := by decide
  have hput : putMblueMessage (request 65536).ref = 0 := by decide
  obtain ⟨calls, hcalls⟩ := h.calls
  have hexec : ∃ t, exec (system config).step (fun _ _ ↦ True) s
      [(0, .go), (0, .go), (0, .go), (0, .go), (0, .go)] = some t ∧ req ∈ t.shared.msgList ∧
        req ∈ t.shared.mq 0 := by
    simp [exec, Machine.step, system, h.bus, runCmd, runTemplateProc, h.sem, runRemove, h.mq,
      h.pool_req, h.pool_ret, request_src, request_aux, request_seq, answer_type, answer_major,
      answer_dst, answer_seq, getHandler, runBusCallReturn, hcalls, entry, Shared.log,
      Shared.writeCell, Shared.release, Shared.unlink, config, Config.small, hput]
  obtain ⟨t, ht, hrecycled⟩ := hexec
  exact ⟨t, run_exec ht, hrecycled⟩

/-- **Without the condition** a message gets into the free list while it is queued. -/
theorem not_poolIntact :
    ¬ ∀ t, Run (system config).step (fun _ _ ↦ True) (initial config) t → PoolIntact t := by
  intro hall
  obtain ⟨s, hs, hround⟩ := exists_rounds 65535
  obtain ⟨t, ht, hwaiting⟩ := hround.waiting
  obtain ⟨u, hu, hfree, hqueued⟩ := hwaiting.recycled
  exact (hall u ((hs.trans ht).trans hu)).not_queued req hfree 0 hqueued

end Wrap

end Mblue
