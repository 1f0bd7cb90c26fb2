import Mblue.Delivery.Work
import Mblue.Properties.PublishSubscribe

/-!
# The system settles

Whatever the interleaving, a function that user code calls leads to a bounded number of steps: in a
run with `k` calls of functions, `n` of them subscriptions, and `l` calls that `LOGGER` makes of the
log service, the system makes at most `30 + 9 * n` steps of its own for each of the `k` calls, `29`
for each of the `l`, and one for each thread (`internal_le_of_run`).

`LOGGER`'s calls are counted apart because user code does not make them: the bus logs a line when it
drops a message, and the line is a request of its own. Where no segment serves the log, the bus drops
that request and logs the next line, so there is no bound in `k` and `n` alone.

The bound holds where the bus is not its own subscriber and finds no request under its own number
(`Confined`).
-/

set_option linter.unusedSectionVars false

namespace Mblue

variable {ι σ : Type} [Fintype ι] [DecidableEq ι] [DecidableEq σ]

/-- What has been done in a run. -/
structure StepCount where
  /-- The steps of the system's own. -/
  internal : ℕ
  /-- The functions user code has called. -/
  calls : ℕ
  /-- The calls of the log service that `LOGGER` has made. -/
  logs : ℕ
  /-- The subscriptions among user code's calls. -/
  subscriptions : ℕ
  deriving DecidableEq, Repr

/-- A command executed, which counts as some steps of the system's own. -/
def StepCount.count (n : StepCount) (own : ℕ) (a : Choice ι σ) (c : Cmd ι σ) : StepCount :=
  ⟨n.internal + own, n.calls + (isApiCall c a).toNat, n.logs + (isLogCall c a).toNat,
    n.subscriptions + (isSubscription c a).toNat⟩

/-- One step more. -/
def StepCount.add (n : StepCount) (a : Choice ι σ) (c : Cmd ι σ) : StepCount :=
  n.count (isInternal c a).toNat a c

/-- A step of the system, with the counts of the run. -/
def countedStep (cfg : Config ι σ) (p : State ι σ × StepCount) (l : ι × Choice ι σ) :
    Option (State ι σ × StepCount) :=
  ((system cfg).step p.1 l).map fun t ↦ (t, (p.1.threads l.1).head?.elim p.2 (p.2.add l.2))

/-- The condition on the steps of a run. -/
def Settling (cfg : Config ι σ) (p : State ι σ × StepCount) (l : ι × Choice ι σ) : Prop :=
  AtHead (Confined cfg) p.1 l

instance (cfg : Config ι σ) (p : State ι σ × StepCount) (l : ι × Choice ι σ) :
    Decidable (Settling cfg p l) :=
  inferInstanceAs (Decidable (AtHead (Confined cfg) p.1 l))

variable {cfg : Config ι σ} {s t : State ι σ} {n : StepCount} {i : ι} {a : Choice ι σ}

/-! ### The fused system -/

/-- What holds along a run of the fused system: the lists are no longer than there were
subscriptions, the bus is on none, and what is left to do is paid for. -/
structure Paid (cfg : Config ι σ) (s : State ι σ) (n : StepCount) : Prop where
  good : Good cfg s
  listed : ∀ major, (s.shared.publishList major).length + subscribing s ≤ n.subscriptions
  others : ∀ major, cfg.bus ∉ s.shared.publishList major
  loops : ∀ i m subs, .busSignalLoop m subs ∈ s.threads i → cfg.bus ∉ subs
  paid : ∀ K, n.subscriptions ≤ K → n.internal + work cfg K s ≤
    Fintype.card ι + (30 + 9 * K) * n.calls + 29 * n.logs

theorem weight_initial (cfg : Config ι σ) (K : ℕ) (pool : MsgId → Message ι σ) :
    weight (Cmd.work cfg K pool) (initial cfg).threads = Fintype.card ι := by
  have hone (i : ι) : (((initial cfg).threads i).map (Cmd.work cfg K pool)).sum = 1 := by
    unfold initial
    dsimp only
    split <;> rfl
  rw [weight, Finset.sum_congr rfl fun i _ ↦ hone i, Finset.sum_const, Finset.card_univ,
    smul_eq_mul, Nat.mul_one]

theorem paid_initial (cfg : Config ι σ) : Paid cfg (initial cfg) ⟨0, 0, 0, 0⟩ := by
  have hzero (T : Tariff ι σ) : T.queues (initial cfg).shared = 0 :=
    Finset.sum_eq_zero fun _ _ ↦ rfl
  refine ⟨Good.initial cfg, fun major ↦ ?_, fun major h ↦ absurd h List.not_mem_nil,
    fun i m subs h ↦ ?_, fun K _ ↦ ?_⟩
  · have hnone : weight (Cmd.subscribes (initial cfg).shared.pool) (initial cfg).threads = 0 :=
      weight_eq_zero_iff.2 fun i c hc ↦ by
        rcases mem_initial hc with rfl | rfl <;> rfl
    have htotal : subscribing (initial cfg) = 0 := by
      rw [subscribing, Tariff.total, hzero]
      exact hnone
    rw [htotal]
    exact le_rfl
  · rcases mem_initial h with h | h <;> cases h
  · have htokens : tokens (initial cfg).shared = 0 := Finset.sum_eq_zero fun _ _ ↦ rfl
    have hthreads := weight_initial cfg K (initial cfg).shared.pool
    have hwork : work cfg K (initial cfg) = Fintype.card ι := by
      rw [work, Tariff.total, hzero, htokens]
      exact hthreads
    show 0 + work cfg K (initial cfg) ≤ Fintype.card ι + (30 + 9 * K) * 0 + 29 * 0
    omega

/-- **The step lemma.** -/
theorem Paid.step (h : Paid cfg s n) {c : Cmd ι σ} {rest : List (Cmd ι σ)}
    (hc : s.threads i = c :: rest) (hconfined : Confined cfg i c a s.shared)
    (hstep : (fused cfg).step s (i, a) = some t) : Paid cfg t (n.count (ownSteps c a) a c) := by
  have hgood := h.good.step (AtHead.of_head hc hconfined.1) hstep
  obtain ⟨c', rest', sh', cs, hc', he, rfl⟩ := effect_of_step hstep
  obtain ⟨rfl, rfl⟩ := List.cons.inj (hc.symm.trans hc')
  have hmove := move_of_effect he
  have hsubs := he.subscribes_le h.good hc
  have haccount := subscribeTariff.account h.good hc hmove
  have hprice : (subscribeTariff : Tariff ι σ).cmd = Cmd.subscribes := rfl
  rw [hprice] at haccount
  refine ⟨hgood, fun major ↦ ?_, fun major hbus ↦ ?_, fun k m subs hm hbus ↦ ?_, fun K hK ↦ ?_⟩
  · have hlisted := h.listed major
    have hsub := hsubs major
    unfold subscribing at hlisted ⊢
    dsimp only [StepCount.count] at hlisted hsub ⊢
    omega
  · by_cases hsub : ∃ ms m, c = .busSubscribe ms m
    · obtain ⟨ms, m, rfl⟩ := hsub
      have hms := hconfined.ne_bus
      cases he
      have hmem : cfg.bus ∈ Function.update s.shared.publishList m
        (s.shared.publishList m ++ [ms]) major := hbus
      by_cases hm : major = m
      · rw [hm, Function.update_self, List.mem_append, List.mem_singleton] at hmem
        exact hmem.elim (h.others m) fun heq ↦ hms heq.symm
      · rw [Function.update_of_ne hm] at hmem
        exact h.others major hmem
    · dsimp only at hbus
      rw [he.publishList_eq fun ms m heq ↦ hsub ⟨ms, m, heq⟩] at hbus
      exact h.others major hbus
  · rcases mem_expand_iff.1 hm with ⟨-, hm⟩ | hm
    · rcases he.loop_origin hm with ⟨-, major, -, rfl⟩ | ⟨ms', rfl⟩
      · exact h.others major hbus
      · exact h.loops i m _ (Good.mem_head hc) (List.mem_cons_of_mem _ hbus)
    · exact h.loops k m subs (mem_of_mem_rest hc hm) hbus
  · -- the tariff depends on the subscriptions, and `K` bounds those after the step
    have hlists : ∀ major, (s.shared.publishList major).length ≤ K := fun major ↦ by
      have hlisted := h.listed major
      dsimp only [StepCount.count] at hK hlisted
      omega
    have hloops : ∀ m subs, c = .busSignalLoop m subs → cfg.bus ∉ subs :=
      fun m subs heq ↦ h.loops i m subs (heq ▸ Good.mem_head hc)
    have hle := he.work_le h.good hc hlists hloops hconfined
    have hwork := (workTariff cfg K).account h.good hc hmove
    have hcmd : (workTariff cfg K).cmd = Cmd.work cfg K := rfl
    have hpaid := h.paid K (by dsimp only [StepCount.count] at hK ⊢; omega)
    rw [hcmd] at hwork
    unfold work at hpaid ⊢
    dsimp only [StepCount.count] at hpaid hwork hle ⊢
    rw [Nat.mul_add]
    omega

/-! ### The system -/

theorem Confined.unseen : Unseen (Confined cfg) := fun _ c _ _ _ _ _ hok ↦
  ⟨hok.1, by cases c <;> exact hok.2⟩

/-- The bus has one step more to take than in the fused state. -/
def unlinking (cfg : Config ι σ) (s : State ι σ) : ℕ :=
  match s.threads cfg.busTask with
  | .unlink _ _ :: _ => 1
  | _ => 0

theorem unlinking_of_head {major : Major} {e : PendingCall} {rest : List (Cmd ι σ)}
    (h : s.threads cfg.busTask = .unlink major e :: rest) : unlinking cfg s = 1 := by
  unfold unlinking
  rw [h]

theorem unlinking_eq_zero (h : ∀ major e rest, s.threads cfg.busTask ≠ .unlink major e :: rest) :
    unlinking cfg s = 0 := by
  unfold unlinking
  split
  · next major e rest heq => exact absurd heq (h major e rest)
  · rfl

/-- What holds along a run: the fused state is paid for, with a count that is ahead of the run's
while the bus is at a `list_del`. -/
structure Settles (cfg : Config ι σ) (p : State ι σ × StepCount) : Prop where
  split : Split cfg p.1
  paid : ∃ m, Paid cfg (fuse cfg p.1) { p.2 with internal := m } ∧
    p.2.internal + unlinking cfg p.1 ≤ m

/-- A step is one of those its fused step stands for. -/
theorem Split.unlinking_step (h : Split cfg s) {c : Cmd ι σ} {rest : List (Cmd ι σ)}
    (hc : s.threads i = c :: rest) (hstep : (system cfg).step s (i, a) = some t) :
    (isInternal c a).toNat + unlinking cfg t ≤ ownSteps c a + unlinking cfg s := by
  have hown : (isInternal c a).toNat ≤ ownSteps c a := by
    cases c with
    | complete => exact Nat.le_succ 1
    | _ => exact le_rfl
  by_cases hbus : ∃ major e tail, t.threads cfg.busTask = .unlink major e :: tail
  · obtain ⟨major, e, tail, hbus⟩ := hbus
    have hone := unlinking_of_head hbus
    rcases h.unlink_origin hstep hbus with ⟨-, hbefore⟩ | ⟨-, rest', hcomplete⟩
    · have hbefore := unlinking_of_head hbefore
      omega
    · obtain ⟨rfl, -⟩ := List.cons.inj (hc.symm.trans hcomplete)
      rw [hone]
      exact Nat.le_add_right 2 _
  · have hzero := unlinking_eq_zero fun major e tail heq ↦ hbus ⟨major, e, tail, heq⟩
    omega

theorem settles_initial (cfg : Config ι σ) : Settles cfg (initial cfg, ⟨0, 0, 0, 0⟩) := by
  refine ⟨Split.initial cfg, 0, ?_, ?_⟩
  · rw [Split.fuse_initial]
    exact paid_initial cfg
  · have hzero : unlinking cfg (initial cfg) = 0 := unlinking_eq_zero fun major e rest hbus ↦
      Split.ne_unlink_initial (hbus ▸ List.mem_cons_self) major e rfl
    show 0 + unlinking cfg (initial cfg) ≤ 0
    omega

theorem Settles.step {p q : State ι σ × StepCount} (h : Settles cfg p) {l : ι × Choice ι σ}
    (hok : Settling cfg p l) (hstep : countedStep cfg p l = some q) : Settles cfg q := by
  obtain ⟨s, n⟩ := p
  obtain ⟨i, a⟩ := l
  obtain ⟨t, ht, rfl⟩ := Option.map_eq_some_iff.1 hstep
  have ht : (system cfg).step s (i, a) = some t := ht
  obtain ⟨m, hpaid, hle⟩ := h.paid
  have hsplit : Split cfg s := h.split
  obtain ⟨c, rest, sh', cs, hc, -, -⟩ := (system cfg).step_eq_some_iff.1 ht
  have hok : AtHead (Confined cfg) s (i, a) := hok
  have hconfined := hok.cmd hc
  have hwrap : AtHead NoWrap s (i, a) := AtHead.of_head hc hconfined.1
  have hgood := hsplit.step NoWrap.unseen
    (fun hok hfused ↦ hsplit.good.step hok hfused) hwrap ht
  have hown := hsplit.unlinking_step hc ht
  dsimp only at hc hpaid hle ⊢
  rw [hc, List.head?_cons, Option.elim_some]
  by_cases hbus : ∃ major e tail, s.threads cfg.busTask = .unlink major e :: tail ∧ i = cfg.busTask
  · obtain ⟨major, e, tail, hbus, rfl⟩ := hbus
    obtain ⟨rfl, -⟩ := List.cons.inj (hc.symm.trans hbus)
    refine ⟨hgood.1, m, ?_, ?_⟩
    · rw [hsplit.fuse_unlinked hbus ht]
      exact hpaid
    · have hbefore := unlinking_of_head hbus
      have hafter : unlinking cfg t = 0 := unlinking_eq_zero fun n e' tail' hbus' ↦ by
        rcases hsplit.unlink_origin ht hbus' with ⟨hne, -⟩ | ⟨-, rest', hcomplete⟩
        · exact hne rfl
        · cases (List.cons.inj (hc.symm.trans hcomplete)).1
      show n.internal + 1 + unlinking cfg t ≤ m
      omega
  · have hne := hsplit.ne_unlink_of_head hbus hc
    have hc' : (fuse cfg s).threads i = c :: rest := threads_fuse_of_ne hc hne
    have hconfined' : Confined cfg i c a (fuse cfg s).shared :=
      (hsplit.atHead_fuse Confined.unseen hok hbus).cmd hc'
    have hstep' := hpaid.step hc' hconfined' (hsplit.step_fused hbus ht)
    refine ⟨hgood.1, m + ownSteps c a, hstep', ?_⟩
    show n.internal + (isInternal c a).toNat + unlinking cfg t ≤ m + ownSteps c a
    omega

/-- **The system settles**: the steps of its own that a run makes are bounded by the functions user
code has called in it, and by the lines that were logged. -/
theorem internal_le_of_run {p : State ι σ × StepCount}
    (h : Run (countedStep cfg) (Settling cfg) (initial cfg, ⟨0, 0, 0, 0⟩) p) :
    p.2.internal ≤ Fintype.card ι + (30 + 9 * p.2.subscriptions) * p.2.calls + 29 * p.2.logs := by
  obtain ⟨-, m, hpaid, hle⟩ :=
    h.invariant (P := Settles cfg) (settles_initial cfg) fun ha hok hstep ↦ ha.step hok hstep
  have hbound := hpaid.paid p.2.subscriptions le_rfl
  dsimp only at hbound
  omega

theorem internal_le_twice : ∃ p, exec (countedStep broadcastConfig) (Settling broadcastConfig)
      (initial broadcastConfig, ⟨0, 0, 0, 0⟩) publishTwice = some p ∧ p.2 = ⟨73, 4, 0, 2⟩ ∧
    p.2.internal ≤ Fintype.card (Fin 3) + (30 + 9 * p.2.subscriptions) * p.2.calls +
      29 * p.2.logs :=
  exists_of_exec_eq rfl fun _ h ↦ internal_le_of_run h

end Mblue
