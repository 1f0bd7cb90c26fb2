import Mblue.System.Invariant

/-!
# Who is woken up

A task sleeps on its `msg_sem`, and is woken up by a token for each message that is put into its
queue. `Awake` follows the tokens: each is in the semaphore, about to be posted, or taken by the task
that is about to remove a message, and there are as many as messages in the queue. So a task that
sleeps has an empty queue (`Awake.mq_eq_nil`).

It also says where commands stand that are executed as soon as they are there (`Cmd.leads`): a thread
that waits has none of them left.
-/

set_option linter.unusedSectionVars false

namespace Mblue

variable {ι σ : Type}

section Steps

variable [Fintype ι] [DecidableEq ι] [DecidableEq σ] {cfg : Config ι σ} {i t : ι} {c : Cmd ι σ}
  {a : Choice ι σ} {sh sh' : Shared ι σ} {cs : List (Cmd ι σ)}

/-! ### Tokens -/

theorem msgSem_release (sh : Shared ι σ) (m : MsgId) : (sh.release m).msgSem = sh.msgSem := by
  unfold Shared.release
  dsimp only
  split <;> rfl

theorem msgSem_callApi (f : Api ι σ) : (callApi cfg i sh f).1.msgSem = sh.msgSem := by
  cases f with
  | targetSignal source major minor dest data extra =>
    unfold callApi
    dsimp only
    split <;> rfl
  | _ => rfl

/-- Only the loop of a task and a post change `msg_sem`. -/
theorem Effect.msgSem_eq (h : Effect cfg i c a sh sh' cs) (hloop : c ≠ .templateProc)
    (hpost : ∀ t, c ≠ .semPost t) : sh'.msgSem = sh.msgSem := by
  cases h with
  | pendFailed | pendTaken => exact absurd rfl hloop
  | semPosted => exact absurd rfl (hpost _)
  | userCall => exact msgSem_callApi _
  | sendDone halloc | loopReplicated _ halloc =>
    obtain ⟨_, -, rfl⟩ := alloc_eq_some halloc
    rfl
  | tpendTaken hsem =>
    rename_i t o d tail
    cases o <;> rfl
  | subscribeReleased | released => exact msgSem_release sh _
  | completed =>
    rename_i major e
    exact msgSem_release sh e.msg
  | _ => rfl

/-- A token that is going to be posted to the task's `msg_sem`. -/
def Cmd.wakes (t : ι) : Cmd ι σ → ℕ
  | .semPost u => if u = t then 1 else 0
  | _ => 0

/-- A token that the thread has taken from its `msg_sem`. -/
def Cmd.woken : Cmd ι σ → ℕ
  | .remove => 1
  | _ => 0

/-- **What a step does to the tokens of a task**: a message enters the queue with a token and leaves
it with one. -/
theorem Effect.wakes_eq (h : Effect cfg i c a sh sh' cs) (t : ι) :
    (sh'.mq t).length + sh.msgSem t + c.wakes t + (if i = t then c.woken else 0) =
      (sh.mq t).length + sh'.msgSem t + (cs.map (Cmd.wakes t)).sum +
        (if i = t then (cs.map Cmd.woken).sum else 0) := by
  have hmove := move_of_effect h
  have hsem := h.msgSem_eq
  cases h with
  | pendFailed => rfl
  | pendTaken hpos =>
    by_cases hi : i = t
    · subst hi
      simp only [Function.update_self, List.map_cons, List.map_nil, List.sum_cons, List.sum_nil,
        Cmd.wakes, Cmd.woken, if_true]
      omega
    · simp only [Function.update_of_ne (Ne.symm hi), List.map_cons, List.map_nil, List.sum_cons,
        List.sum_nil, Cmd.wakes, if_neg hi]
      omega
  | removed hmq hdst htype hhandler =>
    rename_i m rest ms type handler
    -- a handler has posted nothing and taken nothing yet
    have hzero : (if i = t then ([handler].map Cmd.woken).sum else 0) = 0 ∧
        ([handler].map (Cmd.wakes t)).sum = 0 := by
      cases handles_of_getHandler hhandler <;> exact ⟨ite_self 0, rfl⟩
    rw [hzero.1, hzero.2]
    by_cases hi : i = t
    · subst hi
      simp only [Function.update_self, hmq, List.length_cons, Cmd.wakes, Cmd.woken, if_true]
      omega
    · simp only [Function.update_of_ne (Ne.symm hi), Cmd.wakes, if_neg hi]
  | userCall =>
    rename_i k f _
    rw [hmove.mq_eq (by rintro ⟨⟩) (by rintro _ _ ⟨⟩), hsem (by rintro ⟨⟩) (by rintro _ ⟨⟩)]
    cases f <;> simp [callApi, Cmd.wakes, Cmd.woken]
  | postFull =>
    simp only [List.map_nil, List.sum_nil, Cmd.wakes, Cmd.woken, ite_self]
  | postDone =>
    rename_i u m _
    -- the message is in the queue, and its token is still to come
    by_cases hu : u = t
    · subst hu
      simp only [Function.update_self, List.length_append, List.length_singleton, List.map_cons,
        List.map_nil, List.sum_cons, List.sum_nil, Cmd.wakes, Cmd.woken, if_true, Nat.add_zero,
        ite_self]
      omega
    · simp only [Function.update_of_ne (Ne.symm hu), List.map_cons, List.map_nil, List.sum_cons,
        List.sum_nil, Cmd.wakes, Cmd.woken, if_neg hu, Nat.add_zero, ite_self]
  | semPosted =>
    rename_i u
    by_cases hu : u = t
    · subst hu
      simp only [Function.update_self, List.map_nil, List.sum_nil, Cmd.wakes, Cmd.woken, if_true,
        ite_self]
      omega
    · simp only [Function.update_of_ne (Ne.symm hu), List.map_nil, List.sum_nil, Cmd.wakes,
        Cmd.woken, if_neg hu, ite_self]
  | _ =>
    rw [hmove.mq_eq (by rintro ⟨⟩) (by rintro _ _ ⟨⟩), hsem (by rintro ⟨⟩) (by rintro _ ⟨⟩)]
    simp [Cmd.wakes, Cmd.woken]

/-- A command that stands at the head of a thread from its first step to its last. -/
def Cmd.leads : Cmd ι σ → Bool
  | .send _ | .post _ _ | .semPost _ | .tpend _ _ | .remove => true
  | _ => false

/-- **The invariant of the wakeups.** -/
structure Awake (cfg : Config ι σ) (s : State ι σ) : Prop where
  loops : ∀ t, cfg.isTask t = true → .templateProc ∈ s.threads t
  woken : ∀ t, (s.shared.mq t).length =
    s.shared.msgSem t + weight (Cmd.wakes t) s.threads + ((s.threads t).map Cmd.woken).sum
  leading : ∀ j, ∀ d ∈ (s.threads j).tail, d.leads = false

variable {s : State ι σ} {rest : List (Cmd ι σ)}

namespace Awake

/-- The tokens of a task, one step on. -/
theorem woken_step (h : Awake cfg s) (hc : s.threads i = c :: rest)
    (he : Effect cfg i c a s.shared sh' cs) (t : ι) :
    (sh'.mq t).length = sh'.msgSem t +
      weight (Cmd.wakes t) (Function.update s.threads i (cs ++ rest)) +
      ((Function.update s.threads i (cs ++ rest) t).map Cmd.woken).sum := by
  have hold := h.woken t
  have heffect := he.wakes_eq t
  have hweight := weight_expand (Cmd.wakes t) hc cs
  by_cases hi : i = t
  · subst hi
    rw [hc, List.map_cons, List.sum_cons] at hold
    rw [if_pos rfl, if_pos rfl] at heffect
    rw [Function.update_self, List.map_append, List.sum_append]
    omega
  · rw [if_neg hi, if_neg hi] at heffect
    have hthread : Function.update s.threads i (cs ++ rest) t = s.threads t :=
      Function.update_of_ne (Ne.symm hi) _ _
    rw [hthread]
    omega

/-- The loop of a task goes on. -/
theorem loops_step (hc : s.threads i = c :: rest) (he : Effect cfg i c a s.shared sh' cs)
    (h : .templateProc ∈ s.threads t) :
    .templateProc ∈ Function.update s.threads i (cs ++ rest) t := by
  rw [mem_expand_iff]
  rcases mem_cases hc h with ⟨rfl, rfl⟩ | hrest
  · left
    cases he with
    | pendFailed => exact ⟨rfl, List.mem_singleton_self _⟩
    | pendTaken => exact ⟨rfl, List.mem_cons_of_mem _ (List.mem_singleton_self _)⟩
  · exact .inr hrest

/-- A command expands to at most one that leads, and it comes first. -/
theorem leads_tail (he : Effect cfg i c a sh sh' cs) : cs.tail.all (fun d ↦ !d.leads) = true := by
  cases he with
  | userCall =>
    rename_i k f _
    cases f <;> rfl
  | _ => rfl

theorem leading_step (h : Awake cfg s) (hc : s.threads i = c :: rest)
    (he : Effect cfg i c a s.shared sh' cs) :
    ∀ j, ∀ d ∈ (Function.update s.threads i (cs ++ rest) j).tail, d.leads = false := by
  have hrest : ∀ d ∈ rest, d.leads = false := by
    have hold := h.leading i
    rw [hc, List.tail_cons] at hold
    exact hold
  intro j d hd
  by_cases hj : j = i
  · rw [hj, Function.update_self] at hd
    cases cs with
    | nil => exact hrest d (List.mem_of_mem_tail hd)
    | cons d' ds =>
      rw [List.cons_append, List.tail_cons, List.mem_append] at hd
      exact hd.elim (fun hnew ↦ Bool.not_inj (List.all_eq_true.1 (leads_tail he) d hnew))
        (hrest d)
  · rw [Function.update_of_ne hj] at hd
    exact h.leading j d hd

/-- **The step lemma.** -/
theorem step (h : Awake cfg s) {l : ι × Choice ι σ} {u : State ι σ}
    (hstep : (fused cfg).step s l = some u) : Awake cfg u := by
  obtain ⟨i, a⟩ := l
  obtain ⟨c, rest, sh', cs, hc, he, rfl⟩ := effect_of_step hstep
  exact ⟨fun t ht ↦ loops_step hc he (h.loops t ht), h.woken_step hc he, h.leading_step hc he⟩

theorem initial (cfg : Config ι σ) : Awake cfg (Mblue.initial cfg) := by
  have hthreads (t : ι) : (Mblue.initial cfg).threads t = [.userCode .app, .templateProc] ∨
      (Mblue.initial cfg).threads t = [.userCode .app] := by
    unfold Mblue.initial
    dsimp only
    split
    · exact .inl rfl
    · exact .inr rfl
  refine ⟨fun t ht ↦ ?_, fun t ↦ ?_, fun t d hd ↦ ?_⟩
  · unfold Mblue.initial
    dsimp only
    rw [if_pos ht]
    exact List.mem_cons_of_mem _ (List.mem_singleton_self _)
  · have hweight : weight (Cmd.wakes t) (Mblue.initial cfg).threads = 0 :=
      Finset.sum_eq_zero fun j _ ↦ by rcases hthreads j with h | h <;> rw [h] <;> rfl
    rw [hweight]
    rcases hthreads t with h | h <;> rw [h] <;> rfl
  · rcases hthreads t with h | h <;> rw [h] at hd
    · rw [List.mem_singleton.1 hd]
      rfl
    · cases hd

theorem of_run {ok : State ι σ → ι × Choice ι σ → Prop}
    (h : Run (fused cfg).step ok (Mblue.initial cfg) s) : Awake cfg s :=
  h.invariant (initial cfg) fun ha _ hstep ↦ ha.step hstep

/-! ### Tasks that sleep -/

/-- A pending `remove` finds a message. -/
theorem mq_ne_nil (h : Awake cfg s) (hc : s.threads i = .remove :: rest) :
    s.shared.mq i ≠ [] := by
  intro hnil
  have hwoken := h.woken i
  rw [hnil, hc, List.map_cons, List.sum_cons, Cmd.woken, List.length_nil] at hwoken
  omega

/-- **A task that sleeps has an empty queue**, when no thread is about to wake it up. -/
theorem mq_eq_nil (h : Awake cfg s) (hc : s.threads t = [.templateProc])
    (hsem : s.shared.msgSem t = 0) (hposts : ∀ j u rest, s.threads j ≠ .semPost u :: rest) :
    s.shared.mq t = [] := by
  have hweight : weight (Cmd.wakes t) s.threads = 0 := weight_eq_zero_iff.2 fun j d hd ↦ by
    cases d with
    | semPost u =>
      cases hj : s.threads j with
      | nil =>
        rw [hj] at hd
        cases hd
      | cons d' ds =>
        have hleading := h.leading j
        rw [hj] at hd hleading
        rcases List.mem_cons.1 hd with rfl | hd
        · exact absurd hj (hposts j u ds)
        · cases hleading _ hd
    | _ => rfl
  have hwoken := h.woken t
  rw [hweight, hsem, hc] at hwoken
  exact List.length_eq_zero_iff.1 hwoken

end Awake

end Steps

end Mblue
