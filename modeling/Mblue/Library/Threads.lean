import Mathlib
import Mblue.Library.Runs

/-!
# Threads that execute lists of commands

An interleaving machine in its plainest form. Threads `i : ι` share a state `σ`; what a thread has
left to do is a list of commands, and one atomic step of thread `i` executes its first command,
which changes the shared state and is replaced by the (possibly empty) list of commands it expands
to. A function call is a command that expands to the body's commands, a loop is a command that
expands to its body followed by itself.

The lists are data, so what a thread is about to do can be read off a state, and **counting** is
the main proof device: give every command a weight, sum the weights over all threads, and a step
changes the sum by the weight of what was executed against the weight of what replaced it
(`weight_expand`). A resource that only moves between threads, queues and tables is then followed
by adding up such sums.

## What is proved here

* `Machine.step_eq_some_iff` — what a step of the machine is.
* `AtHead.cmd` — a condition on steps is used at the command that is executed.
* `sum_update`, `weight_head`, `weight_push`, `weight_expand` and `weight_trade` — the accounting
  equations.
* `mentions_expand` — the accounting equation for a thing commands mention.
* `forall_expand` — a property of all pending commands, one step on.
* `filterMap_expand` — what one thread's commands mention, in their order, one step on.
-/

/-- What a snapshot of an interleaving machine holds: the shared state and, for each thread, the
commands it still has to execute. -/
structure Snapshot (ι σ C : Type*) where
  /-- The state all threads share. -/
  shared : σ
  /-- The commands each thread has left, the next one first. -/
  threads : ι → List C

/-- The atomic commands of an interleaving machine. The label `L` resolves what the environment
decides: whether a call fails, what user code does next. -/
structure Machine (ι σ C L : Type*) where
  /-- Execute one command of a thread: the new shared state and the commands it expands to, or
  `none` when the command is blocked or has no defined result. -/
  run : ι → C → L → σ → Option (σ × List C)

namespace Machine

variable {ι σ C L : Type*} [DecidableEq ι] (M : Machine ι σ C L)

/-- One step: thread `l.1` executes its first command under the environment's choice `l.2`. -/
def step (s : Snapshot ι σ C) (l : ι × L) : Option (Snapshot ι σ C) :=
  match s.threads l.1 with
  | [] => none
  | c :: rest =>
    (M.run l.1 c l.2 s.shared).map fun r ↦
      ⟨r.1, Function.update s.threads l.1 (r.2 ++ rest)⟩

theorem step_eq_some_iff {s t : Snapshot ι σ C} {i : ι} {a : L} :
    M.step s (i, a) = some t ↔ ∃ c rest sh cs, s.threads i = c :: rest ∧
      M.run i c a s.shared = some (sh, cs) ∧
      t = ⟨sh, Function.update s.threads i (cs ++ rest)⟩ := by
  unfold step
  constructor
  · intro h
    split at h
    · exact absurd h (by simp)
    · rename_i c rest hc
      obtain ⟨⟨sh, cs⟩, hr, rfl⟩ := Option.map_eq_some_iff.1 h
      exact ⟨c, rest, sh, cs, hc, hr, rfl⟩
  · rintro ⟨c, rest, sh, cs, hc, hr, rfl⟩
    simp only [hc, hr, Option.map_some]

end Machine

/-! ### Conditions on steps -/

section AtHead

variable {ι σ C L : Type*}

/-- The condition on a step that speaks of the command it executes: the thread, the command, the
environment's choice and the shared state. -/
def AtHead (p : ι → C → L → σ → Prop) (s : Snapshot ι σ C) (l : ι × L) : Prop :=
  match s.threads l.1 with
  | [] => True
  | c :: _ => p l.1 c l.2 s.shared

theorem AtHead.cmd {p : ι → C → L → σ → Prop} {s : Snapshot ι σ C} {i : ι} {a : L} {c : C}
    {rest : List C} (h : AtHead p s (i, a)) (hc : s.threads i = c :: rest) : p i c a s.shared := by
  unfold AtHead at h
  rwa [hc] at h

/-- A condition that the command meets. -/
theorem AtHead.of_head {p : ι → C → L → σ → Prop} {s : Snapshot ι σ C} {i : ι} {a : L} {c : C}
    {rest : List C} (hc : s.threads i = c :: rest) (h : p i c a s.shared) : AtHead p s (i, a) := by
  unfold AtHead
  rwa [hc]

theorem AtHead.of_cmd {p : ι → C → L → σ → Prop} {s : Snapshot ι σ C} {i : ι} {a : L}
    (h : ∀ c rest, s.threads i = c :: rest → p i c a s.shared) : AtHead p s (i, a) := by
  unfold AtHead
  split
  · trivial
  · next c rest hc => exact h c rest hc

theorem AtHead.mono {p q : ι → C → L → σ → Prop} {s : Snapshot ι σ C} {l : ι × L}
    (h : AtHead p s l) (hle : ∀ {i c a sh}, p i c a sh → q i c a sh) : AtHead q s l := by
  unfold AtHead at h ⊢
  split
  · trivial
  · next c rest hc =>
    rw [hc] at h
    exact hle h

instance (p : ι → C → L → σ → Prop) [∀ i c a sh, Decidable (p i c a sh)] (s : Snapshot ι σ C)
    (l : ι × L) : Decidable (AtHead p s l) :=
  match h : s.threads l.1 with
  | [] => .isTrue (by rw [AtHead, h]; trivial)
  | c :: _ => decidable_of_iff (p l.1 c l.2 s.shared) (by rw [AtHead, h])

end AtHead

/-! ### Accounting -/

section Accounting

variable {ι α C : Type*} [Fintype ι] [DecidableEq ι]

/-- Replacing one entry of a family changes a sum over the family by that entry's share. -/
theorem sum_update (g : ι → α) (f : α → ℕ) (i : ι) (b : α) :
    ∑ j, f (Function.update g i b j) + f (g i) = ∑ j, f (g j) + f b := by
  have hoff : ∀ j ∈ Finset.univ.erase i, f (Function.update g i b j) = f (g j) := fun j hj ↦ by
    rw [Function.update_of_ne (Finset.ne_of_mem_erase hj)]
  rw [← Finset.add_sum_erase _ _ (Finset.mem_univ i),
    ← Finset.add_sum_erase _ (fun j ↦ f (g j)) (Finset.mem_univ i), Finset.sum_congr rfl hoff,
    Function.update_self]
  omega

omit [DecidableEq ι] in
/-- An entry's share is at most the sum. -/
theorem le_sum (g : ι → α) (f : α → ℕ) (i : ι) : f (g i) ≤ ∑ j, f (g j) :=
  Finset.single_le_sum (f := fun j ↦ f (g j)) (fun _ _ ↦ Nat.zero_le _) (Finset.mem_univ i)

/-- The weight of all the commands that are pending anywhere. -/
def weight (w : C → ℕ) (th : ι → List C) : ℕ :=
  ∑ i, ((th i).map w).sum

/-- The first command of a thread and the commands that remain. -/
theorem weight_head {th : ι → List C} {i : ι} {c : C} {rest : List C} (w : C → ℕ)
    (h : th i = c :: rest) : weight w th = weight w (Function.update th i rest) + w c := by
  have hsum := sum_update th (fun l ↦ (l.map w).sum) i rest
  simp only [h, List.map_cons, List.sum_cons] at hsum
  unfold weight
  omega

/-- Commands put in front of those that remain. -/
theorem weight_push (th : ι → List C) (i : ι) (cs rest : List C) (w : C → ℕ) :
    weight w (Function.update th i (cs ++ rest)) =
      weight w (Function.update th i rest) + (cs.map w).sum := by
  have hsum := sum_update th (fun l ↦ (l.map w).sum) i (cs ++ rest)
  have hrest := sum_update th (fun l ↦ (l.map w).sum) i rest
  simp only [List.map_append, List.sum_append] at hsum
  unfold weight
  omega

/-- **The accounting equation of a step**: the executed command's weight is traded for the weight
of what it expands to. -/
theorem weight_expand {th : ι → List C} {i : ι} {c : C} {rest : List C} (w : C → ℕ)
    (h : th i = c :: rest) (cs : List C) :
    weight w (Function.update th i (cs ++ rest)) + w c = weight w th + (cs.map w).sum := by
  rw [weight_push, weight_head w h]
  omega

/-- The accounting equation when the step also changes what commands weigh, but not those that
remain. -/
theorem weight_trade {th : ι → List C} {i : ι} {c : C} {rest : List C} {w w' : C → ℕ}
    (h : th i = c :: rest) (cs : List C)
    (hsame : ∀ j, ∀ d ∈ Function.update th i rest j, w' d = w d) :
    weight w' (Function.update th i (cs ++ rest)) + w c = weight w th + (cs.map w').sum := by
  have hrest : weight w' (Function.update th i rest) = weight w (Function.update th i rest) :=
    Finset.sum_congr rfl fun j _ ↦ congrArg List.sum (List.map_congr_left (hsame j))
  rw [weight_push, weight_head w h, hrest]
  omega

omit [DecidableEq ι] in
/-- A pending command's weight is counted. -/
theorem le_weight {th : ι → List C} {i : ι} {c : C} (w : C → ℕ) (h : c ∈ th i) :
    w c ≤ weight w th :=
  (List.le_sum_of_mem (List.mem_map_of_mem h)).trans
    (le_sum th (fun l ↦ (l.map w).sum) i)

omit [DecidableEq ι] in
/-- No weight at all means that no pending command weighs anything. -/
theorem weight_eq_zero_iff {th : ι → List C} {w : C → ℕ} :
    weight w th = 0 ↔ ∀ i, ∀ c ∈ th i, w c = 0 := by
  unfold weight
  rw [Finset.sum_eq_zero_iff]
  constructor
  · intro h i c hc
    have hi := h i (Finset.mem_univ i)
    exact List.sum_eq_zero_iff_forall_eq_nat.1 hi _ (List.mem_map_of_mem hc)
  · intro h i _
    refine List.sum_eq_zero_iff_forall_eq_nat.2 fun x hx ↦ ?_
    obtain ⟨c, hc, rfl⟩ := List.mem_map.1 hx
    exact h i c hc

omit [DecidableEq ι] in
/-- A positive weight comes from some pending command. -/
theorem exists_of_weight_pos {th : ι → List C} {w : C → ℕ} (h : 0 < weight w th) :
    ∃ i, ∃ c ∈ th i, 0 < w c := by
  by_contra hne
  refine absurd (weight_eq_zero_iff.2 fun i c hc ↦ ?_) (Nat.pos_iff_ne_zero.1 h)
  by_contra hpos
  exact hne ⟨i, c, hc, Nat.pos_of_ne_zero hpos⟩

end Accounting

/-! ### What commands mention -/

section Mentions

variable {ι C β : Type*} [Fintype ι] [DecidableEq ι] [DecidableEq β] (f : C → Option β)

/-- How often pending commands mention a thing: `f` says what a command mentions. -/
def mentions (th : ι → List C) (b : β) : ℕ := weight (fun c ↦ ([c].filterMap f).count b) th

omit [Fintype ι] [DecidableEq ι] in
theorem sum_mentioned (b : β) (cs : List C) :
    (cs.map fun c ↦ ([c].filterMap f).count b).sum = (cs.filterMap f).count b := by
  induction cs with
  | nil => rfl
  | cons c cs ih =>
    rw [List.map_cons, List.sum_cons, ih, ← List.count_append, ← List.filterMap_append]
    rfl

variable {th : ι → List C} {i j : ι} {c d : C} {rest : List C} {b : β}

/-- The accounting equation for what is mentioned. -/
theorem mentions_expand (h : th i = c :: rest) (cs : List C) (b : β) :
    mentions f (Function.update th i (cs ++ rest)) b + ([c].filterMap f).count b =
      mentions f th b + (cs.filterMap f).count b := by
  rw [← sum_mentioned f b cs]
  exact weight_expand _ h cs

omit [DecidableEq ι] in
/-- What is mentioned depends only on the pending commands. -/
theorem mentions_congr {f' : C → Option β} (h : ∀ j, ∀ d ∈ th j, f' d = f d) :
    mentions f' th b = mentions f th b := by
  refine Finset.sum_congr rfl fun j _ ↦ ?_
  refine congrArg List.sum (List.map_congr_left fun d hd ↦ ?_)
  rw [List.filterMap_cons, List.filterMap_cons, h j d hd]
  rfl

/-- The accounting equation when the step also changes what commands mention, but not for those
that remain. -/
theorem mentions_trade {f' : C → Option β} (h : th i = c :: rest) (cs : List C) (b : β)
    (hsame : ∀ j, ∀ d ∈ Function.update th i rest j, f' d = f d) :
    mentions f' (Function.update th i (cs ++ rest)) b + ([c].filterMap f).count b =
      mentions f th b + (cs.filterMap f').count b := by
  have hpush := weight_push th i cs rest fun c ↦ ([c].filterMap f').count b
  have hhead := weight_head (fun c ↦ ([c].filterMap f).count b) h
  have hrest : mentions f' (Function.update th i rest) b =
      mentions f (Function.update th i rest) b := mentions_congr f hsame
  rw [sum_mentioned f' b cs] at hpush
  unfold mentions at hrest ⊢
  omega

variable {f}

omit [DecidableEq ι] in
theorem mentions_pos (hd : d ∈ th j) (hf : f d = some b) : 0 < mentions f th b := by
  have hle := le_weight (fun c ↦ ([c].filterMap f).count b) hd
  rw [List.filterMap_cons_some hf, List.filterMap_nil, List.count_singleton_self] at hle
  exact hle

omit [DecidableEq ι] in
theorem exists_of_mentions_pos (h : 0 < mentions f th b) : ∃ j, ∃ d ∈ th j, f d = some b := by
  obtain ⟨j, d, hd, hpos⟩ := exists_of_weight_pos h
  have hmem := List.count_pos_iff.1 hpos
  obtain ⟨d', hd', hf⟩ := List.mem_filterMap.1 hmem
  exact ⟨j, d, hd, List.mem_singleton.1 hd' ▸ hf⟩

omit [DecidableEq ι] in
/-- What mentions more commands counts more. -/
theorem mentions_mono {f' : C → Option β} (h : ∀ c, f c = some b → f' c = some b) :
    mentions f th b ≤ mentions f' th b := by
  refine Finset.sum_le_sum fun j _ ↦ List.sum_le_sum fun c _ ↦ ?_
  cases hf : f c with
  | none => simp [hf]
  | some b' =>
    rw [List.filterMap_cons_some hf, List.filterMap_nil]
    by_cases hb : b' = b
    · subst hb
      rw [List.filterMap_cons_some (h c hf), List.filterMap_nil]
    · rw [List.count_eq_zero.2 fun hmem ↦ hb (List.mem_singleton.1 hmem).symm]
      exact Nat.zero_le _

omit [DecidableEq ι] in
/-- Nothing pending mentions a thing that is not mentioned. -/
theorem mentions_eq_zero (h : ∀ j, ∀ d ∈ th j, f d ≠ some b) : mentions f th b = 0 := by
  refine Nat.eq_zero_of_not_pos fun hpos ↦ ?_
  obtain ⟨j, d, hd, hf⟩ := exists_of_mentions_pos hpos
  exact h j d hd hf

/-- The first command of a thread and one that remains mention a thing twice. -/
theorem two_le_mentions (h : th i = c :: rest) (hf : f c = some b)
    (hd : d ∈ Function.update th i rest j) (hd' : f d = some b) : 2 ≤ mentions f th b := by
  have hhead := weight_head (fun c ↦ ([c].filterMap f).count b) h
  have hpos := mentions_pos hd hd'
  have hone : ([c].filterMap f).count b = 1 := by
    rw [List.filterMap_cons_some hf, List.filterMap_nil, List.count_singleton_self]
  unfold mentions at hpos ⊢
  omega

end Mentions

/-! ### The commands that remain -/

section Remaining

variable {ι C : Type*} [DecidableEq ι] {th : ι → List C} {i j : ι} {c d : C} {rest cs : List C}

/-- A command pending after a step is new, or one of those that remain. -/
theorem mem_expand_iff : d ∈ Function.update th i (cs ++ rest) j ↔
    (j = i ∧ d ∈ cs) ∨ d ∈ Function.update th i rest j := by
  by_cases hj : j = i
  · subst hj
    rw [Function.update_self, Function.update_self, List.mem_append]
    simp only [true_and]
  · rw [Function.update_of_ne hj, Function.update_of_ne hj]
    simp only [hj, false_and, false_or]

/-- A command that remains was pending. -/
theorem mem_of_mem_rest (h : th i = c :: rest) (hd : d ∈ Function.update th i rest j) :
    d ∈ th j := by
  by_cases hj : j = i
  · subst hj
    rw [Function.update_self] at hd
    rw [h]
    exact List.mem_cons_of_mem c hd
  · rwa [Function.update_of_ne hj] at hd

/-- A command pending before a step is the one executed, or it remains. -/
theorem mem_cases (h : th i = c :: rest) (hd : d ∈ th j) :
    (j = i ∧ d = c) ∨ d ∈ Function.update th i rest j := by
  by_cases hj : j = i
  · subst hj
    rw [h, List.mem_cons] at hd
    rw [Function.update_self]
    exact hd.imp (fun h ↦ ⟨rfl, h⟩) id
  · rw [Function.update_of_ne hj]
    exact .inr hd

/-- A property of all pending commands after a step: the new ones have it, and those that remain
keep it. -/
theorem forall_expand {P : ι → C → Prop} (hnew : ∀ d ∈ cs, P i d)
    (hkeep : ∀ j, ∀ d ∈ Function.update th i rest j, P j d) :
    ∀ j, ∀ d ∈ Function.update th i (cs ++ rest) j, P j d := by
  intro j d hd
  rcases mem_expand_iff.1 hd with ⟨hj, hd⟩ | hd
  · exact hj ▸ hnew d hd
  · exact hkeep j d hd

variable {β : Type*} {f : C → Option β}

/-- What a thread's commands mention after a step: the new ones come first, and those that remain
mention what they did. -/
theorem filterMap_expand (f' : C → Option β) (cs : List C)
    (hsame : ∀ d ∈ Function.update th i rest j, f' d = f d) :
    (Function.update th i (cs ++ rest) j).filterMap f' =
      (if j = i then cs.filterMap f' else []) ++ (Function.update th i rest j).filterMap f := by
  rw [← List.filterMap_congr hsame]
  by_cases hj : j = i
  · subst hj
    rw [Function.update_self, Function.update_self, if_pos rfl, List.filterMap_append]
  · rw [Function.update_of_ne hj, Function.update_of_ne hj, if_neg hj, List.nil_append]

theorem filterMap_head (h : th i = c :: rest) :
    (th j).filterMap f =
      (if j = i then [c].filterMap f else []) ++ (Function.update th i rest j).filterMap f := by
  rw [← filterMap_expand f [c] fun _ _ ↦ rfl, List.singleton_append, ← h, Function.update_eq_self]

end Remaining
