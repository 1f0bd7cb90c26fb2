import Mathlib

/-!
# Pools of reference-counted elements

A pool manager keeps a list of the free elements, a count of them, and a reference counter for each
element. The counter is decreased at every release and an element goes back to the list when its
counter reaches zero, where **a counter of zero stays zero**: an element that was handed out with a
counter of zero is released by its first release, just like one with a counter of one.

The manager does not know who uses an element. The users are counted outside it, in two groups:
`act a` counts those that carry `a` about (a queue it stands in, a function that works on it), and
`tab a` counts the tables that refer to it. `Sound` relates the two sides, and each operation has
one rule that says how the users change with it.

`Exact` is the same relation with equality: the counters are not larger than they have to be, so
that an element without users is free. **The rules `Sound.lose` and `Sound.retain` have no
counterpart for `Exact`**: a user who goes away without a release, and a reference nobody holds, are
the two ways to leak an element.

## What is proved here

* `Sound.lose`, `Sound.take`, `Sound.release`, `Sound.releaseEntry`, `Sound.share`, `Sound.retain`
  and the rules of the same names for `Exact`.
* `Sound.not_mem_free` — an element in use is not free.
* `Exact.mem_free`, `Exact.free_complete` — an element without users is free.
-/

/-- The manager of a pool. -/
structure PoolManager (α : Type*) where
  /-- The free elements, the next one to hand out first. -/
  free : List α
  /-- How many there are. -/
  count : ℕ
  /-- The reference counters. -/
  ref : α → ℕ

namespace PoolManager

variable {α : Type*} [DecidableEq α] (p : PoolManager α)

/-- All elements are free. -/
def full (free : List α) : PoolManager α := ⟨free, free.length, fun _ ↦ 0⟩

/-- Hand out the first free element, with a new counter. -/
def take (a : α) (rest : List α) (n : ℕ) : PoolManager α :=
  ⟨rest, p.count - 1, Function.update p.ref a n⟩

/-- One more reference to an element. -/
def retain (a : α) : PoolManager α := { p with ref := Function.update p.ref a (p.ref a + 1) }

/-- One reference less, and the element goes back when none is left. -/
def release (a : α) : PoolManager α :=
  if p.ref a - 1 = 0 then ⟨p.free ++ [a], p.count + 1, Function.update p.ref a (p.ref a - 1)⟩
  else { p with ref := Function.update p.ref a (p.ref a - 1) }

/-! ### Soundness -/

/-- No element is free while it is used, and its counter covers its users. -/
structure Sound (act tab : α → ℕ) : Prop where
  nodup : p.free.Nodup
  count_eq : p.count = p.free.length
  act_eq_zero : ∀ a ∈ p.free, act a = 0
  tab_eq_zero : ∀ a ∈ p.free, tab a = 0
  act_le_one : ∀ a, act a ≤ 1
  used_le : ∀ a, a ∉ p.free → act a + tab a ≤ max 1 (p.ref a)

/-- The counters are not larger than their users require. -/
def Exact (act tab : α → ℕ) : Prop := ∀ a, a ∉ p.free → act a + tab a = max 1 (p.ref a)

variable {p} {act tab : α → ℕ} {a : α} {rest : List α}

omit [DecidableEq α] in
theorem sound_full {l : List α} (h : l.Nodup) : (full l).Sound 0 0 where
  nodup := h
  count_eq := rfl
  act_eq_zero _ _ := rfl
  tab_eq_zero _ _ := rfl
  act_le_one _ := Nat.zero_le 1
  used_le _ _ := Nat.zero_le _

namespace Sound

omit [DecidableEq α] in
/-- **An element in use is not free.** -/
theorem not_mem_free (h : p.Sound act tab) (hused : 0 < act a + tab a) : a ∉ p.free := by
  intro ha
  have hact := h.act_eq_zero a ha
  have htab := h.tab_eq_zero a ha
  omega

/-- A user goes away without a release. -/
theorem lose (h : p.Sound (act + Pi.single a 1) tab) : p.Sound act tab := by
  have hle : ∀ b, act b ≤ (act + Pi.single a 1 : α → ℕ) b := fun b ↦ Nat.le_add_right _ _
  refine ⟨h.nodup, h.count_eq, fun b hb ↦ ?_, h.tab_eq_zero, fun b ↦ (hle b).trans (h.act_le_one b),
    fun b hb ↦ ?_⟩
  · exact Nat.eq_zero_of_le_zero ((hle b).trans (h.act_eq_zero b hb).le)
  · exact (Nat.add_le_add_right (hle b) _).trans (h.used_le b hb)

/-- A free element is handed out to one user. -/
theorem take (h : p.Sound act tab) (hfree : p.free = a :: rest) (n : ℕ) :
    (p.take a rest n).Sound (act + Pi.single a 1) tab := by
  have hnodup : a ∉ rest ∧ rest.Nodup := List.nodup_cons.1 (hfree ▸ h.nodup)
  have hmem : ∀ b ∈ rest, b ∈ p.free := fun b hb ↦ hfree ▸ List.mem_cons_of_mem a hb
  have ha : a ∈ p.free := hfree ▸ List.mem_cons_self
  refine ⟨hnodup.2, ?_, fun b hb ↦ ?_, fun b hb ↦ h.tab_eq_zero b (hmem b hb), fun b ↦ ?_,
    fun b hb ↦ ?_⟩
  · show p.count - 1 = rest.length
    rw [h.count_eq, hfree, List.length_cons, Nat.add_sub_cancel]
  · have hne : b ≠ a := fun heq ↦ hnodup.1 (heq ▸ hb)
    rw [Pi.add_apply, Pi.single_eq_of_ne hne, h.act_eq_zero b (hmem b hb), Nat.add_zero]
  · by_cases hb : b = a
    · rw [hb, Pi.add_apply, Pi.single_eq_same, h.act_eq_zero a ha]
    · rw [Pi.add_apply, Pi.single_eq_of_ne hb]
      exact h.act_le_one b
  · by_cases hba : b = a
    · rw [hba, Pi.add_apply, Pi.single_eq_same, h.act_eq_zero a ha, h.tab_eq_zero a ha]
      exact Nat.le_max_left _ _
    · have hfree' : b ∉ p.free := by
        rw [hfree, List.mem_cons, not_or]
        exact ⟨hba, hb⟩
      show _ ≤ max 1 (Function.update p.ref a n b)
      rw [Function.update_of_ne hba, Pi.add_apply, Pi.single_eq_of_ne hba]
      exact h.used_le b hfree'

/-- The rule behind both releases: one use of `a` less. -/
theorem release_of_le {act' tab' : α → ℕ} (h : p.Sound act tab) (hact : ∀ b, act' b ≤ act b)
    (htab : ∀ b, tab' b ≤ tab b) (hone : act' a + tab' a + 1 = act a + tab a) :
    (p.release a).Sound act' tab' := by
  have ha : a ∉ p.free := h.not_mem_free (by omega)
  have hused := h.used_le a ha
  unfold PoolManager.release
  split
  · next hzero =>
    have hlast : act' a = 0 ∧ tab' a = 0 := by omega
    refine ⟨?_, ?_, fun b hb ↦ ?_, fun b hb ↦ ?_, fun b ↦ (hact b).trans (h.act_le_one b),
      fun b hb ↦ ?_⟩
    · exact List.Nodup.append h.nodup (List.nodup_singleton a)
        (List.disjoint_singleton.2 ha)
    · simp only [List.length_append, List.length_singleton, h.count_eq]
    · rcases List.mem_append.1 hb with hb | hb
      · exact Nat.eq_zero_of_le_zero ((hact b).trans (h.act_eq_zero b hb).le)
      · exact List.mem_singleton.1 hb ▸ hlast.1
    · rcases List.mem_append.1 hb with hb | hb
      · exact Nat.eq_zero_of_le_zero ((htab b).trans (h.tab_eq_zero b hb).le)
      · exact List.mem_singleton.1 hb ▸ hlast.2
    · rw [List.mem_append, List.mem_singleton, not_or] at hb
      show _ ≤ max 1 (Function.update p.ref a _ b)
      rw [Function.update_of_ne hb.2]
      exact (Nat.add_le_add (hact b) (htab b)).trans (h.used_le b hb.1)
  · next hmore =>
    refine ⟨h.nodup, h.count_eq, fun b hb ↦ ?_, fun b hb ↦ ?_,
      fun b ↦ (hact b).trans (h.act_le_one b), fun b hb ↦ ?_⟩
    · exact Nat.eq_zero_of_le_zero ((hact b).trans (h.act_eq_zero b hb).le)
    · exact Nat.eq_zero_of_le_zero ((htab b).trans (h.tab_eq_zero b hb).le)
    · show _ ≤ max 1 (Function.update p.ref a _ b)
      by_cases hba : b = a
      · rw [hba, Function.update_self]
        omega
      · rw [Function.update_of_ne hba]
        exact (Nat.add_le_add (hact b) (htab b)).trans (h.used_le b hb)

/-- A user releases the element it carries. -/
theorem release (h : p.Sound (act + Pi.single a 1) tab) : (p.release a).Sound act tab :=
  h.release_of_le (fun _ ↦ Nat.le_add_right _ _) (fun _ ↦ le_rfl) (by
    rw [Pi.add_apply, Pi.single_eq_same]
    omega)

/-- An element is released for a table entry that goes away. -/
theorem releaseEntry (h : p.Sound act (tab + Pi.single a 1)) : (p.release a).Sound act tab :=
  h.release_of_le (fun _ ↦ le_rfl) (fun _ ↦ Nat.le_add_right _ _) (by
    rw [Pi.add_apply, Pi.single_eq_same]
    omega)

/-- A reference is taken for which nobody is added. -/
theorem retain (h : p.Sound act tab) (a : α) : (p.retain a).Sound act tab := by
  refine ⟨h.nodup, h.count_eq, h.act_eq_zero, h.tab_eq_zero, h.act_le_one, fun b hb ↦ ?_⟩
  refine (h.used_le b hb).trans (max_le_max le_rfl ?_)
  show p.ref b ≤ Function.update p.ref a _ b
  by_cases hba : b = a
  · rw [hba, Function.update_self]
    exact Nat.le_succ _
  · rw [Function.update_of_ne hba]

/-- A reference is taken for a new table entry. The element must have a counter to add to. -/
theorem share (h : p.Sound act tab) (hfree : a ∉ p.free) (hpos : 0 < p.ref a) :
    (p.retain a).Sound act (tab + Pi.single a 1) := by
  refine ⟨h.nodup, h.count_eq, h.act_eq_zero, fun b hb ↦ ?_, h.act_le_one, fun b hb ↦ ?_⟩
  · have hne : b ≠ a := fun heq ↦ hfree (heq ▸ hb)
    rw [Pi.add_apply, Pi.single_eq_of_ne hne]
    exact h.tab_eq_zero b hb
  · have hused := h.used_le b hb
    show _ ≤ max 1 (Function.update p.ref a _ b)
    by_cases hba : b = a
    · rw [hba] at hused ⊢
      rw [Function.update_self, Pi.add_apply, Pi.single_eq_same]
      omega
    · rw [Function.update_of_ne hba, Pi.add_apply, Pi.single_eq_of_ne hba]
      exact hused

end Sound

/-! ### Exactness -/

namespace Exact

/-- A free element is handed out to one user, with a counter of zero or one. -/
theorem take (h : p.Exact act tab) (hs : p.Sound act tab) (hfree : p.free = a :: rest) {n : ℕ}
    (hn : n ≤ 1) : (p.take a rest n).Exact (act + Pi.single a 1) tab := by
  intro b hb
  have ha : a ∈ p.free := hfree ▸ List.mem_cons_self
  show _ = max 1 (Function.update p.ref a n b)
  by_cases hba : b = a
  · rw [hba, Pi.add_apply, Pi.single_eq_same, hs.act_eq_zero a ha, hs.tab_eq_zero a ha,
      Function.update_self, max_eq_left hn]
  · have hfree' : b ∉ p.free := by
      rw [hfree, List.mem_cons, not_or]
      exact ⟨hba, hb⟩
    rw [Function.update_of_ne hba, Pi.add_apply, Pi.single_eq_of_ne hba]
    exact h b hfree'

/-- The rule behind both releases: one use of `a` less, and no other change. -/
theorem release_of_eq {act' tab' : α → ℕ} (h : p.Exact act tab) (hs : p.Sound act tab)
    (hoff : ∀ b, b ≠ a → act' b + tab' b = act b + tab b)
    (hone : act' a + tab' a + 1 = act a + tab a) : (p.release a).Exact act' tab' := by
  have ha : a ∉ p.free := hs.not_mem_free (by omega)
  have hused := h a ha
  intro b hb
  unfold PoolManager.release at hb ⊢
  split at hb
  · next hzero =>
    rw [if_pos hzero]
    rw [List.mem_append, List.mem_singleton, not_or] at hb
    show _ = max 1 (Function.update p.ref a _ b)
    rw [Function.update_of_ne hb.2, hoff b hb.2]
    exact h b hb.1
  · next hmore =>
    rw [if_neg hmore]
    show _ = max 1 (Function.update p.ref a _ b)
    by_cases hba : b = a
    · rw [hba, Function.update_self]
      omega
    · rw [Function.update_of_ne hba, hoff b hba]
      exact h b hb

/-- A user releases the element it carries. -/
theorem release (h : p.Exact (act + Pi.single a 1) tab) (hs : p.Sound (act + Pi.single a 1) tab) :
    (p.release a).Exact act tab :=
  h.release_of_eq hs (fun b hb ↦ by rw [Pi.add_apply, Pi.single_eq_of_ne hb, Nat.add_zero]) (by
    rw [Pi.add_apply, Pi.single_eq_same]
    omega)

/-- An element is released for a table entry that goes away. -/
theorem releaseEntry (h : p.Exact act (tab + Pi.single a 1))
    (hs : p.Sound act (tab + Pi.single a 1)) : (p.release a).Exact act tab :=
  h.release_of_eq hs (fun b hb ↦ by rw [Pi.add_apply, Pi.single_eq_of_ne hb, Nat.add_zero]) (by
    rw [Pi.add_apply, Pi.single_eq_same]
    omega)

/-- A reference is taken for a new table entry. -/
theorem share (h : p.Exact act tab) (hpos : 0 < p.ref a) :
    (p.retain a).Exact act (tab + Pi.single a 1) := by
  intro b hb
  have hused := h b hb
  show _ = max 1 (Function.update p.ref a _ b)
  by_cases hba : b = a
  · rw [hba] at hused ⊢
    rw [Function.update_self, Pi.add_apply, Pi.single_eq_same]
    omega
  · rw [Function.update_of_ne hba, Pi.add_apply, Pi.single_eq_of_ne hba]
    exact hused

omit [DecidableEq α] in
/-- **An element without users is free.** -/
theorem mem_free (h : p.Exact act tab) (hact : act a = 0) (htab : tab a = 0) : a ∈ p.free := by
  by_contra hfree
  have hused := h a hfree
  omega

omit [DecidableEq α] in
/-- Without any users the whole pool is free. -/
theorem free_complete [Fintype α] (h : p.Exact act tab) (hs : p.Sound act tab)
    (hact : ∀ a, act a = 0) (htab : ∀ a, tab a = 0) :
    (∀ a, a ∈ p.free) ∧ p.count = Fintype.card α := by
  have hall : ∀ a, a ∈ p.free := fun a ↦ h.mem_free (hact a) (htab a)
  classical
  refine ⟨hall, ?_⟩
  rw [hs.count_eq, ← List.toFinset_card_of_nodup hs.nodup, ← Finset.card_univ]
  congr 1
  exact Finset.eq_univ_of_forall fun a ↦ List.mem_toFinset.2 (hall a)

end Exact

end PoolManager
