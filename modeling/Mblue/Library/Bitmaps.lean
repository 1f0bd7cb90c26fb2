import Mathlib

/-!
# Bitmaps of pairwise disjoint masks

`orAll masks` is the bitwise OR of a list of masks of any width. When no two masks of the list have
a bit in common, the OR determines what taking one mask out does: exactly the bits of that mask go
(`orAll_and_not`). Without disjointness this fails, since a bit may stand for two masks at once.
-/

variable {w : ℕ}

/-- The bitwise OR of a list of masks. -/
def orAll (masks : List (BitVec w)) : BitVec w := masks.foldr (· ||| ·) 0

/-- Two masks without a common bit. -/
def DisjointMasks (a b : BitVec w) : Prop := a &&& b = 0

instance instDecidableDisjointMasks (a b : BitVec w) : Decidable (DisjointMasks a b) :=
  inferInstanceAs (Decidable (a &&& b = 0))

theorem DisjointMasks.symm {a b : BitVec w} (h : DisjointMasks a b) : DisjointMasks b a :=
  (BitVec.and_comm b a).trans h

/-- A mask that is disjoint from itself is empty. -/
theorem DisjointMasks.eq_zero {a : BitVec w} (h : DisjointMasks a a) : a = 0 :=
  BitVec.and_self.symm.trans h

@[simp] theorem orAll_nil : orAll ([] : List (BitVec w)) = 0 := rfl

@[simp] theorem orAll_cons (m : BitVec w) (ms : List (BitVec w)) :
    orAll (m :: ms) = m ||| orAll ms := rfl

@[simp] theorem orAll_append (ms ns : List (BitVec w)) :
    orAll (ms ++ ns) = orAll ms ||| orAll ns := by
  induction ms with
  | nil => simp
  | cons m ms ih => rw [List.cons_append, orAll_cons, orAll_cons, ih, BitVec.or_assoc]

/-- The order of the masks does not matter. -/
theorem List.Perm.orAll_eq {ms ns : List (BitVec w)} (h : ms.Perm ns) : orAll ms = orAll ns := by
  induction h with
  | nil => rfl
  | cons m _ ih => rw [orAll_cons, orAll_cons, ih]
  | swap m n l => rw [orAll_cons, orAll_cons, orAll_cons, orAll_cons, ← BitVec.or_assoc,
      BitVec.or_comm n m, BitVec.or_assoc]
  | trans _ _ ih₁ ih₂ => exact ih₁.trans ih₂

/-- A mask misses the OR of a list exactly when it misses every mask of the list. -/
theorem orAll_and_eq_zero_iff {ms : List (BitVec w)} {t : BitVec w} :
    orAll ms &&& t = 0 ↔ ∀ m ∈ ms, DisjointMasks m t := by
  induction ms with
  | nil => simp
  | cons m ms ih =>
    have hor : orAll (m :: ms) &&& t = 0 ↔ m &&& t = 0 ∧ orAll ms &&& t = 0 := by
      rw [orAll_cons, BitVec.and_or_distrib_right]
      exact BitVec.or_eq_zero_iff
    rw [hor, ih, List.forall_mem_cons]
    rfl

/-- Clearing the bits of a mask that a bitmap misses changes nothing. -/
theorem and_not_eq_self {a t : BitVec w} (h : DisjointMasks a t) : a &&& ~~~t = a := by
  ext i hi
  have hbit : (a &&& t)[i] = (0 : BitVec w)[i] := by rw [show a &&& t = 0 from h]
  simp only [BitVec.getElem_and, BitVec.getElem_not] at hbit ⊢
  revert hbit
  cases a[i] <;> cases t[i] <;> simp

/-- **Taking one mask out of a family of disjoint masks clears exactly its bits.** -/
theorem orAll_and_not {ms rest : List (BitVec w)} {t : BitVec w} (h : ms.Perm (t :: rest))
    (hdisj : ∀ m ∈ rest, DisjointMasks m t) : orAll ms &&& ~~~t = orAll rest := by
  calc orAll ms &&& ~~~t
      = (t ||| orAll rest) &&& ~~~t := by rw [h.orAll_eq, orAll_cons]
    _ = orAll rest &&& ~~~t := by
      rw [BitVec.and_or_distrib_right, BitVec.and_not_self]
      exact BitVec.zero_or
    _ = orAll rest := and_not_eq_self (orAll_and_eq_zero_iff.2 hdisj)
