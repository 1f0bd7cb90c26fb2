import Mathlib

/-!
# Horner's rule

The value of a polynomial, computed from the highest coefficient on: multiply what there is by the
base, add the next coefficient. This is how rolling hashes are computed. `eval` is the computation
and `eval_map_eq_sum` its value; `eval_map_add` and `eval_map_mul` say that the value is linear in the
coefficients.
-/

namespace Horner

variable {α R : Type*} [CommSemiring R] (b : R)

/-- The value of a polynomial at `b`, from its coefficients, the highest first. -/
def eval (cs : List R) : R := cs.foldl (fun h c ↦ b * h + c) 0

@[simp] theorem eval_nil : eval b [] = 0 := rfl

theorem eval_concat (cs : List R) (c : R) : eval b (cs ++ [c]) = b * eval b cs + c := by
  rw [eval, List.foldl_append]
  rfl

theorem eval_eq_sum_range (cs : List R) : eval b cs =
    ∑ i ∈ Finset.range cs.length, cs.getD i 0 * b ^ (cs.length - 1 - i) := by
  induction cs using List.reverseRecOn with
  | nil => rfl
  | append_singleton cs c ih =>
    have hbefore : ∀ i ∈ Finset.range cs.length,
        (cs ++ [c]).getD i 0 * b ^ (cs.length - i) =
          b * (cs.getD i 0 * b ^ (cs.length - 1 - i)) := by
      intro i hi
      have hlt : i < cs.length := Finset.mem_range.1 hi
      have hpow : cs.length - i = cs.length - 1 - i + 1 := by omega
      rw [List.getD_append _ _ _ _ hlt, hpow, pow_succ]
      ring
    rw [eval_concat, ih, List.length_append, List.length_singleton, Finset.sum_range_succ,
      Nat.add_sub_cancel, Finset.sum_congr rfl hbefore, ← Finset.mul_sum, Nat.sub_self, pow_zero,
      List.getD_append_right _ _ _ _ le_rfl, Nat.sub_self, List.getD_cons_zero, mul_one]

/-- **What is computed**: the sum of the coefficients times the powers of the base. -/
theorem eval_map_eq_sum (f : α → R) (cs : List α) :
    eval b (cs.map f) = ∑ i : Fin cs.length, f cs[i] * b ^ (cs.length - 1 - i) := by
  rw [eval_eq_sum_range, List.length_map, Finset.sum_range]
  refine Finset.sum_congr rfl fun i _ ↦ ?_
  rw [List.getD_eq_getElem _ _ (by rw [List.length_map]; exact i.isLt), List.getElem_map]
  rfl

theorem eval_map_add (f g : α → R) (cs : List α) :
    eval b (cs.map fun c ↦ f c + g c) = eval b (cs.map f) + eval b (cs.map g) := by
  induction cs using List.reverseRecOn with
  | nil => simp
  | append_singleton cs c ih =>
    simp only [List.map_append, List.map_singleton, eval_concat, ih]
    ring

theorem eval_map_mul (a : R) (f : α → R) (cs : List α) :
    eval b (cs.map fun c ↦ a * f c) = a * eval b (cs.map f) := by
  induction cs using List.reverseRecOn with
  | nil => simp
  | append_singleton cs c ih =>
    simp only [List.map_append, List.map_singleton, eval_concat, ih]
    ring

end Horner
