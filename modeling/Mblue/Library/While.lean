import Mathlib

/-!
# Loops

A loop that tests a condition and executes a body until the test fails. It need not end, so it is
run with fuel and has no result when the fuel is used up. `run_eq_iterate` is the rule for a loop
whose state after `n` rounds is known: it ends after the first `n` for which the test fails, with any
fuel above `n`.
-/

namespace While

variable {α : Type*} (test : α → Bool) (body : α → α)

/-- Run a loop; `none` when the fuel is used up. -/
def run : ℕ → α → Option α
  | 0, _ => none
  | fuel + 1, s => if test s then run fuel (body s) else some s

variable {test body}

/-- **The loop ends** after as many rounds as the test holds. -/
theorem run_eq_iterate {n fuel : ℕ} {s : α} (hbefore : ∀ k < n, test (body^[k] s) = true)
    (hafter : test (body^[n] s) = false) (hfuel : n < fuel) :
    run test body fuel s = some (body^[n] s) := by
  induction n generalizing s fuel with
  | zero =>
    obtain ⟨fuel, rfl⟩ := Nat.exists_eq_add_of_lt hfuel
    rw [Function.iterate_zero_apply] at hafter ⊢
    rw [run, hafter, if_neg Bool.false_ne_true]
  | succ n ih =>
    obtain ⟨fuel, rfl⟩ := Nat.exists_eq_add_of_lt hfuel
    have hfirst : test s = true := hbefore 0 n.succ_pos
    rw [run, hfirst, if_pos rfl, Function.iterate_succ_apply]
    exact ih (fun k hk ↦ hbefore (k + 1) (Nat.succ_lt_succ hk)) hafter (by omega)

end While
