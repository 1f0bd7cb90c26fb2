import Mathlib

/-!
# Postconditions of programs that can stop

A program `Except ε α` returns a value or stops with a reason. It **meets** a postcondition when
every value it returns has it and every reason it stops with is allowed (`Meets`). The rules follow
the program: a returned value, a stop, two programs in sequence (`Meets.bind`), a branch
(`Meets.ite`), and a weaker postcondition (`Meets.mono`).
A program that meets a postcondition under the allowance `allowed` never stops with anything else.
-/

universe u v

variable {ε : Type u} {α β : Type v} {allowed : ε → Prop} {P Q : α → Prop}

/-- What the program returns has `P`, and it stops for allowed reasons only. -/
def Meets (allowed : ε → Prop) (P : α → Prop) : Except ε α → Prop
  | .ok a => P a
  | .error e => allowed e

@[simp] theorem meets_ok {a : α} : Meets allowed P (.ok a) ↔ P a := Iff.rfl

@[simp] theorem meets_error {e : ε} : Meets allowed P (.error e : Except ε α) ↔ allowed e := Iff.rfl

@[simp] theorem meets_pure {a : α} : Meets allowed P (pure a) ↔ P a := Iff.rfl

@[simp] theorem meets_throw {e : ε} : Meets allowed P (throw e : Except ε α) ↔ allowed e := Iff.rfl

namespace Meets

variable {m : Except ε α}

theorem mono (h : Meets allowed P m) (hPQ : ∀ a, P a → Q a) : Meets allowed Q m := by
  cases m with
  | ok a => exact hPQ a h
  | error e => exact h

/-- **Sequencing.** -/
theorem bind {R : β → Prop} {f : α → Except ε β} (h : Meets allowed P m)
    (hf : ∀ a, P a → Meets allowed R (f a)) : Meets allowed R (m >>= f) := by
  cases m with
  | ok a => exact hf a h
  | error e => exact h

/-- A branch is taken with its condition known. -/
theorem ite {c : Prop} [Decidable c] {n : Except ε α} (hm : c → Meets allowed P m)
    (hn : ¬c → Meets allowed P n) : Meets allowed P (if c then m else n) := by
  split
  · next h => exact hm h
  · next h => exact hn h

/-- A branch that stops leaves its condition false for what follows. -/
theorem guard {c : Prop} [Decidable c] {e : ε} (he : c → allowed e)
    (hm : ¬c → Meets allowed P m) : Meets allowed P (if c then throw e else m) := ite he hm

end Meets
