import Mathlib

/-!
# Shift registers with feedback

The register of a reflected cyclic redundancy check: it shifts to the right, and when a one falls
out the polynomial is added to what is left. A message is taken in bit by bit, each bit added to the
lowest bit of the register before the shift (`feed`).

A shift is linear over exclusive or (`shift_xor`), and bits that have not reached the lower end only
move (`iterate_shift_of_low`). Both together are what every implementation by table rests on: `n`
shifts are the shifts of the `n` low bits, added to the rest of the register moved down
(`iterate_shift_split`).

## What is proved here

* `shift_xor`, `iterate_shift_xor` — linearity.
* `iterate_shift_split` — the step by table.
* `foldl_feed` — to take in bits one by one is to add them all and then shift.
-/

namespace ShiftRegister

variable {w : ℕ} (poly : BitVec w)

/-- One shift to the right; when a one falls out the polynomial is added. -/
def shift (r : BitVec w) : BitVec w :=
  if r.getLsbD 0 then (r >>> 1) ^^^ poly else r >>> 1

/-- Take in one bit of the message. -/
def feed (r : BitVec w) (b : Bool) : BitVec w :=
  shift poly (r ^^^ (BitVec.ofBool b).setWidth w)

/-! ### Linearity -/

theorem shift_xor (r s : BitVec w) : shift poly (r ^^^ s) = shift poly r ^^^ shift poly s := by
  unfold shift
  rw [BitVec.getLsbD_xor, BitVec.ushiftRight_xor_distrib]
  cases r.getLsbD 0 <;> cases s.getLsbD 0
  · rfl
  · exact BitVec.xor_assoc _ _ _
  · show (r >>> 1 ^^^ s >>> 1) ^^^ poly = (r >>> 1 ^^^ poly) ^^^ s >>> 1
    rw [BitVec.xor_assoc, BitVec.xor_comm (s >>> 1) poly, ← BitVec.xor_assoc]
  · show r >>> 1 ^^^ s >>> 1 = (r >>> 1 ^^^ poly) ^^^ (s >>> 1 ^^^ poly)
    rw [BitVec.xor_comm (s >>> 1) poly, BitVec.xor_assoc, ← BitVec.xor_assoc poly, BitVec.xor_self,
      BitVec.zero_xor]

theorem iterate_shift_xor (n : ℕ) (r s : BitVec w) :
    (shift poly)^[n] (r ^^^ s) = (shift poly)^[n] r ^^^ (shift poly)^[n] s := by
  induction n generalizing r s with
  | zero => rfl
  | succ n ih => rw [Function.iterate_succ_apply, shift_xor, ih]; rfl

/-! ### Steps by table -/

/-- Bits that do not fall out only move. -/
theorem iterate_shift_of_low {n : ℕ} {r : BitVec w} (h : ∀ i < n, r.getLsbD i = false) :
    (shift poly)^[n] r = r >>> n := by
  induction n with
  | zero => rw [Function.iterate_zero_apply, BitVec.ushiftRight_zero]
  | succ n ih =>
    have hbit : (r >>> n).getLsbD 0 = false := by
      rw [BitVec.getLsbD_ushiftRight, Nat.add_zero]
      exact h n n.lt_succ_self
    rw [Function.iterate_succ_apply', ih fun i hi ↦ h i (hi.trans n.lt_succ_self), shift, hbit,
      if_neg Bool.false_ne_true, ← BitVec.shiftRight_add]

/-- **`n` shifts by table**: those of the `n` low bits, added to the other bits moved down. -/
theorem iterate_shift_split {n : ℕ} {low r : BitVec w}
    (h : ∀ i < n, low.getLsbD i = r.getLsbD i) (hlow : low >>> n = 0#w) :
    (shift poly)^[n] r = (shift poly)^[n] low ^^^ (r >>> n) := by
  have hsplit : r = low ^^^ (low ^^^ r) := by
    rw [← BitVec.xor_assoc, BitVec.xor_self, BitVec.zero_xor]
  have hhigh : ∀ i < n, (low ^^^ r).getLsbD i = false := fun i hi ↦ by
    rw [BitVec.getLsbD_xor, h i hi, Bool.xor_self]
  calc (shift poly)^[n] r
      = (shift poly)^[n] low ^^^ (shift poly)^[n] (low ^^^ r) := by
        rw [← iterate_shift_xor, ← hsplit]
    _ = (shift poly)^[n] low ^^^ (r >>> n) := by
        rw [iterate_shift_of_low poly hhigh, BitVec.ushiftRight_xor_distrib, hlow, BitVec.zero_xor]

/-! ### Bits and words -/

/-- The word with the given bits, the lowest first. -/
def ofBits : List Bool → BitVec w
  | [] => 0#w
  | b :: bs => (BitVec.ofBool b).setWidth w ^^^ (ofBits bs <<< 1)

theorem getLsbD_ofBits (bs : List Bool) (i : ℕ) :
    (ofBits bs : BitVec w).getLsbD i = (decide (i < w) && bs.getD i false) := by
  induction bs generalizing i with
  | nil => simp [ofBits]
  | cons b bs ih =>
    rw [ofBits, BitVec.getLsbD_xor, BitVec.getLsbD_setWidth, BitVec.getLsbD_shiftLeft]
    cases i with
    | zero => cases b <;> simp
    | succ i =>
      have hone : (BitVec.ofBool b).getLsbD (i + 1) = false :=
        BitVec.getLsbD_of_ge _ _ (Nat.le_add_left 1 i)
      rw [Nat.add_sub_cancel, ih, hone, List.getD_cons_succ]
      by_cases hi : i + 1 < w
      · simp [hi, Nat.lt_of_succ_lt hi]
      · simp [hi]

theorem shift_shiftLeft {r : BitVec w} (h : r.getLsbD (w - 1) = false) :
    shift poly (r <<< 1) = r := by
  have hbit : (r <<< 1).getLsbD 0 = false := by
    rw [BitVec.getLsbD_shiftLeft, decide_eq_true Nat.zero_lt_one, Bool.not_true, Bool.and_false,
      Bool.false_and]
  rw [shift, hbit, if_neg Bool.false_ne_true]
  refine BitVec.eq_of_getLsbD_eq fun i hi ↦ ?_
  rw [BitVec.getLsbD_ushiftRight, BitVec.getLsbD_shiftLeft, Nat.add_sub_cancel_left]
  rcases Nat.lt_or_ge (1 + i) w with hlt | hge
  · rw [decide_eq_true hlt, decide_eq_false (by omega : ¬1 + i < 1), Bool.not_false,
      Bool.true_and, Bool.true_and]
  · have htop : i = w - 1 := by omega
    rw [decide_eq_false (by omega : ¬1 + i < w), Bool.false_and, Bool.false_and, htop, h]

/-- **Bit by bit**: the bits are added to the register, then it is shifted. -/
theorem foldl_feed (r : BitVec w) {bs : List Bool} (h : bs.length ≤ w) :
    bs.foldl (feed poly) r = (shift poly)^[bs.length] (r ^^^ ofBits bs) := by
  induction bs generalizing r with
  | nil => simp [ofBits]
  | cons b bs ih =>
    have hlength : bs.length < w := h
    have htop : (ofBits bs : BitVec w).getLsbD (w - 1) = false := by
      rw [getLsbD_ofBits, List.getD_eq_default _ _ (by omega), Bool.and_false]
    rw [List.foldl_cons, ih _ hlength.le, List.length_cons, Function.iterate_succ_apply, ofBits,
      ← BitVec.xor_assoc, shift_xor, shift_shiftLeft poly htop]
    rfl

end ShiftRegister
