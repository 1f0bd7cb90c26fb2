import Mblue.Library.ShiftRegister

/-!
# What a shift register with feedback detects

A register that has taken in a message is a checksum of it, and an error in the message goes
undetected when the register does not notice. Two kinds of errors are always noticed.

* **Bursts**: bits that differ only inside a window no longer than the register. If the highest bit of
  the polynomial is set a shift loses nothing (`shift_injective`), so that the register differs after
  the window, and from then on (`foldl_feed_ne_of_burst`).
* **An odd number of wrong bits**: if the polynomial has an odd number of ones, a shift keeps the
  parity of the register, which therefore is that of all bits taken in (`parity_foldl_feed`,
  `foldl_feed_ne_of_odd`).
-/

namespace ShiftRegister

variable {w : ℕ} {poly : BitVec w}

/-! ### Bursts -/

/-- **A shift loses nothing**, if the highest bit of the polynomial is set. -/
theorem shift_injective (htop : poly.getLsbD (w - 1) = true) : Function.Injective (shift poly) := by
  have hzero : ∀ d, shift poly d = 0#w → d = 0#w := by
    intro d hd
    -- the bit that falls out would be seen in the highest bit
    have hlow : d.getLsbD 0 = false := by
      by_contra hne
      rw [shift, if_pos (Bool.eq_true_of_not_eq_false hne)] at hd
      have hbit := congrArg (BitVec.getLsbD · (w - 1)) hd
      have hlt := BitVec.lt_of_getLsbD htop
      have hhigh : d.getLsbD (1 + (w - 1)) = false := BitVec.getLsbD_of_ge _ _ (by omega)
      simp only [BitVec.getLsbD_xor, BitVec.getLsbD_ushiftRight, htop, hhigh,
        BitVec.getLsbD_zero] at hbit
      cases hbit
    rw [shift, hlow, if_neg Bool.false_ne_true] at hd
    refine BitVec.eq_of_getLsbD_eq fun i _ ↦ ?_
    cases i with
    | zero => rw [hlow, BitVec.getLsbD_zero]
    | succ i =>
      have hbit := congrArg (BitVec.getLsbD · i) hd
      simp only [BitVec.getLsbD_ushiftRight, BitVec.getLsbD_zero] at hbit
      rw [Nat.add_comm i 1, hbit, BitVec.getLsbD_zero]
  intro r s h
  have hxor : r ^^^ s = 0#w := hzero _ (by rw [shift_xor, h, BitVec.xor_self])
  exact BitVec.xor_eq_zero_iff.1 hxor

theorem foldl_feed_injective (htop : poly.getLsbD (w - 1) = true) (bs : List Bool) :
    Function.Injective fun r ↦ bs.foldl (feed poly) r := by
  induction bs with
  | nil => exact fun _ _ h ↦ h
  | cons b bs ih =>
    intro r s h
    have hfeed : feed poly r b = feed poly s b := ih h
    exact (BitVec.xor_left_inj _).1 (shift_injective htop hfeed)

theorem ofBits_injective {bs bs' : List Bool} (hlength : bs.length = bs'.length)
    (hle : bs.length ≤ w) (h : (ofBits bs : BitVec w) = ofBits bs') : bs = bs' := by
  refine List.ext_getElem hlength fun i hi hi' ↦ ?_
  have hbit := congrArg (BitVec.getLsbD · i) h
  simp only [getLsbD_ofBits, decide_eq_true (hi.trans_le hle), Bool.true_and,
    List.getD_eq_getElem _ _ hi, List.getD_eq_getElem _ _ hi'] at hbit
  exact hbit

/-- **A burst is noticed**: messages that differ, but only inside a window that is no longer than the
register, leave different registers. -/
theorem foldl_feed_ne_of_burst (htop : poly.getLsbD (w - 1) = true) (r : BitVec w)
    {u x y v : List Bool} (hlength : x.length = y.length) (hle : x.length ≤ w) (hne : x ≠ y) :
    (u ++ x ++ v).foldl (feed poly) r ≠ (u ++ y ++ v).foldl (feed poly) r := by
  intro h
  rw [List.foldl_append, List.foldl_append, List.foldl_append, List.foldl_append] at h
  let before := u.foldl (feed poly) r
  have hwindow : x.foldl (feed poly) before = y.foldl (feed poly) before :=
    foldl_feed_injective htop v h
  rw [foldl_feed poly before hle, foldl_feed poly before (hlength ▸ hle), ← hlength] at hwindow
  have hbits := (shift_injective htop).iterate x.length hwindow
  exact hne (ofBits_injective hlength hle ((BitVec.xor_right_inj _).1 hbits))

/-! ### Parity -/

/-- A bit as a number modulo two. -/
def bit (b : Bool) : ZMod 2 := if b then 1 else 0

theorem bit_xor (a b : Bool) : bit (a ^^ b) = bit a + bit b := by
  cases a <;> cases b <;> rfl

theorem bit_ne (a b : Bool) : bit (a != b) = bit a + bit b := by
  cases a <;> cases b <;> rfl

/-- The parity of the ones in a register. -/
def parity (r : BitVec w) : ZMod 2 := ∑ i ∈ Finset.range w, bit (r.getLsbD i)

theorem parity_xor (r s : BitVec w) : parity (r ^^^ s) = parity r + parity s := by
  rw [parity, parity, parity, ← Finset.sum_add_distrib]
  exact Finset.sum_congr rfl fun i _ ↦ by rw [BitVec.getLsbD_xor, bit_xor]

theorem parity_ushiftRight (r : BitVec w) : parity (r >>> 1) + bit (r.getLsbD 0) = parity r := by
  have hlast : bit (r.getLsbD w) = 0 := by
    rw [BitVec.getLsbD_of_ge _ _ le_rfl]
    rfl
  calc parity (r >>> 1) + bit (r.getLsbD 0)
      = ∑ i ∈ Finset.range w, bit (r.getLsbD (i + 1)) + bit (r.getLsbD 0) := by
        refine congrArg (· + _) (Finset.sum_congr rfl fun i _ ↦ ?_)
        rw [BitVec.getLsbD_ushiftRight, Nat.add_comm]
    _ = ∑ i ∈ Finset.range (w + 1), bit (r.getLsbD i) :=
        (Finset.sum_range_succ' (fun i ↦ bit (r.getLsbD i)) w).symm
    _ = parity r := by rw [Finset.sum_range_succ, hlast, add_zero, parity]

/-- A shift keeps the parity, if the polynomial has an odd number of ones. -/
theorem parity_shift (hodd : parity poly = 1) (r : BitVec w) :
    parity (shift poly r) = parity r := by
  rw [← parity_ushiftRight r, shift]
  cases r.getLsbD 0 with
  | false => rw [if_neg Bool.false_ne_true, bit, if_neg Bool.false_ne_true, add_zero]
  | true => rw [if_pos rfl, parity_xor, hodd, bit, if_pos rfl]

theorem parity_feed (hodd : parity poly = 1) (hw : 0 < w) (r : BitVec w) (b : Bool) :
    parity (feed poly r b) = parity r + bit b := by
  have hbit : parity ((BitVec.ofBool b).setWidth w) = bit b := by
    rw [parity, Finset.sum_eq_single_of_mem 0 (Finset.mem_range.2 hw)]
    · rw [BitVec.getLsbD_setWidth, decide_eq_true hw, Bool.true_and]
      cases b <;> rfl
    · intro i _ hi
      rw [BitVec.getLsbD_setWidth, BitVec.getLsbD_of_ge _ _ (Nat.one_le_iff_ne_zero.2 hi),
        Bool.and_false]
      rfl
  rw [feed, parity_shift hodd, parity_xor, hbit]

/-- **The parity of the register** is that of the bits that were taken in. -/
theorem parity_foldl_feed (hodd : parity poly = 1) (hw : 0 < w) (r : BitVec w) (bs : List Bool) :
    parity (bs.foldl (feed poly) r) = parity r + (bs.map bit).sum := by
  induction bs generalizing r with
  | nil => exact (add_zero _).symm
  | cons b bs ih => rw [List.foldl_cons, ih, parity_feed hodd hw, List.map_cons, List.sum_cons,
      add_assoc]

/-- The number of places at which two messages differ. -/
def distance (xs ys : List Bool) : ℕ := (xs.zip ys).countP fun p ↦ p.1 != p.2

theorem sum_add_sum {xs ys : List Bool} (hlength : xs.length = ys.length) :
    (xs.map bit).sum + (ys.map bit).sum = (distance xs ys : ZMod 2) := by
  induction xs generalizing ys with
  | nil =>
    cases ys with
    | nil => rfl
    | cons y ys => cases hlength
  | cons x xs ih =>
    cases ys with
    | nil => cases hlength
    | cons y ys =>
      have hone : ((if (x != y) = true then 1 else 0 : ℕ) : ZMod 2) = bit (x != y) := by
        cases x <;> cases y <;> rfl
      rw [distance, List.zip_cons_cons, List.countP_cons, Nat.cast_add, hone, bit_ne, ← distance,
        ← ih (Nat.succ.inj hlength), List.map_cons, List.map_cons, List.sum_cons, List.sum_cons]
      ring

/-- **An odd number of wrong bits is noticed.** -/
theorem foldl_feed_ne_of_odd (hodd : parity poly = 1) (hw : 0 < w) (r : BitVec w)
    {xs ys : List Bool} (hlength : xs.length = ys.length) (hne : Odd (distance xs ys)) :
    xs.foldl (feed poly) r ≠ ys.foldl (feed poly) r := by
  intro h
  have hparity := congrArg parity h
  rw [parity_foldl_feed hodd hw, parity_foldl_feed hodd hw] at hparity
  have hsum := sum_add_sum hlength
  rw [add_left_cancel hparity, CharTwo.add_self_eq_zero] at hsum
  exact Nat.not_even_iff_odd.2 hne (ZMod.natCast_eq_zero_iff_even.1 hsum.symm)

end ShiftRegister
