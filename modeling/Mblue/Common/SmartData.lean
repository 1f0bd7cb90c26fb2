import Mathlib

/-!
# Smart data and error codes

`SMART_DATA` is a `void *` whose two low bits say what it is: `0` a pointer to a heap block
(`PB_PAYLOAD`), `1` an integer, `2` and `3` pointers to static and heap memory. The macros of
`mblue_macro.h` are embedded on 32-bit words, the word size of the target the build files select
(`linux_m32.cmake`), with `size_t` shifts read as what they are there: logical shifts of an unsigned
word.

`mblue_errcode` is the enumeration of `mblue_errcode.h`; `toInt` gives the value C assigns to each
enumerator.

The one theorem of weight is `toInt_getInteger_makeInteger_iff`: `GET_INTEGER` undoes `MAKE_INTEGER`
on exactly the integers that are not negative, because the shift back is not arithmetic. Every
error code but `MBLUE_OK` is negative.
-/

namespace Mblue

/-- A machine word, `size_t` and `void *` of the 32-bit target. -/
abbrev Word := BitVec 32

/-! ### Error codes -/

/-- `mblue_errcode`. -/
inductive MblueErrcode
  | remoteCallPending
  | waitAck
  | errReset
  | errStateNeedDelay
  | errUnknown
  | errUnknownAtResp
  | errPpp
  | errDns
  | errSocket
  | errInvalidParameter
  | errPbEncode
  | errPbDecode
  | errTimeout
  | errCorruptMem
  | errNomem
  | errNoelement
  | errSysbus
  | errSemaphore
  | errStringFmt
  | errLogLevel
  | elementExit
  | ok
  deriving DecidableEq, Repr

/-- The `int` an enumerator stands for: the list starts at `-64` and counts up, the last two are
given explicitly. -/
def MblueErrcode.toInt : MblueErrcode → ℤ
  | remoteCallPending => -64
  | waitAck => -63
  | errReset => -62
  | errStateNeedDelay => -61
  | errUnknown => -60
  | errUnknownAtResp => -59
  | errPpp => -58
  | errDns => -57
  | errSocket => -56
  | errInvalidParameter => -55
  | errPbEncode => -54
  | errPbDecode => -53
  | errTimeout => -52
  | errCorruptMem => -51
  | errNomem => -50
  | errNoelement => -49
  | errSysbus => -48
  | errSemaphore => -47
  | errStringFmt => -46
  | errLogLevel => -45
  | elementExit => -1
  | ok => 0

/-- Every error code lies in the range the tag encoding has room for. -/
theorem MblueErrcode.toInt_mem_range (rc : MblueErrcode) : -2 ^ 29 ≤ rc.toInt ∧ rc.toInt < 2 ^ 29 := by
  cases rc <;> decide

/-- `MBLUE_OK` is the only error code that is not negative. -/
theorem MblueErrcode.toInt_nonneg_iff (rc : MblueErrcode) : 0 ≤ rc.toInt ↔ rc = ok := by
  cases rc <;> decide

/-! ### The macros -/

/-- `PB_PAYLOAD(x)`: a pointer to a heap block. -/
def pbPayload (x : Word) : Bool := x != 0 && x &&& 3 == 0

/-- `INTEGER_P(x)`: a tagged integer. -/
def integerP (x : Word) : Bool := x &&& 3 == 1

/-- `GET_INTEGER(x)`: a logical shift of the unsigned word. -/
def getInteger (x : Word) : Word := x >>> 2

/-- `MAKE_INTEGER(x)` of an `int`. -/
def makeInteger (v : ℤ) : Word := (BitVec.ofInt 32 v <<< 2) ||| 1

/-- `GET_POINTER(x)`: the word without its tag. -/
def getPointer (x : Word) : Word := (x >>> 2) <<< 2

/-- `POINTER_S(x)`: a tagged pointer to static memory. -/
def pointerS (x : Word) : Bool := getPointer x != 0 && x &&& 3 == 2

/-- `MAKE_POINTER_S(x)`. -/
def makePointerS (x : Word) : Word := x ||| 2

/-- `(mblue_errcode)w`: an `int` read off an unsigned word. -/
def toErrcode (w : Word) : ℤ := w.toInt

/-- The two low bits of a word are its residue modulo four. -/
theorem toNat_and_three (x : Word) : (x &&& 3).toNat = x.toNat % 4 := by
  rw [BitVec.toNat_and]
  exact Nat.and_two_pow_sub_one_eq_mod x.toNat 2

theorem pbPayload_iff (x : Word) : pbPayload x = true ↔ x ≠ 0 ∧ x.toNat % 4 = 0 := by
  unfold pbPayload
  rw [Bool.and_eq_true, bne_iff_ne, beq_iff_eq, ← BitVec.toNat_inj (x := x &&& 3), toNat_and_three]
  rfl

theorem toNat_getPointer (x : Word) : (getPointer x).toNat = x.toNat / 4 * 4 := by
  have hlt := x.isLt
  unfold getPointer
  rw [BitVec.toNat_shiftLeft, BitVec.toNat_ushiftRight, Nat.shiftLeft_eq,
    Nat.shiftRight_eq_div_pow]
  omega

theorem toNat_makePointerS {a : Word} (h : a.toNat % 4 = 0) :
    (makePointerS a).toNat = a.toNat + 2 := by
  have hlt := a.isLt
  have hdisj : a &&& 2#32 = 0#32 := by
    have hlow : a &&& 3#32 = 0#32 := by
      rw [← BitVec.toNat_inj]
      exact (toNat_and_three a).trans h
    calc a &&& 2#32 = (a &&& 3#32) &&& 2#32 := by rw [BitVec.and_assoc]; rfl
      _ = 0#32 := by rw [hlow, BitVec.zero_and]
  unfold makePointerS
  rw [show (2 : Word) = 2#32 from rfl, ← BitVec.add_eq_or_of_and_eq_zero _ _ hdisj,
    BitVec.toNat_add]
  simp only [BitVec.toNat_ofNat]
  omega

/-- `GET_POINTER` undoes `MAKE_POINTER_S` on the address of a heap block. -/
theorem getPointer_makePointerS {a : Word} (h : pbPayload a = true) :
    getPointer (makePointerS a) = a := by
  have hlow := ((pbPayload_iff a).1 h).2
  rw [← BitVec.toNat_inj, toNat_getPointer, toNat_makePointerS hlow]
  omega

/-- The address of a heap block, tagged as static, is taken for a pointer to static memory. -/
theorem pointerS_makePointerS {a : Word} (h : pbPayload a = true) :
    pointerS (makePointerS a) = true := by
  obtain ⟨hne, hlow⟩ := (pbPayload_iff a).1 h
  have htag : makePointerS a &&& 3 = 2 := by
    rw [← BitVec.toNat_inj, toNat_and_three, toNat_makePointerS hlow]
    change (a.toNat + 2) % 4 = 2
    omega
  rw [pointerS, getPointer_makePointerS h, htag, Bool.and_eq_true, bne_iff_ne]
  exact ⟨hne, rfl⟩

/-- The tagged word, as a number: the value's low 30 bits above the tag. -/
theorem toNat_makeInteger (v : ℤ) :
    (makeInteger v).toNat = 4 * (BitVec.ofInt 32 v).toNat % 2 ^ 32 + 1 := by
  have hdisj : (BitVec.ofInt 32 v <<< 2) &&& 1#32 = 0#32 := by
    ext i hi
    by_cases h : i < 2 <;> simp [BitVec.getElem_shiftLeft, h]
    omega
  unfold makeInteger
  rw [show (1 : Word) = 1#32 from rfl, ← BitVec.add_eq_or_of_and_eq_zero _ _ hdisj,
    BitVec.toNat_add, BitVec.toNat_shiftLeft, Nat.shiftLeft_eq]
  simp only [BitVec.toNat_ofNat]
  omega

theorem toNat_ofInt (v : ℤ) : ((BitVec.ofInt 32 v).toNat : ℤ) = v % 2 ^ 32 := by
  rw [BitVec.toNat_ofInt]
  omega

/-- What `GET_INTEGER` makes of a tagged integer: its value modulo `2 ^ 30`, never negative. -/
theorem toInt_getInteger_makeInteger (v : ℤ) :
    toErrcode (getInteger (makeInteger v)) = v % 2 ^ 30 := by
  have hm := toNat_makeInteger v
  have hv := toNat_ofInt v
  unfold toErrcode getInteger
  rw [BitVec.toInt_eq_toNat_cond, BitVec.toNat_ushiftRight, Nat.shiftRight_eq_div_pow]
  split <;> omega

/-- A word read through `GET_INTEGER` is never a negative error code. -/
theorem toErrcode_getInteger_nonneg (w : Word) : 0 ≤ toErrcode (getInteger w) := by
  have hw := w.isLt
  unfold toErrcode getInteger
  rw [BitVec.toInt_eq_toNat_cond, BitVec.toNat_ushiftRight, Nat.shiftRight_eq_div_pow]
  split <;> omega

/-- **The tag round trip holds of exactly the integers that are not negative.** -/
theorem toInt_getInteger_makeInteger_iff {v : ℤ} (hlo : -2 ^ 29 ≤ v) (hhi : v < 2 ^ 29) :
    toErrcode (getInteger (makeInteger v)) = v ↔ 0 ≤ v := by
  rw [toInt_getInteger_makeInteger]
  omega

end Mblue
