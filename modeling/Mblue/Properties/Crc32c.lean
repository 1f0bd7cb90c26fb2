import Mblue.Library.ShiftRegister
import Mblue.Util.Crc

/-!
# The checksum is the CRC-32C

The table of `mblue_crc.c` holds the eight shifts of each byte (`crc32cTable_eq`), so that a round
of its loop is eight shifts of the register (`crcByte_eq`), and the loop computes the reflected
CRC-32C as it is defined on single bits (`crc32c`), for every buffer and every size.
-/

namespace Mblue

open ShiftRegister

/-! ### The bitwise checksum -/

/-- The polynomial of CRC-32C, reflected. -/
def crc32cPolynomial : BitVec 32 := 0x82F63B78

/-- The bits of a byte, the lowest first. -/
def byteBits (b : UInt8) : List Bool := (List.range 8).map b.toBitVec.getLsbD

/-- The reflected CRC-32C, bit by bit. -/
def crc32c (bytes : List UInt8) : BitVec 32 :=
  (bytes.flatMap byteBits).foldl (feed crc32cPolynomial) 0xFFFFFFFF ^^^ 0xFFFFFFFF

/-! ### The table -/

/-- **Every entry of the table** is its index, shifted eight times. -/
theorem crc32cTable_eq (i : Fin 256) :
    (crc32cTable.get i).toBitVec = (shift crc32cPolynomial)^[8] (BitVec.ofNat 32 i) := by
  revert i
  decide +kernel

/-! ### One byte -/

theorem length_byteBits (b : UInt8) : (byteBits b).length = 8 := by
  rw [byteBits, List.length_map, List.length_range]

theorem ofBits_byteBits (b : UInt8) : ofBits (byteBits b) = b.toBitVec.setWidth 32 := by
  refine BitVec.eq_of_getLsbD_eq fun i hi ↦ ?_
  rw [getLsbD_ofBits, BitVec.getLsbD_setWidth, decide_eq_true hi, Bool.true_and, Bool.true_and]
  rcases Nat.lt_or_ge i 8 with hlt | hge
  · simp [byteBits, hlt]
  · rw [List.getD_eq_default _ _ (by simpa [byteBits] using hge), BitVec.getLsbD_of_ge _ _ hge]

/-- **A round of the loop is eight shifts** of the register with the byte added. -/
theorem crcByte_eq (crcValue : UInt32) (data : UInt8) :
    (crcByte crcValue data).toBitVec =
      (byteBits data).foldl (feed crc32cPolynomial) crcValue.toBitVec := by
  let r : BitVec 32 := crcValue.toBitVec ^^^ data.toBitVec.setWidth 32
  have hindex : BitVec.ofNat 32 ((crcValue ^^^ data.toUInt32) &&& 0xFF).toNat = r &&& 0xFF := by
    show BitVec.ofNat 32 ((crcValue ^^^ data.toUInt32) &&& 0xFF).toBitVec.toNat = _
    rw [BitVec.ofNat_toNat, BitVec.setWidth_eq, UInt32.toBitVec_and, UInt32.toBitVec_xor,
      UInt8.toBitVec_toUInt32]
    rfl
  have hones : ∀ i < 8, (0xFF : BitVec 32).getLsbD i = true := by decide
  have hlow : ∀ i < 8, (r &&& 0xFF).getLsbD i = r.getLsbD i := fun i hi ↦ by
    rw [BitVec.getLsbD_and, hones i hi, Bool.and_true]
  have hdata : data.toBitVec.setWidth 32 >>> 8 = 0#32 := by
    refine BitVec.eq_of_getLsbD_eq fun i hi ↦ ?_
    rw [BitVec.getLsbD_ushiftRight, BitVec.getLsbD_setWidth,
      BitVec.getLsbD_of_ge data.toBitVec _ (Nat.le_add_right 8 i), Bool.and_false,
      BitVec.getLsbD_zero]
  have hmask : (r &&& 0xFF) >>> 8 = 0#32 := by
    rw [BitVec.ushiftRight_and_distrib]
    exact BitVec.and_zero
  have hsplit := iterate_shift_split crc32cPolynomial hlow hmask
  calc (crcByte crcValue data).toBitVec
      = (shift crc32cPolynomial)^[8] (r &&& 0xFF) ^^^ (crcValue.toBitVec >>> 8) := by
        rw [crcByte, UInt32.toBitVec_xor, crc32cTable_eq, hindex]
        rfl
    _ = (shift crc32cPolynomial)^[8] r := by
        rw [hsplit, BitVec.ushiftRight_xor_distrib, hdata, BitVec.xor_zero]
    _ = (byteBits data).foldl (feed crc32cPolynomial) crcValue.toBitVec := by
        have hlength : (byteBits data).length ≤ 32 := by
          rw [length_byteBits]
          decide
        rw [foldl_feed crc32cPolynomial _ hlength, ofBits_byteBits, length_byteBits]

/-! ### The buffer -/

/-- The loop feeds the bits of the bytes to the register. -/
theorem foldl_crcByte (bytes : List UInt8) (crcValue : UInt32) :
    (bytes.foldl crcByte crcValue).toBitVec =
      (bytes.flatMap byteBits).foldl (feed crc32cPolynomial) crcValue.toBitVec := by
  induction bytes generalizing crcValue with
  | nil => rfl
  | cons b bytes ih =>
    rw [List.foldl_cons, ih, crcByte_eq, List.flatMap_cons, List.foldl_append]

/-- **The table-driven checksum is the bitwise one.** -/
theorem calculateCrc32_eq (buffer : ℕ → UInt8) (size : UInt32) :
    (calculateCrc32 buffer size).toBitVec = crc32c ((List.range size.toNat).map buffer) := by
  rw [calculateCrc32, UInt32.toBitVec_xor, crcLoop_eq_foldl, foldl_crcByte,
    ← List.range_eq_range']
  rfl

end Mblue
