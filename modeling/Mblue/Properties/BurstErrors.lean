import Mblue.Library.ErrorDetection
import Mblue.Properties.Crc32c

/-!
# What the checksum protects against

Two buffers of the same size have different checksums if they differ

* only inside a window of 32 bits, wherever it begins (a burst), or
* in an odd number of bits.

The code knows nothing of this: it looks bytes up in a table. Each round of its loop is eight shifts
of a register with feedback (`foldl_crcByte`), and what such registers notice is said in
`Library/ErrorDetection.lean`.
-/

namespace Mblue

open ShiftRegister

/-- The bits of a buffer, those of a byte from the lowest. -/
def bufferBits (buffer : ℕ → UInt8) (size : UInt32) : List Bool :=
  ((List.range size.toNat).map buffer).flatMap byteBits

/-- An error that is detected: a burst in a window of 32 bits, or an odd number of wrong bits. -/
inductive Detectable (xs ys : List Bool) : Prop
  | burst {u x y v} (hxs : xs = u ++ x ++ v) (hys : ys = u ++ y ++ v)
      (hlength : x.length = y.length) (hle : x.length ≤ 32) (hne : x ≠ y)
  | odd (h : Odd (distance xs ys))

theorem length_bufferBits (buffer : ℕ → UInt8) (size : UInt32) :
    (bufferBits buffer size).length = 8 * size.toNat := by
  have hbits : (fun b ↦ (byteBits b).length) ∘ buffer = fun _ ↦ 8 :=
    funext fun i ↦ length_byteBits (buffer i)
  rw [bufferBits, List.length_flatMap, List.map_map, hbits, List.map_const', List.sum_replicate,
    List.length_range, smul_eq_mul, Nat.mul_comm]

/-- The loop takes in the bits of the buffer. -/
theorem calculateCrc32_toBitVec (buffer : ℕ → UInt8) (size : UInt32) :
    (calculateCrc32 buffer size).toBitVec =
      (bufferBits buffer size).foldl (feed crc32cPolynomial) 0xFFFFFFFF ^^^ 0xFFFFFFFF := by
  rw [calculateCrc32, UInt32.toBitVec_xor, crcLoop_eq_foldl, foldl_crcByte, ← List.range_eq_range']
  rfl

/-- **Errors are detected**: the checksums of two buffers differ if the buffers differ in a burst of
at most 32 bits, or in an odd number of bits. -/
theorem calculateCrc32_ne {a b : ℕ → UInt8} {size : UInt32}
    (h : Detectable (bufferBits a size) (bufferBits b size)) :
    calculateCrc32 a size ≠ calculateCrc32 b size := by
  intro heq
  have hregister := congrArg UInt32.toBitVec heq
  rw [calculateCrc32_toBitVec, calculateCrc32_toBitVec, BitVec.xor_left_inj] at hregister
  cases h with
  | burst hxs hys hlength hle hne =>
    rw [hxs, hys] at hregister
    exact foldl_feed_ne_of_burst (by decide) _ hlength hle hne hregister
  | odd hodd =>
    have hparity : parity crc32cPolynomial = 1 := by decide
    have hlength : (bufferBits a size).length = (bufferBits b size).length := by
      rw [length_bufferBits, length_bufferBits]
    exact foldl_feed_ne_of_odd hparity (by decide) _ hlength hodd hregister

/-- Two bytes, of which six bits across their border are wrong. -/
theorem calculateCrc32_ne_across :
    calculateCrc32 (fun i ↦ if i = 0 then 0xE0 else 0x03) 2 ≠
      calculateCrc32 (fun i ↦ if i = 0 then 0x20 else 0x04) 2 :=
  calculateCrc32_ne (.burst
    (u := List.replicate 5 false) (x := [true, true, true, true, true, false])
    (y := [true, false, false, false, false, true]) (v := List.replicate 5 false)
    (by decide) (by decide) rfl (by decide) (by decide))

end Mblue
