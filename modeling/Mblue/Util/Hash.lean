import Mathlib

/-!
# The hashes of a string

`mblue_hash.c`: the same hash is computed of a string that ends with a zero byte (`sdbm_hash`) and of
a buffer of known length (`sdbm_mem`). The first reads its bytes as `char`, which is signed on the
build's target, so a byte from 128 on is taken as a negative number; the second reads them as
`uint8_t`.

A string is the memory from its pointer on, a list of bytes; a hash that reads past the end of the
list is `none`.
-/

namespace Mblue

/-- A `char`, promoted to `int` and converted to `uint32_t`. -/
def charToUint32 (c : UInt8) : UInt32 := c.toInt8.toInt32.toUInt32

/-- `c + (hash << 6) + (hash << 16) - hash`. -/
def sdbmStep (hash c : UInt32) : UInt32 := c + (hash <<< 6) + (hash <<< 16) - hash

/-- The loop of `sdbm_hash`. -/
def sdbmHashLoop (hash : UInt32) : List UInt8 → Option UInt32
  | [] => none
  | c :: str => if c = 0 then some hash else sdbmHashLoop (sdbmStep hash (charToUint32 c)) str

/-- `sdbm_hash`. -/
def sdbmHash (str : List UInt8) : Option UInt32 := (sdbmHashLoop 0 str).map (· &&& 0x7FFFFFFF)

/-- The loop of `sdbm_mem`; `len` is what `len--` counts down. -/
def sdbmMemLoop (hash : UInt32) : List UInt8 → ℕ → Option UInt32
  | _, 0 => some hash
  | [], _ + 1 => none
  | c :: str, len + 1 => sdbmMemLoop (sdbmStep hash c.toUInt32) str len

/-- `sdbm_mem`. -/
def sdbmMem (str : List UInt8) (len : ℕ) : Option UInt32 :=
  (sdbmMemLoop 0 str len).map (· &&& 0x7FFFFFFF)

/-! ### What a round does -/

/-- `hash = 65599*hash + c`, as the comment says. -/
theorem toNat_sdbmStep (hash c : UInt32) :
    (sdbmStep hash c).toNat = (65599 * hash.toNat + c.toNat) % 2 ^ 32 := by
  have hsix : (hash <<< 6).toNat = hash.toNat * 64 % 2 ^ 32 := by
    rw [UInt32.toNat_shiftLeft, Nat.shiftLeft_eq]
    rfl
  have hsixteen : (hash <<< 16).toNat = hash.toNat * 65536 % 2 ^ 32 := by
    rw [UInt32.toNat_shiftLeft, Nat.shiftLeft_eq]
    rfl
  have hlt := hash.toNat_lt
  rw [sdbmStep, UInt32.toNat_sub, UInt32.toNat_add, UInt32.toNat_add, hsix, hsixteen]
  omega

/-- A `char` from 128 on is negative. -/
theorem toNat_charToUint32 (c : UInt8) :
    (charToUint32 c).toNat = c.toNat + 4294967040 * (if 128 ≤ c.toNat then 1 else 0) := by
  have hall : ∀ n : Fin 256, (charToUint32 (UInt8.ofNat n)).toNat =
      (UInt8.ofNat n).toNat + 4294967040 * (if 128 ≤ (UInt8.ofNat n).toNat then 1 else 0) := by
    decide +kernel
  have hc := hall ⟨c.toNat, c.toNat_lt⟩
  rwa [UInt8.ofNat_toNat] at hc

theorem sdbmHashLoop_append {s : List UInt8} (h : 0 ∉ s) (rest : List UInt8) (hash : UInt32) :
    sdbmHashLoop hash (s ++ 0 :: rest) =
      some (s.foldl (fun hash c ↦ sdbmStep hash (charToUint32 c)) hash) := by
  induction s generalizing hash with
  | nil => rfl
  | cons c s ih =>
    rw [List.mem_cons, not_or] at h
    rw [List.cons_append, sdbmHashLoop, if_neg (Ne.symm h.1), ih h.2, List.foldl_cons]

theorem sdbmMemLoop_append (s rest : List UInt8) (hash : UInt32) :
    sdbmMemLoop hash (s ++ rest) s.length =
      some (s.foldl (fun hash c ↦ sdbmStep hash c.toUInt32) hash) := by
  induction s generalizing hash with
  | nil =>
    cases rest <;> rfl
  | cons c s ih => rw [List.cons_append, List.length_cons, sdbmMemLoop, ih, List.foldl_cons]

end Mblue
