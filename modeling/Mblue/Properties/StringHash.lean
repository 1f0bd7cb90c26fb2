import Mblue.Library.Horner
import Mblue.Util.Hash

/-!
# The two hashes of a string

`sdbm_mem` computes what its comment says: the polynomial of the bytes at 65599, modulo `2 ^ 31`
(`sdbmMem_eq`). `sdbm_hash` computes it of the bytes as `char`, each byte from 128 on less 256
(`sdbmHash_eq`). So the two agree if the weights of these bytes add up to a multiple of `2 ^ 23`
(`hashesAgree_iff`), as they do in every string without such a byte (`negativeWeight_of_ascii`).
-/

namespace Mblue

/-! ### What is expected -/

/-- The sum of `s[i] * 65599 ^ (n - 1 - i)`. -/
def sdbmPolynomial (s : List UInt8) : ℕ :=
  ∑ i : Fin s.length, s[i].toNat * 65599 ^ (s.length - 1 - i)

/-- Both hashes of a string are the polynomial, modulo `2 ^ 31`; what follows the string in memory
does not matter. -/
def HashesAgree (s : List UInt8) : Prop :=
  ∀ rest, sdbmHash (s ++ 0 :: rest) = sdbmMem (s ++ 0 :: rest) s.length ∧
    sdbmMem (s ++ 0 :: rest) s.length = some (UInt32.ofNat (sdbmPolynomial s % 2 ^ 31))

/-- The weights of the bytes that are negative as `char`. -/
def negativeWeight (s : List UInt8) : ℕ :=
  ∑ i : Fin s.length, (if 128 ≤ s[i].toNat then 1 else 0) * 65599 ^ (s.length - 1 - i)

theorem negativeWeight_of_ascii {s : List UInt8} (h : ∀ c ∈ s, c.toNat < 128) :
    negativeWeight s = 0 := by
  refine Finset.sum_eq_zero fun i _ ↦ ?_
  have hlt : ¬128 ≤ s[i].toNat := Nat.not_le_of_lt (h _ (List.getElem_mem i.isLt))
  rw [if_neg hlt, Nat.zero_mul]

/-! ### What is computed -/

/-- The loops compute the polynomial of what they make of a byte. -/
theorem toNat_foldl_sdbmStep (f : UInt8 → UInt32) (s : List UInt8) :
    (s.foldl (fun hash c ↦ sdbmStep hash (f c)) 0).toNat =
      Horner.eval 65599 (s.map fun c ↦ (f c).toNat) % 2 ^ 32 := by
  induction s using List.reverseRecOn with
  | nil => rfl
  | append_singleton s c ih =>
    rw [List.foldl_append, List.foldl_cons, List.foldl_nil, toNat_sdbmStep, ih, List.map_append,
      List.map_singleton, Horner.eval_concat]
    omega

theorem toNat_and_mask (hash : UInt32) : (hash &&& 0x7FFFFFFF).toNat = hash.toNat % 2 ^ 31 := by
  rw [UInt32.toNat_and]
  exact Nat.and_two_pow_sub_one_eq_mod _ 31

theorem sdbmMem_eq (s rest : List UInt8) : sdbmMem (s ++ rest) s.length =
    some (UInt32.ofNat (sdbmPolynomial s % 2 ^ 31)) := by
  rw [sdbmMem, sdbmMemLoop_append, Option.map_some]
  refine congrArg some (UInt32.toNat.inj ?_)
  have hvalue : Horner.eval 65599 (s.map fun c ↦ c.toUInt32.toNat) = sdbmPolynomial s :=
    Horner.eval_map_eq_sum 65599 _ s
  rw [toNat_and_mask, toNat_foldl_sdbmStep, UInt32.toNat_ofNat', hvalue]
  omega

theorem sdbmHash_eq {s : List UInt8} (h : 0 ∉ s) (rest : List UInt8) : sdbmHash (s ++ 0 :: rest) =
    some (UInt32.ofNat ((sdbmPolynomial s + 4294967040 * negativeWeight s) % 2 ^ 31)) := by
  rw [sdbmHash, sdbmHashLoop_append h, Option.map_some]
  refine congrArg some (UInt32.toNat.inj ?_)
  have hvalue : Horner.eval 65599 (s.map fun c ↦ (charToUint32 c).toNat) =
      sdbmPolynomial s + 4294967040 * negativeWeight s := by
    simp only [toNat_charToUint32]
    rw [Horner.eval_map_add, Horner.eval_map_mul, Horner.eval_map_eq_sum, Horner.eval_map_eq_sum]
    rfl
  rw [toNat_and_mask, toNat_foldl_sdbmStep, UInt32.toNat_ofNat', hvalue]
  omega

/-! ### When they agree -/

/-- **When the two hashes agree**: the weights of the bytes from 128 on add up to a multiple of
`2 ^ 23`. -/
theorem hashesAgree_iff {s : List UInt8} (h : 0 ∉ s) :
    HashesAgree s ↔ negativeWeight s % 2 ^ 23 = 0 := by
  have hword : ∀ a b : ℕ, UInt32.ofNat (a % 2 ^ 31) = UInt32.ofNat (b % 2 ^ 31) ↔
      a % 2 ^ 31 = b % 2 ^ 31 := fun a b ↦ by
    rw [← UInt32.toNat_inj, UInt32.toNat_ofNat', UInt32.toNat_ofNat']
    omega
  have hmod : (sdbmPolynomial s + 4294967040 * negativeWeight s) % 2 ^ 31 =
      sdbmPolynomial s % 2 ^ 31 ↔ negativeWeight s % 2 ^ 23 = 0 := by
    omega
  unfold HashesAgree
  simp only [sdbmHash_eq h, sdbmMem_eq, and_true, Option.some.injEq, hword, hmod, forall_const]

/-- A string of ASCII characters. -/
theorem hashesAgree_ascii : HashesAgree [109, 98, 108, 117, 101] :=
  (hashesAgree_iff (by decide)).2 (by decide)

/-- A string with one byte from 128 on. -/
theorem not_hashesAgree_signed : ¬∀ s : List UInt8, 0 ∉ s → HashesAgree s := by
  intro hall
  have hagree := (hall [0x80] (by decide) []).1
  exact absurd hagree (by decide)

end Mblue
