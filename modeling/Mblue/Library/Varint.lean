import Mathlib

/-!
# Base-128 numbers

A number is written as bytes of seven bits each, the low ones first; every byte but the last has
its top bit set. `Varint.encode` is that notation, by recursion on the number.

What a reader needs is the recursion equation in its two forms (`encode_of_lt`, `encode_of_le`),
the size of an encoding (`length_encode_le`), and how the two parts of a byte are read back with
bit operations: `and_low` for the seven bits, `and_top_of_lt` and `and_top_of_le` for the
continuation bit. `or_mul` says that collecting groups with `|||` adds them up.
-/

namespace Varint

/-- The base-128 notation of a number, low group first. -/
def encode (n : ℕ) : List UInt8 :=
  if n < 128 then [UInt8.ofNat n] else UInt8.ofNat (n % 128 + 128) :: encode (n / 128)
termination_by n
decreasing_by omega

theorem encode_of_lt {n : ℕ} (h : n < 128) : encode n = [UInt8.ofNat n] := by
  rw [encode, if_pos h]

theorem encode_of_le {n : ℕ} (h : 128 ≤ n) :
    encode n = UInt8.ofNat (n % 128 + 128) :: encode (n / 128) := by
  rw [encode, if_neg (by omega)]

theorem encode_ne_nil (n : ℕ) : encode n ≠ [] := by
  rw [encode]
  split <;> simp

theorem length_encode_pos (n : ℕ) : 0 < (encode n).length :=
  List.length_pos_of_ne_nil (encode_ne_nil n)

/-- A number below `128 ^ k` takes at most `k` bytes. -/
theorem length_encode_le {k n : ℕ} (hk : 0 < k) (h : n < 128 ^ k) : (encode n).length ≤ k := by
  induction k generalizing n with
  | zero => exact absurd hk (lt_irrefl 0)
  | succ k ih =>
    rcases Nat.lt_or_ge n 128 with hlt | hge
    · rw [encode_of_lt hlt]
      exact Nat.succ_le_succ (Nat.zero_le k)
    · have hk' : 0 < k := by
        rcases Nat.eq_zero_or_pos k with rfl | hpos
        · omega
        · exact hpos
      have hdiv : n / 128 < 128 ^ k := by
        rw [Nat.div_lt_iff_lt_mul (by decide), ← pow_succ]
        exact h
      rw [encode_of_le hge, List.length_cons]
      exact Nat.succ_le_succ (ih hk' hdiv)

/-! ### Reading the groups back -/

/-- The seven payload bits of a byte. -/
theorem and_low (x : ℕ) : x &&& 0x7F = x % 128 :=
  Nat.and_two_pow_sub_one_eq_mod x 7

theorem and_top_of_lt {x : ℕ} (h : x < 128) : x &&& 0x80 = 0 := by
  rw [show 0x80 = 2 ^ 7 from rfl, Nat.and_two_pow, Nat.testBit_lt_two_pow h]
  rfl

theorem and_top_of_le {x : ℕ} (h : 128 ≤ x) (hx : x < 256) : x &&& 0x80 ≠ 0 := by
  have hbit : x.testBit 7 = true := by
    rw [Nat.testBit_eq_decide_div_mod_eq, decide_eq_true_eq]
    omega
  rw [show 0x80 = 2 ^ 7 from rfl, Nat.and_two_pow, hbit]
  decide

/-- A group placed above the bits already collected is added to them. -/
theorem or_mul {r k : ℕ} (h : r < 2 ^ k) (d : ℕ) : r ||| d * 2 ^ k = r + d * 2 ^ k := by
  rw [Nat.or_comm, Nat.mul_comm, ← Nat.two_pow_add_eq_or_of_lt h, Nat.add_comm]

theorem toNat_last {n : ℕ} (h : n < 128) : (UInt8.ofNat n).toNat = n := by
  rw [UInt8.toNat_ofNat']
  omega

theorem toNat_more (n : ℕ) : (UInt8.ofNat (n % 128 + 128)).toNat = n % 128 + 128 := by
  rw [UInt8.toNat_ofNat']
  omega

/-- What the groups from position `k` on contribute, one group at a time. -/
theorem collect (n k : ℕ) : n % 128 * 2 ^ k + n / 128 * 2 ^ (k + 7) = n * 2 ^ k := by
  calc n % 128 * 2 ^ k + n / 128 * 2 ^ (k + 7)
      = (n % 128 + 128 * (n / 128)) * 2 ^ k := by rw [pow_add]; ring
    _ = n * 2 ^ k := by rw [Nat.mod_add_div]

end Varint
