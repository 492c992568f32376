import Mathlib.Data.Nat.Bitwise

/-!
# Words with a field in their low bits

A machine word may keep a small field in its low `k` bits and something else in
the bits above, the two put together by `|` and taken apart by `&` with the masks
`-2ᵏ` and `2ʲ – 1`. Here the three operations are read as arithmetic: clearing the
low bits subtracts the remainder, masking them takes the remainder, and `|` with a
field that fits adds.
-/

namespace NetworkDemo.Foundations

/-- Clearing the low `k` bits of a `w`-bit number. -/
theorem land_high {k w x : ℕ} (hk : k ≤ w) (hx : x < 2 ^ w) :
    x &&& (2 ^ w - 2 ^ k) = x - x % 2 ^ k := by
  have h1 : 2 ^ w - 2 ^ k = 2 ^ k * (2 ^ (w - k) - 1) := by
    rw [Nat.mul_sub, ← pow_add, Nat.add_sub_cancel' hk, mul_one]
  have h2 : x - x % 2 ^ k = 2 ^ k * (x / 2 ^ k) := by
    have := Nat.div_add_mod x (2 ^ k)
    omega
  rw [h1, h2]
  apply Nat.eq_of_testBit_eq
  intro i
  rw [Nat.testBit_and, Nat.testBit_two_pow_mul, Nat.testBit_two_pow_mul,
    Nat.testBit_two_pow_sub_one, Nat.testBit_div_two_pow]
  by_cases hi : k ≤ i
  · by_cases hiw : i - k < w - k
    · simp [hi, hiw]
    · have hlt : x < 2 ^ i := lt_of_lt_of_le hx (Nat.pow_le_pow_right Nat.two_pos (by omega))
      simp [hi, hiw, Nat.testBit_lt_two_pow hlt]
  · simp [hi]

section BitVec

variable {w : ℕ}

/-- `x & -2ᵏ` clears the field. -/
theorem toNat_and_neg_twoPow {k : ℕ} (hk : k < w) (x m : BitVec w) (hm : m.toNat = 2 ^ w - 2 ^ k) :
    (x &&& m).toNat = x.toNat - x.toNat % 2 ^ k := by
  rw [BitVec.toNat_and, hm, land_high hk.le x.isLt]

/-- `x & (2ʲ – 1)` takes the field. -/
theorem toNat_and_mask {j : ℕ} (x m : BitVec w) (hm : m.toNat = 2 ^ j - 1) :
    (x &&& m).toNat = x.toNat % 2 ^ j := by
  rw [BitVec.toNat_and, hm, Nat.and_two_pow_sub_one_eq_mod]

/-- `x | y` adds a field that fits below the bits of `x`. -/
theorem toNat_or_field {k : ℕ} (x y : BitVec w) (hx : x.toNat % 2 ^ k = 0) (hy : y.toNat < 2 ^ k) :
    (x ||| y).toNat = x.toNat + y.toNat := by
  obtain ⟨a, ha⟩ : ∃ a, x.toNat = 2 ^ k * a := Nat.dvd_of_mod_eq_zero hx
  rw [BitVec.toNat_or, ha, Nat.two_pow_add_eq_or_of_lt hy]

end BitVec

end NetworkDemo.Foundations
