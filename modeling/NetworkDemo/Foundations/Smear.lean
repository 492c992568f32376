import Mathlib.Data.Nat.Bitwise
import Mathlib.Data.Nat.Size
import Mathlib.Order.Bounds.Basic

/-!
# Rounding up to a power of two

The bits of a number are spread downwards by `x | x >> w` for `w = 1, 2, 4, …`; each
doubles the number of places that a bit reaches (`Spread.double`). When all places are
reached what is left is ones below the highest bit (`Spread.eq`), and one more is a power
of two: of a number less one, the least that is not below the number (`le_twoPow`,
`twoPow_le`).
-/

namespace NetworkDemo.Foundations

/-- In `x` each bit of `n` is spread to `w` places, its own and those below. -/
def Spread (w n x : ℕ) : Prop := ∀ i, x.testBit i = true ↔ ∃ d < w, n.testBit (i + d) = true

variable {w n x k : ℕ}

theorem Spread.one (n : ℕ) : Spread 1 n n := by
  intro i
  constructor
  · intro h
    exact ⟨0, Nat.one_pos, h⟩
  · rintro ⟨d, hd, h⟩
    obtain rfl : d = 0 := by omega
    exact h

theorem Spread.double (h : Spread w n x) : Spread (2 * w) n (x ||| x >>> w) := by
  intro i
  rw [Nat.testBit_or, Nat.testBit_shiftRight, Bool.or_eq_true, h i, h (w + i)]
  constructor
  · rintro (⟨d, hd, hb⟩ | ⟨d, hd, hb⟩)
    · exact ⟨d, by omega, hb⟩
    · exact ⟨w + d, by omega, by rwa [show i + (w + d) = w + i + d by omega]⟩
  · rintro ⟨d, hd, hb⟩
    by_cases hdw : d < w
    · exact .inl ⟨d, hdw, hb⟩
    · exact .inr ⟨d - w, by omega, by rwa [show w + i + (d - w) = i + d by omega]⟩

/-- Ones up to the highest bit. -/
theorem Spread.eq (h : Spread w n x) (hn : n < 2 ^ w) : x = 2 ^ n.size - 1 := by
  apply Nat.eq_of_testBit_eq
  intro i
  rw [Nat.testBit_two_pow_sub_one, Bool.eq_iff_iff, h i, decide_eq_true_iff, Nat.lt_size]
  constructor
  · rintro ⟨d, -, hb⟩
    exact (Nat.pow_le_pow_right Nat.two_pos (Nat.le_add_right i d)).trans
      (Nat.ge_two_pow_of_testBit hb)
  · intro hi
    have hn0 : n ≠ 0 := (lt_of_lt_of_le (Nat.two_pow_pos i) hi).ne'
    obtain ⟨j, hj, hhigh⟩ := Nat.exists_most_significant_bit hn0
    have hjw : j < w := by
      by_contra hle
      have hpow : 2 ^ w ≤ 2 ^ j := Nat.pow_le_pow_right Nat.two_pos (not_lt.mp hle)
      exact absurd (Nat.ge_two_pow_of_testBit hj) (by omega)
    have hij : i ≤ j := by
      by_contra hlt
      have hlow : n < 2 ^ i := Nat.lt_pow_two_of_testBit n fun m hm => by
        rw [hhigh m (by omega)]
      omega
    exact ⟨j - i, by omega, by rwa [Nat.add_sub_cancel' hij]⟩

/-- It is not below the number, -/
theorem le_twoPow (n : ℕ) : n ≤ 2 ^ (n - 1).size := by
  have := Nat.lt_size_self (n - 1)
  omega

/-- and no power of two below it is. -/
theorem twoPow_le (hn : 0 < n) (h : n ≤ 2 ^ k) : 2 ^ (n - 1).size ≤ 2 ^ k :=
  Nat.pow_le_pow_right Nat.two_pos (Nat.size_le.mpr (by omega))

/-- So it is the least power of two that is not below the number. -/
theorem isLeast_twoPow (hn : 0 < n) :
    IsLeast {p | (∃ k : ℕ, p = 2 ^ k) ∧ n ≤ p} (2 ^ (n - 1).size) := by
  refine ⟨⟨⟨(n - 1).size, rfl⟩, le_twoPow n⟩, ?_⟩
  rintro _ ⟨⟨k, rfl⟩, hle⟩
  exact twoPow_le hn hle

theorem twoPow_lt (hn : 0 < n) : 2 ^ (n - 1).size < 2 * n := by
  rcases hk : (n - 1).size with _ | k
  · omega
  · have hle : 2 ^ k ≤ n - 1 := Nat.lt_size.mp (by omega)
    rw [Nat.pow_succ]
    omega

end NetworkDemo.Foundations
