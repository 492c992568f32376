import Mathlib.Algebra.Order.Ring.Nat

/-!
# Storage that doubles

A block that has become too small is moved to a larger one: one of twice the size, or of a power of
two. Every move copies the old block. An `Account` says how much has been copied for a block so far,
and in how many moves.

All of it together is no more than twice the block there is now, however the two kinds of move
follow each other: from a power of two on every move doubles at least, so that there is one move at
most that does not (`Account.Balanced`).
-/

namespace NetworkDemo.Foundations

/-- One move, to a larger block. -/
inductive Enlarges : ℕ → ℕ → Prop where
  | twice (n : ℕ) : Enlarges n (n * 2)
  | power {n e : ℕ} (h : n < 2 ^ e) : Enlarges n (2 ^ e)

theorem Enlarges.lt {n n' : ℕ} (h : Enlarges n n') (h0 : 0 < n) : n < n' := by
  cases h with
  | twice => omega
  | power h => exact h

/-- What has been copied, and how often. -/
structure Account where
  copied : ℕ
  moves : ℕ
  deriving DecidableEq

namespace Account

/-- A block just made. -/
def none : Account := ⟨0, 0⟩

/-- A block of `n` is copied. -/
def add (A : Account) (n : ℕ) : Account := ⟨A.copied + n, A.moves + 1⟩

/-- The block is `n` now: no more than that has been copied, or no more than twice that and it is a
power of two. -/
def Balanced (A : Account) (n : ℕ) : Prop :=
  (A.copied ≤ n ∧ 2 ^ A.moves ≤ n) ∨ ∃ e, n = 2 ^ e ∧ A.copied ≤ n * 2 ∧ 2 ^ A.moves ≤ n * 2

variable {A : Account} {n n' : ℕ}

theorem Balanced.none (h : 0 < n) : none.Balanced n := .inl ⟨Nat.zero_le _, h⟩

/-- The first move may be to any larger block. -/
theorem Balanced.first (h0 : 0 < n) (h : n < n') : (Account.none.add n).Balanced n' := by
  have hcopied : (Account.none.add n).copied = n := Nat.zero_add n
  have hmoves : (Account.none.add n).moves = 1 := rfl
  exact .inl ⟨by omega, by rw [hmoves]; omega⟩

/-- From a power of two on a move doubles. -/
theorem two_pow_double {d e : ℕ} (h : 2 ^ d < 2 ^ e) : 2 ^ d * 2 ≤ 2 ^ e := by
  rw [← pow_succ]
  exact Nat.pow_le_pow_right Nat.two_pos ((Nat.pow_lt_pow_iff_right (Nat.lt_succ_self 1)).mp h)

/-- **A move keeps the balance.** -/
theorem Balanced.enlarge (h : A.Balanced n) (hn : Enlarges n n') : (A.add n).Balanced n' := by
  have hcopied : (A.add n).copied = A.copied + n := rfl
  have hmoves : 2 ^ (A.add n).moves = 2 ^ A.moves * 2 := pow_succ 2 A.moves
  cases hn with
  | twice =>
    rcases h with ⟨hle, hpow⟩ | ⟨e, rfl, hle, hpow⟩
    · exact .inl ⟨by omega, by omega⟩
    · exact .inr ⟨e + 1, (pow_succ 2 e).symm, by omega, by omega⟩
  | @power e hlt =>
    refine .inr ⟨e, rfl, ?_⟩
    rcases h with ⟨hle, hpow⟩ | ⟨d, rfl, hle, hpow⟩
    · exact ⟨by omega, by omega⟩
    · have := two_pow_double hlt
      exact ⟨by omega, by omega⟩

theorem Balanced.le (h : A.Balanced n) : A.copied ≤ n * 2 ∧ 2 ^ A.moves ≤ n * 2 := by
  rcases h with ⟨hle, hpow⟩ | ⟨-, -, h⟩
  · exact ⟨by omega, by omega⟩
  · exact h

end Account

end NetworkDemo.Foundations
