import Mathlib.Data.BitVec
import Mathlib.Tactic.Positivity

/-!
# The integer types

`GangUtil`'s templates are instantiated at any integer type. Here such a type is a code
`CTy`, its values are `CTy.Val`: a `Bool`, or a word of its width, which is read as an
unsigned or as a signed number. A conversion goes by the number: `conv` takes it modulo
`2ʷ`, or, to `bool`, tests that it is not zero.

A conversion to a type at least as wide as the source and back changes nothing
(`conv_conv`); the number itself is kept when it is in the range of the target
(`toInt_conv`).
-/

namespace NetworkDemo.GangUtil

/-- The widths. -/
inductive Width where
  | w8 | w16 | w32 | w64
  deriving DecidableEq

/-- How many bits. -/
def Width.bits : Width → ℕ
  | .w8 => 8
  | .w16 => 16
  | .w32 => 32
  | .w64 => 64

/-- An integer type. -/
inductive CTy where
  | bool
  | unsigned (w : Width)
  | signed (w : Width)
  deriving DecidableEq

namespace CTy

/-- Its values. -/
abbrev Val : CTy → Type
  | .bool => Bool
  | .unsigned w => BitVec w.bits
  | .signed w => BitVec w.bits

instance {τ : CTy} : DecidableEq τ.Val :=
  match τ with
  | .bool => inferInstanceAs (DecidableEq Bool)
  | .unsigned w => inferInstanceAs (DecidableEq (BitVec w.bits))
  | .signed w => inferInstanceAs (DecidableEq (BitVec w.bits))

/-- The number a value stands for. -/
def toInt : (τ : CTy) → τ.Val → ℤ
  | .bool, b => if b = true then 1 else 0
  | .unsigned _, x => x.toNat
  | .signed _, x => BitVec.toInt x

/-- The value a number is converted to. -/
def ofInt : (τ : CTy) → ℤ → τ.Val
  | .bool, z => decide (z ≠ 0)
  | .unsigned w, z => BitVec.ofInt w.bits z
  | .signed w, z => BitVec.ofInt w.bits z

/-- `std::numeric_limits<τ>::max()`. -/
def max : CTy → ℤ
  | .bool => 1
  | .unsigned w => 2 ^ w.bits - 1
  | .signed w => 2 ^ (w.bits - 1) - 1

/-- `8 * sizeof(τ)`. -/
def bits : CTy → ℕ
  | .bool => 8
  | .unsigned w => w.bits
  | .signed w => w.bits

/-- `size_t`. -/
abbrev sizeT : CTy := .unsigned .w64

end CTy

open CTy

/-- The conversion of a value to another type. -/
def conv {σ : CTy} (τ : CTy) (x : σ.Val) : τ.Val := τ.ofInt (σ.toInt x)

/-- `f(r, x)` for an `f` on `P`, converted to the type of `r`. -/
def call {P Z U : CTy} (f : P.Val → P.Val → P.Val) (r : Z.Val) (x : U.Val) : Z.Val :=
  conv Z (f (conv P r) (conv P x))

/-- `std::plus`. -/
def plus (τ : CTy) (x y : τ.Val) : τ.Val := τ.ofInt (τ.toInt x + τ.toInt y)

section Conv

variable {τ σ : CTy} {w : Width}

theorem Width.bits_pos : 0 < w.bits := by cases w <;> decide

theorem ofInt_toInt (x : τ.Val) : τ.ofInt (τ.toInt x) = x := by
  cases τ with
  | bool => cases x <;> rfl
  | unsigned w =>
    exact (BitVec.ofInt_natCast _ _).trans (BitVec.ofNat_toNat _ _ |>.trans (BitVec.setWidth_eq x))
  | signed w => exact BitVec.ofInt_toInt

@[simp] theorem conv_self (x : τ.Val) : conv τ x = x := ofInt_toInt x

@[simp] theorem call_self (f : τ.Val → τ.Val → τ.Val) (r x : τ.Val) : call f r x = f r x := by
  simp only [call, conv_self]

theorem plus_unsigned (x y : (unsigned w).Val) : plus (.unsigned w) x y = x + y := by
  show BitVec.ofInt w.bits ((x.toNat : ℤ) + (y.toNat : ℤ)) = x + y
  rw [← Int.natCast_add, BitVec.ofInt_natCast, BitVec.ofNat_add]
  simp

theorem ofInt_add (a b : ℤ) :
    (unsigned w).ofInt (a + b) = (unsigned w).ofInt a + (unsigned w).ofInt b := BitVec.ofInt_add a b

end Conv

/-! ### Numbers in range -/

section Range

variable {τ σ : CTy} {t : Width} {z : ℤ}

theorem toInt_le_max (x : τ.Val) : τ.toInt x ≤ τ.max := by
  cases τ with
  | bool => cases x <;> decide
  | unsigned w =>
    have hlt : x.toNat < 2 ^ w.bits := x.isLt
    show (x.toNat : ℤ) ≤ 2 ^ w.bits - 1
    have : (x.toNat : ℤ) < 2 ^ w.bits := by exact_mod_cast hlt
    omega
  | signed w => exact BitVec.toInt_le

/-- A type without negative numbers. -/
def CTy.isUnsigned : CTy → Bool
  | .signed _ => false
  | _ => true

theorem toInt_nonneg (h : τ.isUnsigned = true) (x : τ.Val) : 0 ≤ τ.toInt x := by
  cases τ with
  | bool => cases x <;> decide
  | unsigned w => exact Int.natCast_nonneg _
  | signed w => cases h

/-- A number in range is kept. -/
theorem toInt_ofInt (h0 : 0 ≤ z) (h : z ≤ τ.max) : τ.toInt (τ.ofInt z) = z := by
  cases τ with
  | bool =>
    have h1 : z ≤ 1 := h
    obtain rfl | rfl : z = 0 ∨ z = 1 := by omega
    · rfl
    · rfl
  | unsigned w =>
    have h1 : z ≤ 2 ^ w.bits - 1 := h
    show ((BitVec.ofInt w.bits z).toNat : ℤ) = z
    rw [BitVec.toNat_ofInt, Int.toNat_of_nonneg (Int.emod_nonneg _ (by positivity))]
    exact Int.emod_eq_of_lt h0 (by push_cast; omega)
  | signed w =>
    have h1 : z ≤ 2 ^ (w.bits - 1) - 1 := h
    refine BitVec.toInt_ofInt_eq_self Width.bits_pos ?_ (by omega)
    have : (0 : ℤ) ≤ 2 ^ (w.bits - 1) := by positivity
    omega

theorem max_nonneg : 0 ≤ τ.max := by
  cases τ with
  | bool => decide
  | unsigned w => cases w <;> decide
  | signed w => cases w <;> decide

theorem one_le_max : 1 ≤ τ.max := by
  cases τ with
  | bool => decide
  | unsigned w => cases w <;> decide
  | signed w => cases w <;> decide

theorem toInt_zero : τ.toInt (τ.ofInt 0) = 0 := toInt_ofInt le_rfl max_nonneg

theorem conv_zero : conv σ (τ.ofInt 0) = σ.ofInt 0 := by
  unfold conv
  rw [toInt_zero]

/-- A conversion to a type with the greater maximum keeps a number that is not negative. -/
theorem toInt_conv {x : τ.Val} (h0 : 0 ≤ τ.toInt x) (h : τ.toInt x ≤ σ.max) :
    σ.toInt (conv σ x) = τ.toInt x :=
  toInt_ofInt h0 h

/-! ### Modulo a power of two -/

/-- A number and what it is converted to differ by a multiple of `2ʷ`. -/
theorem dvd_toInt_ofInt (h : τ ≠ .bool) : (2 ^ τ.bits : ℤ) ∣ τ.toInt (τ.ofInt z) - z := by
  cases τ with
  | bool => exact absurd rfl h
  | unsigned w =>
    show (2 ^ w.bits : ℤ) ∣ ((BitVec.ofInt w.bits z).toNat : ℤ) - z
    rw [BitVec.toNat_ofInt, Int.toNat_of_nonneg (Int.emod_nonneg _ (by positivity))]
    push_cast
    exact Int.dvd_emod_sub_self
  | signed w =>
    show (2 ^ w.bits : ℤ) ∣ (BitVec.ofInt w.bits z).toInt - z
    rw [BitVec.toInt_ofInt]
    have := Int.dvd_bmod_sub_self (x := z) (m := 2 ^ w.bits)
    push_cast at this
    exact this

theorem bitVec_ofInt_congr {n : ℕ} {a b : ℤ} (hd : (2 ^ n : ℤ) ∣ a - b) :
    BitVec.ofInt n a = BitVec.ofInt n b := by
  obtain ⟨k, hk⟩ := hd
  have h0 : BitVec.ofInt n (2 ^ n) = 0 := by
    have : ((2 ^ n : ℕ) : ℤ) = 2 ^ n := by push_cast; rfl
    rw [← this, BitVec.ofInt_natCast]
    refine BitVec.eq_of_toNat_eq ?_
    rw [BitVec.toNat_ofNat, Nat.mod_self]
    rfl
  rw [show a = b + 2 ^ n * k by omega, BitVec.ofInt_add, BitVec.ofInt_mul, h0]
  simp

/-- Numbers that differ by a multiple of `2ʷ` are converted to the same value, -/
theorem ofInt_congr {a b : ℤ} (h : τ ≠ .bool) (hd : (2 ^ τ.bits : ℤ) ∣ a - b) :
    τ.ofInt a = τ.ofInt b := by
  cases τ with
  | bool => exact absurd rfl h
  | unsigned w => exact bitVec_ofInt_congr hd
  | signed w => exact bitVec_ofInt_congr hd

/-- and only those. -/
theorem dvd_of_ofInt_eq {a b : ℤ} (h : (unsigned t).ofInt a = (unsigned t).ofInt b) :
    (2 ^ t.bits : ℤ) ∣ a - b := by
  have ha := dvd_toInt_ofInt (τ := .unsigned t) (z := a) (by simp)
  have hb := dvd_toInt_ofInt (τ := .unsigned t) (z := b) (by simp)
  rw [← h] at hb
  have := Int.dvd_sub hb ha
  rwa [show (unsigned t).toInt ((unsigned t).ofInt a) - b -
    ((unsigned t).toInt ((unsigned t).ofInt a) - a) = a - b by
    omega] at this

/-! ### Wide types and narrow ones -/

/-- Values of the unsigned type of width `t` go through `τ` unchanged. -/
def Wide (τ : CTy) (t : Width) : Prop := τ ≠ .bool ∧ t.bits ≤ τ.bits

instance : Decidable (Wide τ t) := inferInstanceAs (Decidable (_ ∧ _))

theorem conv_conv_wide (h : Wide τ t) (x : (unsigned t).Val) :
    conv (.unsigned t) (conv τ x) = x := by
  refine Eq.trans (ofInt_congr (by simp) ?_) (ofInt_toInt x)
  exact (pow_dvd_pow 2 h.2).trans (dvd_toInt_ofInt h.1)

theorem bits_le_of_not_wide (h : ¬ Wide τ t) : τ = .bool ∨ τ.bits < t.bits := by
  by_cases hb : τ = .bool
  · exact .inl hb
  · exact .inr (not_le.mp fun hle => h ⟨hb, hle⟩)

/-- And the other way round, those of a narrow type go through the unsigned type. -/
theorem conv_conv_narrow (h : ¬ Wide τ t) (r : τ.Val) : conv τ (conv (.unsigned t) r) = r := by
  rcases bits_le_of_not_wide h with rfl | hlt
  · cases r <;> cases t <;> rfl
  · by_cases hb : τ = .bool
    · subst hb
      cases r <;> cases t <;> rfl
    · refine Eq.trans (ofInt_congr hb ?_) (ofInt_toInt r)
      exact (pow_dvd_pow 2 hlt.le).trans (dvd_toInt_ofInt (by simp))

theorem two_pow_bits_le {a b : ℕ} (h : a ≤ b) : (2 ^ a : ℤ) ≤ 2 ^ b :=
  pow_le_pow_right₀ (by decide) h

/-- The maximum of a narrow type is below that of the unsigned one. -/
theorem max_lt_of_not_wide (h : ¬ Wide τ t) : τ.max + 1 ≤ (unsigned t).max := by
  rcases bits_le_of_not_wide h with rfl | hlt
  · cases t <;> decide
  · show τ.max + 1 ≤ 2 ^ t.bits - 1
    have h1 : (2 ^ (τ.bits + 1) : ℤ) ≤ 2 ^ t.bits := two_pow_bits_le hlt
    have h2 : τ.max + 2 ≤ 2 ^ (τ.bits + 1) := by
      cases τ with
      | bool => decide
      | unsigned w => cases w <;> decide
      | signed w => cases w <;> decide
    omega

/-- One more than the maximum of a narrow type comes out of it as another value. -/
theorem overflow_ne (h : ¬ Wide τ t) :
    (unsigned t).ofInt (τ.toInt (τ.ofInt (τ.max + 1))) ≠ (unsigned t).ofInt (τ.max + 1) := by
  intro he
  have hd := dvd_of_ofInt_eq he
  have h2 : (2 : ℤ) ≤ 2 ^ t.bits := by cases t <;> decide
  -- it is short by `2ʷ`, or by one for `bool`
  obtain ⟨k, hk, hkt, hval⟩ : ∃ k : ℤ, 0 < k ∧ k < 2 ^ t.bits ∧
      τ.toInt (τ.ofInt (τ.max + 1)) - (τ.max + 1) = -k := by
    by_cases hb : τ = .bool
    · subst hb
      exact ⟨1, by decide, by omega, by decide⟩
    · have hlt := (bits_le_of_not_wide h).resolve_left hb
      have h1 : (2 ^ (τ.bits + 1) : ℤ) ≤ 2 ^ t.bits := two_pow_bits_le hlt
      have h3 : (0 : ℤ) < 2 ^ τ.bits := by positivity
      rw [pow_succ] at h1
      refine ⟨2 ^ τ.bits, h3, by omega, ?_⟩
      cases τ with
      | bool => exact absurd rfl hb
      | unsigned w => cases w <;> decide
      | signed w => cases w <;> decide
  rw [hval] at hd
  have := Int.le_of_dvd hk (Int.dvd_neg.mp hd)
  omega

end Range

end NetworkDemo.GangUtil
