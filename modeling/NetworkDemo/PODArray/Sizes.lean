import NetworkDemo.Foundations.Smear
import Mathlib.Data.BitVec
import Mathlib.Tactic.Ring

/-!
# The sizes of a `PODArray`

`PODArrayBase` has four sizes for parameters, `ELEMENT_SIZE`, `INITIAL_SIZE` and the two
paddings, which it rounds up to whole elements, the left one then to 16 bytes as well. The
memory for a number of elements is their bytes and both paddings, rounded up to a power of
two. All of it is `size_t` arithmetic, which wraps around; for sizes that fit (`Fits`) it is
the arithmetic of numbers.
-/

namespace NetworkDemo.PODArray

open Foundations

/-- `size_t`, and the address that a `char *` is. -/
abbrev Size := BitVec 64

/-- `integerRoundUp`. -/
def integerRoundUp (value dividend : Size) : Size := (value + dividend - 1) / dividend * dividend

/-- `roundUpToPowerOfTwoOrZero`. -/
def roundUpToPowerOfTwoOrZero (n : Size) : Size :=
  let n := n - 1
  let n := n ||| n >>> 1
  let n := n ||| n >>> 2
  let n := n ||| n >>> 4
  let n := n ||| n >>> 8
  let n := n ||| n >>> 16
  let n := n ||| n >>> 32
  n + 1

/-- `EmptyPODArraySize`. -/
def emptyPODArraySize : Size := 1024

/-- The parameters of the class template, which pass its `static_assert`, and where `EmptyPODArray`
is. -/
structure Template where
  elementSize : Size
  initialSize : Size
  /-- `pad_right_`. -/
  rightArg : Size
  /-- `pad_left_`. -/
  leftArg : Size
  emptyPODArray : Size
  elementSize_pos : 0 < elementSize.toNat
  assert : integerRoundUp (integerRoundUp leftArg elementSize) 16 ≤ emptyPODArraySize
  placed : 0 < emptyPODArray.toNat ∧ emptyPODArray.toNat + 1024 < 2 ^ 64

namespace Template

variable (C : Template)

/-- `pad_right`, whole elements. -/
def padRight : Size := integerRoundUp C.rightArg C.elementSize

/-- `pad_left`, rounded up to whole elements, and that to a multiple of 16. -/
def padLeft : Size := integerRoundUp (integerRoundUp C.leftArg C.elementSize) 16

/-- What the pointers of an empty array point to. -/
def null : Size := if C.padLeft ≠ 0 then C.emptyPODArray + emptyPODArraySize else 0

/-- `byte_size`. -/
def byteSize (numElements : Size) : Size := numElements * C.elementSize

/-- `minimum_memory_for_elements`. -/
def minimumMemoryForElements (numElements : Size) : Size :=
  C.byteSize numElements + C.padRight + C.padLeft

/-- The bytes of an array of `n` elements with its paddings, in numbers. -/
def bytesFor (n : ℕ) : ℕ := n * C.elementSize.toNat + C.padRight.toNat + C.padLeft.toNat

/-- They are below `2⁶³`. -/
def Fits (n : ℕ) : Prop := C.bytesFor n < 2 ^ 63

instance (n : ℕ) : Decidable (C.Fits n) := inferInstanceAs (Decidable (_ < _))

end Template

@[simp] theorem toNat_zero : (0 : Size).toNat = 0 := rfl

@[simp] theorem toNat_one : (1 : Size).toNat = 1 := rfl

@[simp] theorem toNat_two : (2 : Size).toNat = 2 := rfl

@[simp] theorem toNat_sixteen : (16 : Size).toNat = 16 := rfl

theorem toNat_ofNat {k : ℕ} (h : k < 2 ^ 64) : (BitVec.ofNat 64 k).toNat = k := by
  rw [BitVec.toNat_ofNat, Nat.mod_eq_of_lt h]

theorem toNat_pos {n : Size} (h : n ≠ 0) : 0 < n.toNat :=
  Nat.pos_of_ne_zero fun h0 => h (BitVec.eq_of_toNat_eq h0)

/-! ### Powers of two -/

theorem toNat_or_shift {w : ℕ} {n : ℕ} {x : Size} (h : Spread w n x.toNat) :
    Spread (2 * w) n (x ||| x >>> w).toNat := by
  rw [BitVec.toNat_or, BitVec.toNat_ushiftRight]
  exact h.double

theorem toNat_roundUp (n : Size) :
    (roundUpToPowerOfTwoOrZero n).toNat = 2 ^ (n - 1).toNat.size % 2 ^ 64 := by
  have h : Spread 64 (n - 1).toNat _ :=
    toNat_or_shift (toNat_or_shift (toNat_or_shift (toNat_or_shift (toNat_or_shift (toNat_or_shift
      (Spread.one (n - 1).toNat))))))
  have heq := h.eq (n - 1).isLt
  have hpos : 0 < 2 ^ (n - 1).toNat.size := Nat.two_pow_pos _
  refine (BitVec.toNat_add _ (1 : Size)).trans ?_
  rw [heq, toNat_one, Nat.sub_add_cancel hpos]

/-- A number that is not zero is rounded up to the least power of two, if that is a `size_t`. -/
theorem roundUp_eq {n : Size} (h0 : 0 < n.toNat) (h : n.toNat ≤ 2 ^ 63) :
    (roundUpToPowerOfTwoOrZero n).toNat = 2 ^ (n.toNat - 1).size := by
  have hsub : (n - 1).toNat = n.toNat - 1 := BitVec.toNat_sub_of_le (BitVec.le_def.mpr h0)
  rw [toNat_roundUp, hsub]
  exact Nat.mod_eq_of_lt ((twoPow_le h0 h).trans_lt (by decide))

theorem roundUp_zero : roundUpToPowerOfTwoOrZero 0 = 0 := by decide

theorem le_roundUp {n : Size} (h : n.toNat ≤ 2 ^ 63) :
    n.toNat ≤ (roundUpToPowerOfTwoOrZero n).toNat := by
  rcases Nat.eq_zero_or_pos n.toNat with h0 | h0
  · omega
  · rw [roundUp_eq h0 h]
    exact le_twoPow n.toNat

/-- There is no power of two for more than `2⁶³`. -/
theorem roundUp_of_gt {n : Size} (h : 2 ^ 63 < n.toNat) : roundUpToPowerOfTwoOrZero n = 0 := by
  have hsub : (n - 1).toNat = n.toNat - 1 :=
    BitVec.toNat_sub_of_le (BitVec.le_def.mpr (by rw [toNat_one]; omega))
  have hlow : 63 < (n - 1).toNat.size := Nat.lt_size.mpr (by omega)
  have hhigh : (n - 1).toNat.size ≤ 64 := Nat.size_le.mpr (n - 1).isLt
  have hsize : (n - 1).toNat.size = 64 := by omega
  apply BitVec.eq_of_toNat_eq
  rw [toNat_roundUp, hsize, Nat.mod_self, toNat_zero]

theorem roundUp_le (n : Size) : (roundUpToPowerOfTwoOrZero n).toNat ≤ 2 ^ 63 := by
  rcases Nat.eq_zero_or_pos n.toNat with h0 | h0
  · have hz : n = 0 := BitVec.eq_of_toNat_eq h0
    rw [hz, roundUp_zero]
    exact Nat.zero_le _
  · rcases Nat.lt_or_ge (2 ^ 63) n.toNat with hgt | hle
    · rw [roundUp_of_gt hgt]
      exact Nat.zero_le _
    · rw [roundUp_eq h0 hle]
      exact twoPow_le h0 hle

/-- The power of two that a number of elements is raised to. -/
theorem toNat_roundUp_ofNat {k : ℕ} (h0 : 0 < k) (hk : k ≤ 2 ^ 63) :
    (roundUpToPowerOfTwoOrZero (BitVec.ofNat 64 k)).toNat = 2 ^ (k - 1).size := by
  have hnat := toNat_ofNat (k := k) (by omega)
  rw [roundUp_eq (by rw [hnat]; exact h0) (by rw [hnat]; exact hk), hnat]

/-- What rounding up to a power of two is. -/
structure RoundsUp (f : Size → Size) : Prop where
  /-- The least power of two that is not below the number, -/
  least : ∀ n : Size, 1 ≤ n.toNat → n.toNat ≤ 2 ^ 63 →
    IsLeast {p | (∃ k : ℕ, p = 2 ^ k) ∧ n.toNat ≤ p} (f n).toNat
  /-- but zero for zero, -/
  zero : f 0 = 0
  /-- and if the power of two is not a `size_t`. -/
  large : ∀ n : Size, 2 ^ 63 < n.toNat → f n = 0

section Rounding

variable {f : Size → Size} {m n : Size}

theorem RoundsUp.mono (h : RoundsUp f) (h0 : 1 ≤ m.toNat) (hmn : m ≤ n) (hn : n.toNat ≤ 2 ^ 63) :
    f m ≤ f n := by
  rw [BitVec.le_def] at hmn ⊢
  obtain ⟨hpow, hle⟩ := (h.least n (h0.trans hmn) hn).1
  exact (h.least m h0 (hmn.trans hn)).2 ⟨hpow, hmn.trans hle⟩

/-- A power of two is rounded up to itself. -/
theorem RoundsUp.eq_self (h : RoundsUp f) {k : ℕ} (hn : n.toNat = 2 ^ k) (hle : n.toNat ≤ 2 ^ 63) :
    f n = n := by
  have hself : IsLeast {p | (∃ k : ℕ, p = 2 ^ k) ∧ n.toNat ≤ p} n.toNat :=
    ⟨⟨⟨k, hn⟩, le_rfl⟩, fun _ hp => hp.2⟩
  refine BitVec.eq_of_toNat_eq ((h.least n ?_ hle).unique hself)
  rw [hn]
  exact Nat.one_le_two_pow

theorem RoundsUp.idempotent (h : RoundsUp f) (n : Size) : f (f n) = f n := by
  rcases Nat.eq_zero_or_pos n.toNat with h0 | h0
  · obtain rfl : n = 0 := BitVec.eq_of_toNat_eq h0
    rw [h.zero, h.zero]
  · rcases Nat.lt_or_ge (2 ^ 63) n.toNat with hgt | hle
    · rw [h.large n hgt, h.zero]
    · obtain ⟨⟨⟨k, hk⟩, -⟩, hlow⟩ := h.least n h0 hle
      exact h.eq_self hk (hlow ⟨⟨63, rfl⟩, hle⟩)

end Rounding

/-- **Rounding up**: the shifts and the two steps by one come to the least power of two, and so keep
the order and change nothing when repeated. -/
theorem roundUp_rounds : RoundsUp roundUpToPowerOfTwoOrZero ∧
    (∀ m n : Size, 1 ≤ m.toNat → m ≤ n → n.toNat ≤ 2 ^ 63 →
      roundUpToPowerOfTwoOrZero m ≤ roundUpToPowerOfTwoOrZero n) ∧
    ∀ n : Size, roundUpToPowerOfTwoOrZero (roundUpToPowerOfTwoOrZero n) =
      roundUpToPowerOfTwoOrZero n := by
  have hrounds : RoundsUp roundUpToPowerOfTwoOrZero :=
    { least := fun n h0 hle => by
        rw [roundUp_eq h0 hle]
        exact isLeast_twoPow h0
      zero := roundUp_zero
      large := fun n => roundUp_of_gt }
  exact ⟨hrounds, fun m n h0 hmn hn => hrounds.mono h0 hmn hn, hrounds.idempotent⟩

example : (roundUpToPowerOfTwoOrZero 5, roundUpToPowerOfTwoOrZero 8) = (8, 8) := by decide

/-! ### Paddings -/

theorem toNat_integerRoundUp (value dividend : Size) :
    (integerRoundUp value dividend).toNat = (value + dividend - 1).toNat / dividend.toNat *
      dividend.toNat := by
  rw [integerRoundUp, BitVec.toNat_mul, BitVec.toNat_udiv]
  exact Nat.mod_eq_of_lt ((Nat.div_mul_le_self _ _).trans_lt (value + dividend - 1).isLt)

theorem dvd_integerRoundUp (value dividend : Size) :
    dividend.toNat ∣ (integerRoundUp value dividend).toNat := by
  rw [toNat_integerRoundUp]
  exact Nat.dvd_mul_left _ _

namespace Template

variable {C : Template}

theorem dvd_padRight : C.elementSize.toNat ∣ C.padRight.toNat := dvd_integerRoundUp _ _

theorem padLeft_le : C.padLeft.toNat ≤ 1024 := BitVec.le_def.mp C.assert

/-- A left padding has room for an element. -/
theorem elementSize_le_padLeft (h : C.padLeft ≠ 0) : C.elementSize.toNat ≤ C.padLeft.toNat := by
  obtain ⟨k, hk⟩ := dvd_integerRoundUp C.leftArg C.elementSize
  have hne := (toNat_pos h).ne'
  unfold padLeft at hne ⊢
  rw [toNat_integerRoundUp] at hne ⊢
  rw [toNat_sixteen] at hne ⊢
  have hlt := (integerRoundUp C.leftArg C.elementSize).isLt
  have hsum : (integerRoundUp C.leftArg C.elementSize + 16 - 1).toNat =
      ((integerRoundUp C.leftArg C.elementSize).toNat + 15) % 2 ^ 64 := by
    rw [add_sub_assoc, BitVec.toNat_add]
    rfl
  rw [hsum] at hne ⊢
  rcases Nat.eq_zero_or_pos k with rfl | hkpos
  · omega
  · have hle : C.elementSize.toNat ≤ (integerRoundUp C.leftArg C.elementSize).toNat := by
      rw [hk]
      exact Nat.le_mul_of_pos_right _ hkpos
    omega

/-- The paddings are whole elements, of an element whose size is a power of two. -/
theorem dvd_padLeft {e : ℕ} (he : C.elementSize.toNat = 2 ^ e) :
    C.elementSize.toNat ∣ C.padLeft.toNat := by
  have h16 : 16 ∣ C.padLeft.toNat := dvd_integerRoundUp _ 16
  rcases Nat.le_total e 4 with hle | hle
  · rw [he]
    exact (Nat.pow_dvd_pow 2 hle).trans h16
  · -- the element is of a multiple of 16 bytes, so that rounding up to 16 bytes changes nothing
    have hdvd := dvd_integerRoundUp C.leftArg C.elementSize
    have h16' : 16 ∣ (integerRoundUp C.leftArg C.elementSize).toNat := by
      refine Dvd.dvd.trans ?_ hdvd
      rw [he]
      exact Nat.pow_dvd_pow 2 hle
    have hsame : C.padLeft.toNat = (integerRoundUp C.leftArg C.elementSize).toNat := by
      have hlt := (integerRoundUp C.leftArg C.elementSize).isLt
      rw [padLeft, toNat_integerRoundUp, add_sub_assoc, BitVec.toNat_add,
        show ((16 - 1 : Size).toNat) = 15 from rfl, toNat_sixteen]
      omega
    rw [hsame]
    exact hdvd

/-! ### The memory for a number of elements -/

variable {n : Size}

theorem toNat_byteSize (h : n.toNat * C.elementSize.toNat < 2 ^ 64) :
    (C.byteSize n).toNat = n.toNat * C.elementSize.toNat := by
  rw [byteSize, BitVec.toNat_mul, Nat.mod_eq_of_lt h]

theorem toNat_minimumMemory (h : C.bytesFor n.toNat < 2 ^ 64) :
    (C.minimumMemoryForElements n).toNat = C.bytesFor n.toNat := by
  unfold bytesFor at h
  rw [minimumMemoryForElements, BitVec.toNat_add, BitVec.toNat_add, toNat_byteSize (by omega),
    Nat.mod_eq_of_lt (by omega), Nat.mod_eq_of_lt (by omega), bytesFor]

/-- The bytes that `reserve` and the constructors allocate for `n` elements. -/
def bytesRequested (C : Template) (n : Size) : Size :=
  roundUpToPowerOfTwoOrZero (C.minimumMemoryForElements n)

theorem le_bytesRequested (h : C.bytesFor n.toNat ≤ 2 ^ 63) :
    C.bytesFor n.toNat ≤ (C.bytesRequested n).toNat := by
  have hmin := toNat_minimumMemory (h.trans_lt (by decide))
  rw [← hmin]
  exact le_roundUp (by rw [hmin]; exact h)

theorem bytesRequested_le : (C.bytesRequested n).toNat ≤ 2 ^ 63 := roundUp_le _

theorem le_bytesFor (k : ℕ) : k ≤ C.bytesFor k := by
  have hle : k ≤ k * C.elementSize.toNat := Nat.le_mul_of_pos_right k C.elementSize_pos
  unfold bytesFor
  omega

theorem bytesFor_mono {k m : ℕ} (h : k ≤ m) : C.bytesFor k ≤ C.bytesFor m := by
  have hmul := Nat.mul_le_mul_right C.elementSize.toNat h
  unfold bytesFor
  omega

/-- What `insertPrepare` and `assign` allocate for `k` elements is enough for them if and only if it
is for the power of two that they raise `k` to. -/
theorem le_bytesRequested_iff {k : ℕ} (h0 : 0 < k) :
    C.bytesFor k ≤ (C.bytesRequested (roundUpToPowerOfTwoOrZero (BitVec.ofNat 64 k))).toNat ↔
      C.bytesFor (2 ^ (k - 1).size) ≤ 2 ^ 63 := by
  have hmono := bytesFor_mono (C := C) (le_twoPow k)
  constructor
  · intro hreq
    have hfor : C.bytesFor k ≤ 2 ^ 63 := hreq.trans bytesRequested_le
    have hround := toNat_roundUp_ofNat h0 ((le_bytesFor k).trans hfor)
    by_contra hgt
    -- the bytes for the power of two are less than twice those for `k`, and do not wrap around
    have hlt : C.bytesFor (2 ^ (k - 1).size) < 2 ^ 64 := by
      have hpos := Nat.mul_lt_mul_of_pos_right (twoPow_lt h0) C.elementSize_pos
      rw [Nat.mul_assoc] at hpos
      unfold bytesFor at hfor ⊢
      omega
    have hzero := toNat_minimumMemory (C := C) (n := roundUpToPowerOfTwoOrZero (BitVec.ofNat 64 k))
      (by rw [hround]; exact hlt)
    rw [bytesRequested, roundUp_of_gt (by rw [hzero, hround]; exact not_le.mp hgt), toNat_zero]
      at hreq
    exact absurd ((le_bytesFor k).trans hreq) (not_le.mpr h0)
  · intro hfor
    have hround := toNat_roundUp_ofNat h0 ((le_twoPow k).trans ((le_bytesFor _).trans hfor))
    have hreq := le_bytesRequested (C := C) (n := roundUpToPowerOfTwoOrZero (BitVec.ofNat 64 k))
      (by rw [hround]; exact hfor)
    rw [hround] at hreq
    exact hmono.trans hreq

/-- Wrapping around does not change what a power of two divides. -/
theorem dvd_mod {e k : ℕ} (he : C.elementSize.toNat = 2 ^ e) (hk : C.elementSize.toNat ∣ k) :
    C.elementSize.toNat ∣ k % 2 ^ 64 := by
  have hlt : 2 ^ e < 2 ^ 64 := he ▸ C.elementSize.isLt
  refine (Nat.dvd_mod_iff ?_).mpr hk
  rw [he]
  exact Nat.pow_dvd_pow 2 ((Nat.pow_lt_pow_iff_right Nat.one_lt_two).mp hlt).le

/-- They are whole elements, of an element whose size is a power of two. -/
theorem dvd_bytesRequested {e : ℕ} (he : C.elementSize.toNat = 2 ^ e) (n : Size) :
    C.elementSize.toNat ∣ (C.bytesRequested n).toNat := by
  have hdvd : C.elementSize.toNat ∣ (C.minimumMemoryForElements n).toNat := by
    rw [minimumMemoryForElements, byteSize, BitVec.toNat_add, BitVec.toNat_add, BitVec.toNat_mul]
    exact dvd_mod he (Nat.dvd_add
      (dvd_mod he (Nat.dvd_add (dvd_mod he (Nat.dvd_mul_left _ _)) dvd_padRight)) (dvd_padLeft he))
  rcases Nat.eq_zero_or_pos (C.minimumMemoryForElements n).toNat with h0 | h0
  · have hz : C.minimumMemoryForElements n = 0 := BitVec.eq_of_toNat_eq h0
    rw [bytesRequested, hz, roundUp_zero]
    exact Nat.dvd_zero _
  · rcases Nat.lt_or_ge (2 ^ 63) (C.minimumMemoryForElements n).toNat with hgt | hmin
    · rw [bytesRequested, roundUp_of_gt hgt]
      exact Nat.dvd_zero _
    · have hle := Nat.le_of_dvd h0 hdvd
      have hsize := le_twoPow (C.minimumMemoryForElements n).toNat
      rw [bytesRequested, roundUp_eq h0 hmin, he]
      rw [he] at hle
      exact Nat.pow_dvd_pow 2 ((Nat.pow_le_pow_iff_right Nat.one_lt_two).mp (hle.trans hsize))

end Template

end NetworkDemo.PODArray
