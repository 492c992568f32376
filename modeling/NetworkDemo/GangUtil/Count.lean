import NetworkDemo.GangUtil.Pack

/-!
# Counting what is not the maximum

`countSerial` of an integer array adds one for each element that is not the maximum of its
type, in that type: the count comes out modulo the type's range (`countSerialInt_wraps`).
`count` counts by blocks and adds the counts up as `size_t`, so that only the count of a block
can wrap.

* `counts_iff` — both are right if and only if the type holds the count.
* `count_wide` — of a type of 16 bits or more `count` is always right.
-/

namespace NetworkDemo.GangUtil

open Foundations CTy

/-- The order the blocks are counted in, and what is in the memory for `sums`. -/
structure CountSchedule where
  order : ℕ → List ℕ
  perm : ∀ n, (order n).Perm (List.range n)
  fresh : ℕ → sizeT.Val

/-- `count(in, n)`, `in` at address `addr`. -/
def count {U : CTy} (env : CountSchedule) (addr : ℕ) (input : ℕ → U.Val) (n : ℕ) : sizeT.Val :=
  if numBlocks n ≤ 1 then countSerial addr input 0 n
  else
    let sums := countBlocks (env.order (numBlocks n)) addr input n env.fresh
    reduceSerial (plus sizeT) sums 0 (numBlocks n) (sizeT.ofInt 0)

/-- How many of the `n` elements from `b` on are not the maximum. -/
def numNotMax {U : CTy} (input : ℕ → U.Val) (b n : ℕ) : ℕ :=
  Nat.count (fun i => notMax (input (b + i)) = true) n

variable {U : CTy} {env : CountSchedule} {addr n : ℕ} {input : ℕ → U.Val}

theorem countSerial_int (hU : U ≠ .bool) (addr : ℕ) (input : ℕ → U.Val) (b n : ℕ) :
    countSerial addr input b n = countSerialInt input b n := by
  cases U with
  | bool => exact absurd rfl hU
  | unsigned w => rfl
  | signed w => rfl

/-! ### The serial count -/

/-- The count as a value of the element type. -/
theorem reduceSerial_countStep (hU : U ≠ .bool) (input : ℕ → U.Val) (b n : ℕ) :
    reduceSerial (P := U) countStep input b n (U.ofInt 0) = U.ofInt (numNotMax input b n) := by
  unfold reduceSerial
  rw [conv_self]
  induction n with
  | zero => rfl
  | succ n ih =>
    have hcount : (numNotMax input b (n + 1) : ℤ) =
        numNotMax input b n + if U.toInt (input (b + n)) = U.max then 0 else 1 := by
      rw [numNotMax, Nat.count_succ]
      by_cases h : U.toInt (input (b + n)) = U.max
      · simp [numNotMax, notMax, h]
      · simp [numNotMax, notMax, h]
    rw [List.range_succ, List.foldl_append, ih]
    show call countStep _ (input (b + n)) = _
    rw [call_self, countStep, hcount]
    refine ofInt_congr hU ?_
    rw [add_sub_add_right_eq_sub]
    exact dvd_toInt_ofInt hU

/-- **The serial count wraps** in the element type. -/
theorem countSerialInt_wraps (hU : U ≠ .bool) (input : ℕ → U.Val) (b n : ℕ) :
    countSerialInt input b n = sizeT.ofInt (U.toInt (U.ofInt (numNotMax input b n))) := by
  rw [countSerialInt, reduceSerial_countStep hU]
  rfl

theorem numNotMax_le (input : ℕ → U.Val) (b n : ℕ) : numNotMax input b n ≤ n := Nat.count_le ..

theorem countSerialInt_of_le (hU : U ≠ .bool) {b : ℕ} (h : (numNotMax input b n : ℤ) ≤ U.max) :
    countSerialInt input b n = toSize (numNotMax input b n) := by
  rw [countSerialInt_wraps hU, toInt_ofInt (Int.natCast_nonneg _) h]
  exact BitVec.ofInt_natCast _ _

/-- An array in memory is too short for its count to be right by wrapping around `size_t` as
well. -/
theorem le_max_of_countSerialInt (hU : U ≠ .bool) {b : ℕ}
    (hn : n * (U.bits / 8) + BLOCK_SIZE ≤ 2 ^ 64)
    (h : countSerialInt input b n = toSize (numNotMax input b n)) :
    (numNotMax input b n : ℤ) ≤ U.max := by
  by_contra hgt
  have hle := numNotMax_le input b n
  have hmax := toInt_le_max (U.ofInt (numNotMax input b n))
  rw [countSerialInt_wraps hU, toSize, ← BitVec.ofInt_natCast] at h
  have hd : (2 ^ 64 : ℤ) ∣ U.toInt (U.ofInt (numNotMax input b n)) - numNotMax input b n :=
    dvd_of_ofInt_eq (t := .w64) h
  have hd : (2 ^ 64 : ℤ) ≤ numNotMax input b n - U.toInt (U.ofInt (numNotMax input b n)) := by
    refine Int.le_of_dvd (by omega) ?_
    rw [← Int.neg_sub]
    exact Int.dvd_neg.mpr hd
  have hlow : -(2 ^ (U.bits - 1) : ℤ) ≤ U.toInt (U.ofInt (numNotMax input b n)) := by
    cases U with
    | bool => exact absurd rfl hU
    | unsigned w => exact (neg_nonpos.mpr (by positivity)).trans (Int.natCast_nonneg _)
    | signed w => exact BitVec.le_toInt _
  unfold BLOCK_SIZE at hn
  generalize hm : numNotMax input b n = m at *
  generalize U.toInt (U.ofInt m) = z at *
  have hbits : U.bits = 8 ∨ U.bits = 16 ∨ U.bits = 32 ∨ U.bits = 64 := by
    cases U with
    | bool => exact .inl rfl
    | unsigned w => cases w <;> decide
    | signed w => cases w <;> decide
  rcases hbits with hb | hb | hb | hb <;> rw [hb] at hn hlow <;> omega

/-! ### The count by blocks -/

/-- The counts of the blocks add up. -/
theorem sum_numNotMax (input : ℕ → U.Val) (n : ℕ) :
    ∑ j ∈ Finset.range (numBlocks n), numNotMax input (j * BLOCK_SIZE)
      (blockLen n j) = numNotMax input 0 n := by
  have hcut := sum_blocks (fun i => (notMax (input i)).toNat) (blockStart_mono n)
    (blockStart_zero n) (numBlocks n)
  rw [blockStart_last] at hcut
  simp only [numNotMax, ← sum_toNat, Nat.zero_add]
  rw [← hcut]
  refine Finset.sum_congr rfl fun j hj => ?_
  have hj' := Finset.mem_range.mp hj
  rw [blockLen_eq hj', blockStart_of_lt hj']

theorem numNotMax_block_le (input : ℕ → U.Val) {j : ℕ} (hj : j < numBlocks n) :
    numNotMax input (j * BLOCK_SIZE) (blockLen n j) ≤ numNotMax input 0 n := by
  rw [← sum_numNotMax]
  exact Finset.single_le_sum (f := fun j => numNotMax input (j * BLOCK_SIZE) (blockLen n j))
    (fun _ _ => Nat.zero_le _)
    (Finset.mem_range.mpr hj)

/-- If the count of each block is right, so is their sum. -/
theorem count_eq (hU : U ≠ .bool) (env : CountSchedule) (addr : ℕ)
    (h : ∀ j < numBlocks n, (numNotMax input (j * BLOCK_SIZE) (blockLen n j) : ℤ) ≤ U.max) :
    count env addr input n = toSize (numNotMax input 0 n) := by
  unfold count
  split_ifs with hnb
  · rw [countSerial_int hU]
    refine countSerialInt_of_le hU ?_
    rcases Nat.eq_zero_or_pos (numBlocks n) with h0 | h0
    · rw [← sum_numNotMax, h0]
      exact max_nonneg
    · have hone : numBlocks n = 1 := by omega
      have hsum := sum_numNotMax input n
      rw [hone, Finset.sum_range_one] at hsum
      rw [← hsum]
      exact h 0 h0
  · have hsum := reduceSerial_sum (b := 0) (n := numBlocks n) (adds_plus (w := .w64))
      (countBlocks (env.order (numBlocks n)) addr input n env.fresh) (sizeT.ofInt 0)
    simp only [conv_self] at hsum
    have hzero : (sizeT.ofInt 0 : sizeT.Val) = 0 := rfl
    rw [hsum, hzero, zero_add, ← sum_numNotMax, ← sum_toSize]
    refine Finset.sum_congr rfl fun j hj => ?_
    have hmem : j ∈ env.order (numBlocks n) :=
      (env.perm _).mem_iff.mpr (List.mem_range.mpr (Finset.mem_range.mp hj))
    rw [Nat.zero_add]
    refine (foldl_update _ _ env.fresh j).trans ((if_pos hmem).trans ?_)
    rw [countSerial_int hU, countSerialInt_of_le hU (h j (Finset.mem_range.mp hj))]

/-- A block is not too long for 16 bits. -/
theorem count_wide (hU : U ≠ .bool) (h16 : 16 ≤ U.bits) (env : CountSchedule) (addr : ℕ)
    (input : ℕ → U.Val) (n : ℕ) :
    count env addr input n = toSize (numNotMax input 0 n) := by
  refine count_eq hU env addr fun j hj => ?_
  have hle := numNotMax_le input (j * BLOCK_SIZE) (blockLen n j)
  have hlen := blockLen_le j hj
  have hmax := blockSize_le_max h16
  omega

/-! ### When the counts are right -/

/-- Both functions count the elements that are not the maximum. -/
def CountsRight (env : CountSchedule) (addr : ℕ) (input : ℕ → U.Val) (n : ℕ) : Prop :=
  (countSerial addr input 0 n).toNat = numNotMax input 0 n ∧ (count env addr input n).toNat =
    numNotMax input 0 n

/-- An array none of whose elements is the maximum. -/
theorem numNotMax_zeros (n : ℕ) : numNotMax (fun _ => U.ofInt 0) 0 n = n := by
  refine Nat.count_iff_forall.mpr fun _ _ => ?_
  have hne : U.toInt (U.ofInt 0) ≠ U.max := by
    have hpos : 1 ≤ U.max := one_le_max
    rw [toInt_zero]
    omega
  exact decide_eq_true hne

/-- **The counts are right if and only if the element type holds the number** that is counted; so
for all arrays of `n` elements if and only if it holds `n`. The array is in a memory of `2⁶⁴`
bytes. -/
theorem counts_iff (hU : U ≠ .bool) (hn : n * (U.bits / 8) + BLOCK_SIZE ≤ 2 ^ 64)
    (env : CountSchedule) (addr : ℕ) :
    (∀ input : ℕ → U.Val, CountsRight env addr input n ↔ (numNotMax input 0 n : ℤ) ≤ U.max) ∧
      ((∀ input : ℕ → U.Val, CountsRight env addr input n) ↔ (n : ℤ) ≤ U.max) := by
  have hiff : ∀ input : ℕ → U.Val, CountsRight env addr input n ↔
      (numNotMax input 0 n : ℤ) ≤ U.max := by
    intro input
    have hle := numNotMax_le input 0 n
    have hlt : numNotMax input 0 n < 2 ^ 64 := by
      have hbits : 1 ≤ U.bits / 8 := by
        cases U with
        | bool => decide
        | unsigned w => cases w <;> decide
        | signed w => cases w <;> decide
      have hmul := Nat.le_mul_of_pos_right n hbits
      unfold BLOCK_SIZE at hn
      omega
    constructor
    · rintro ⟨hserial, -⟩
      rw [countSerial_int hU] at hserial
      refine le_max_of_countSerialInt hU hn (BitVec.eq_of_toNat_eq ?_)
      exact hserial.trans (toNat_toSize hlt).symm
    · intro hmax
      refine ⟨?_, ?_⟩
      · rw [countSerial_int hU, countSerialInt_of_le hU hmax, toNat_toSize hlt]
      · rw [count_eq hU env addr fun j hj => ?_, toNat_toSize hlt]
        have hblock := numNotMax_block_le input hj
        omega
  refine ⟨hiff, fun hall => ?_, fun hmax input => (hiff input).mpr ?_⟩
  · have hzeros := (hiff fun _ => U.ofInt 0).mp (hall _)
    rwa [numNotMax_zeros] at hzeros
  · have hle := numNotMax_le input 0 n
    omega

/-- The blocks from the last to the first. -/
def countBackwards : CountSchedule :=
  ⟨fun n => (List.range n).reverse, fun n => (List.range n).reverse_perm, fun _ => 0⟩

/-- 255 bytes are counted, such as zeros. -/
theorem counts_iff_bytes : CountsRight (U := .unsigned .w8) countBackwards 64 (fun _ => 0) 255 :=
  (counts_iff (U := .unsigned .w8) (by decide) (by decide) countBackwards 64).2.mpr
    (by decide) fun _ => 0

/-- 256 bytes that are zero are counted as none; and 65536 words of 16 bits by `countSerial`, but
not by `count`. -/
theorem not_counts_bytes :
    (numNotMax (U := .unsigned .w8) (fun _ => 0) 0 256 = 256 ∧
      countSerial (U := .unsigned .w8) 64 (fun _ => 0) 0 256 = 0 ∧
      count (U := .unsigned .w8) countBackwards 64 (fun _ => 0) 256 = 0) ∧
    countSerial (U := .unsigned .w16) 64 (fun _ => 0) 0 65536 = 0 ∧
      count (U := .unsigned .w16) countBackwards 64 (fun _ => 0) 65536 = 65536 := by
  have hbytes : numNotMax (U := .unsigned .w8) (fun _ => 0) 0 256 = 256 := numNotMax_zeros 256
  have hwords : numNotMax (U := .unsigned .w16) (fun _ => 0) 0 65536 = 65536 :=
    numNotMax_zeros 65536
  have hserial : countSerial (U := .unsigned .w8) 64 (fun _ => 0) 0 256 = 0 := by
    rw [countSerial_int (by decide), countSerialInt_wraps (by decide), hbytes]
    rfl
  refine ⟨⟨hbytes, hserial, (if_pos (by decide)).trans hserial⟩, ?_, ?_⟩
  · rw [countSerial_int (by decide), countSerialInt_wraps (by decide), hwords]
    rfl
  · rw [count_wide (by decide) (by decide), hwords]
    rfl

end NetworkDemo.GangUtil
