import NetworkDemo.Foundations.Lanes
import NetworkDemo.GangUtil.Scan

/-!
# Counting what is selected

A flag array is of `bool`, and `true` selects, or of another integer type, and all but
its maximum select. `countSerial` counts what is selected, for an integer type by
`reduceSerial` with a function that adds one. For `bool` it adds up 128 words at a time
and then the bytes of the sum; which word goes by the length and the address of the
array (`countSerialBool`).

* `countSerialBool_eq` — every way of counting flags is counting them.
* `countSerialInt_eq` — the count of an integer array, as long as its type holds it.
-/

namespace NetworkDemo.GangUtil

open Foundations CTy

/-- A number as a `size_t`. -/
def toSize (n : ℕ) : sizeT.Val := BitVec.ofNat _ n

theorem toSize_add (m n : ℕ) : toSize (m + n) = toSize m + toSize n := BitVec.ofNat_add ..

theorem toNat_toSize {n : ℕ} (h : n < 2 ^ 64) : (toSize n).toNat = n := by
  rw [toSize, BitVec.toNat_ofNat]
  exact Nat.mod_eq_of_lt h

/-! ### Flags -/

/-- `in[i] != std::numeric_limits<U>::max()`. -/
def notMax {U : CTy} (x : U.Val) : Bool := decide (U.toInt x ≠ U.max)

/-- What selects, of either kind. -/
def selected : {U : CTy} → U.Val → Bool
  | .bool, x => x
  | .unsigned _, x => notMax x
  | .signed _, x => notMax x

/-- The function `countSerial` folds with. -/
def countStep {U : CTy} (a b : U.Val) : U.Val :=
  U.ofInt (U.toInt a + if U.toInt b = U.max then 0 else 1)

/-- `countSerial(in + b, n)` for an integer type. -/
def countSerialInt {U : CTy} (input : ℕ → U.Val) (b n : ℕ) : sizeT.Val :=
  conv sizeT (reduceSerial (P := U) countStep input b n (U.ofInt 0))

/-! ### Arrays of `bool` -/

/-- The word of `L` bytes at place `i` of the words of the array. -/
def boolWord (L : ℕ) (input : ℕ → Bool) (i : ℕ) : ℕ :=
  ofLanes 8 (fun b => (input (i * L + b)).toNat) L

/-- The bytes of a word of `L` bytes, added up. -/
def addBytes (L rr : ℕ) : ℕ := ((List.range L).map fun b => (rr >>> (8 * b)) &&& 255).sum

/-- Counting with words of `L` bytes, 128 of them at a time. -/
def countWords (L : ℕ) (input : ℕ → Bool) (n : ℕ) : sizeT.Val :=
  (List.range (n / (128 * L))).foldl (fun r k =>
    let rr :=
      (List.range 128).foldl (fun rr j => (rr + boolWord L input (k * 128 + j)) % 2 ^ (8 * L)) 0
    r + toSize (addBytes L rr)) 0

/-- `countSerial(in, n)` for an array of `bool` at address `addr`. -/
def countSerialBool (addr : ℕ) (input : ℕ → Bool) (n : ℕ) : sizeT.Val :=
  if n &&& 1023 = 0 ∧ addr &&& 7 = 0 then countWords 8 input n
  else if n &&& 511 = 0 ∧ addr &&& 3 = 0 then countWords 4 input n
  else if n &&& 255 = 0 ∧ addr &&& 1 = 0 then countWords 2 input n
  else (List.range n).foldl (fun r j => r + toSize (input j).toNat) 0

/-- `countSerial(&in[b], n)`, the overload by the type, the array at address `addr`. -/
def countSerial : {U : CTy} → (addr : ℕ) → (input : ℕ → U.Val) → (b n : ℕ) → sizeT.Val
  | .bool, addr, input, b, n => countSerialBool (addr + b) (fun i => input (b + i)) n
  | .unsigned _, _, input, b, n => countSerialInt input b n
  | .signed _, _, input, b, n => countSerialInt input b n

/-! ### What they count -/

theorem foldl_count (input : ℕ → Bool) (n : ℕ) :
    (List.range n).foldl (fun r j => r + toSize (input j).toNat) 0 =
      toSize (Nat.count (fun i => input i = true) n) := by
  induction n with
  | zero => rfl
  | succ n ih =>
    rw [List.range_succ, List.foldl_append, ih, Nat.count_succ, toSize_add]
    cases hn : input n <;> simp [hn]

/-- One turn: 128 words hold no more than 128 in a byte. -/
theorem addBytes_chunk (L : ℕ) (input : ℕ → Bool) (k : ℕ) :
    addBytes L
      ((List.range 128).foldl (fun rr j => (rr + boolWord L input (k * 128 + j)) % 2 ^ (8 * L)) 0) =
      Nat.count (fun i => input (k * (128 * L) + i) = true) (128 * L) := by
  have hsum :=
    sum_chunk (w := 8) (L := L) (m := 128) (fun i => input (k * (128 * L) + i)) (by decide)
  rw [← hsum, foldl_add_mod]
  unfold addBytes boolWord
  have hplace : ∀ j b, (k * 128 + j) * L + b = k * (128 * L) + (j * L + b) := fun j b => by ring
  simp only [hplace]
  rfl

theorem countWords_eq {L n : ℕ} (input : ℕ → Bool) (hn : 128 * L ∣ n) :
    countWords L input n = toSize (Nat.count (fun i => input i = true) n) := by
  have hall : ∀ m, (List.range m).foldl (fun r k =>
      r + toSize (Nat.count (fun i => input (k * (128 * L) + i) = true) (128 * L))) 0 =
        toSize (Nat.count (fun i => input i = true) (m * (128 * L))) := by
    intro m
    induction m with
    | zero => simp [toSize]
    | succ m ih =>
      rw [List.range_succ, List.foldl_append, ih, Nat.succ_mul m, Nat.count_add, toSize_add]
      rfl
  unfold countWords
  simp only [addBytes_chunk]
  rw [hall, Nat.div_mul_cancel hn]

theorem dvd_of_and {k : ℕ} {n : ℕ} (h : n &&& (2 ^ k - 1) = 0) : 2 ^ k ∣ n := by
  rw [Nat.and_two_pow_sub_one_eq_mod] at h
  exact Nat.dvd_of_mod_eq_zero h

/-- **The flags are counted**, whichever way. -/
theorem countSerialBool_eq (addr : ℕ) (input : ℕ → Bool) (n : ℕ) :
    countSerialBool addr input n = toSize (Nat.count (fun i => input i = true) n) := by
  unfold countSerialBool
  split_ifs with h8 h4 h2
  · exact countWords_eq input (dvd_of_and (k := 10) h8.1)
  · exact countWords_eq input (dvd_of_and (k := 9) h4.1)
  · exact countWords_eq input (dvd_of_and (k := 8) h2.1)
  · exact foldl_count input n

section Int

variable {U : CTy} (input : ℕ → U.Val) (b : ℕ)

/-- The count so far, as long as `U` holds it. -/
theorem toInt_countStep {n : ℕ} (hn : (n : ℤ) ≤ U.max) :
    U.toInt (reduceSerial (P := U) countStep input b n (U.ofInt 0)) = Nat.count
      (fun i => notMax (input (b + i)) = true) n := by
  unfold reduceSerial
  rw [conv_self]
  induction n with
  | zero => exact toInt_zero
  | succ n ih =>
    have hle : Nat.count (fun i => notMax (input (b + i)) = true) (n + 1) ≤ n + 1 := Nat.count_le _
    rw [Nat.count_succ] at hle ⊢
    push_cast at hn
    rw [List.range_succ, List.foldl_append]
    show U.toInt (call countStep _ (input (b + n))) = _
    rw [call_self, countStep, ih (by omega), toInt_ofInt]
    · by_cases h : U.toInt (input (b + n)) = U.max <;> simp [notMax, h]
    · split_ifs <;> omega
    · by_cases h : U.toInt (input (b + n)) = U.max <;> simp [notMax, h] at hle ⊢ <;> omega

/-- **An integer array is counted**, as long as its type holds the count. -/
theorem countSerialInt_eq {n : ℕ} (hn : (n : ℤ) ≤ U.max) :
    countSerialInt input b n = toSize (Nat.count (fun i => notMax (input (b + i)) = true) n) := by
  unfold countSerialInt conv
  rw [toInt_countStep input b hn]
  exact BitVec.ofInt_natCast _ _

end Int

/-- Both overloads: `U` is `bool`, or holds the length of the array. -/
theorem countSerial_eq {U : CTy} (addr : ℕ) (input : ℕ → U.Val) (b : ℕ) {n : ℕ}
    (h : U = .bool ∨ (n : ℤ) ≤ U.max) :
    countSerial addr input b n = toSize
      (Nat.count (fun i => selected (input (b + i)) = true) n) := by
  cases U with
  | bool => exact countSerialBool_eq _ _ _
  | unsigned w => exact countSerialInt_eq input b (h.resolve_left (by simp))
  | signed w => exact countSerialInt_eq input b (h.resolve_left (by simp))

end NetworkDemo.GangUtil
