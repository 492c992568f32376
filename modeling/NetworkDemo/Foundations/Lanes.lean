import NetworkDemo.Foundations.Blocks
import Mathlib.Algebra.BigOperators.Ring.Finset
import Mathlib.Algebra.Order.BigOperators.Group.Finset
import Mathlib.Data.Nat.Count
import Mathlib.Tactic.Ring

/-!
# Counting in lanes

A word can be taken as lanes of `w` bits. Words are added lane by lane as long as no
lane overflows, and then a shift and a mask give the lane's sum (`ofLanes_lane`). So
flags can be counted by adding up words of them, a byte for each flag (`sum_chunk`).
-/

namespace NetworkDemo.Foundations

open Finset

variable {w L : ℕ} {c : ℕ → ℕ}

/-- The word of `L` lanes of `w` bits, with `c b` in lane `b`. -/
def ofLanes (w : ℕ) (c : ℕ → ℕ) (L : ℕ) : ℕ := ∑ b ∈ range L, c b * 2 ^ (w * b)

theorem ofLanes_succ : ofLanes w c (L + 1) = c 0 + 2 ^ w * ofLanes w (fun b => c (b + 1)) L := by
  rw [ofLanes, sum_range_succ', ofLanes, mul_sum, add_comm]
  congr 1
  · simp
  · refine sum_congr rfl fun b _ => ?_
    rw [Nat.mul_succ, pow_add]
    ring

/-- Words are added lane by lane. -/
theorem sum_ofLanes (c : ℕ → ℕ → ℕ) (s : Finset ℕ) :
    ∑ j ∈ s, ofLanes w (c j) L = ofLanes w (fun b => ∑ j ∈ s, c j b) L := by
  unfold ofLanes
  rw [sum_comm]
  exact sum_congr rfl fun b _ => (sum_mul ..).symm

theorem ofLanes_lt (h : ∀ b < L, c b < 2 ^ w) : ofLanes w c L < 2 ^ (w * L) := by
  induction L generalizing c with
  | zero => simp [ofLanes]
  | succ L ih =>
    have h0 := h 0 L.succ_pos
    have hrest := ih (c := fun b => c (b + 1)) fun b hb => h (b + 1) (Nat.succ_lt_succ hb)
    rw [ofLanes_succ, Nat.mul_succ, pow_add, mul_comm (2 ^ (w * L))]
    calc c 0 + 2 ^ w * ofLanes w (fun b => c (b + 1)) L
        < 2 ^ w * (ofLanes w (fun b => c (b + 1)) L + 1) := by rw [Nat.mul_succ]; omega
      _ ≤ 2 ^ w * 2 ^ (w * L) := Nat.mul_le_mul_left _ hrest

theorem ofLanes_low (h : c 0 < 2 ^ w) : ofLanes w c (L + 1) % 2 ^ w = c 0 := by
  rw [ofLanes_succ, Nat.add_mul_mod_self_left]
  exact Nat.mod_eq_of_lt h

theorem ofLanes_shift (h : c 0 < 2 ^ w) :
    ofLanes w c (L + 1) >>> w = ofLanes w (fun b => c (b + 1)) L := by
  rw [Nat.shiftRight_eq_div_pow, ofLanes_succ, Nat.add_mul_div_left _ _ (Nat.two_pow_pos w),
    Nat.div_eq_of_lt h]
  exact Nat.zero_add _

/-- **A lane by shift and mask.** -/
theorem ofLanes_lane (h : ∀ b < L, c b < 2 ^ w) {b : ℕ} (hb : b < L) :
    (ofLanes w c L >>> (w * b)) &&& (2 ^ w - 1) = c b := by
  rw [Nat.and_two_pow_sub_one_eq_mod]
  induction L generalizing c b with
  | zero => cases hb
  | succ L ih =>
    have h0 := h 0 L.succ_pos
    cases b with
    | zero => exact ofLanes_low h0
    | succ b =>
      rw [Nat.mul_succ, add_comm (w * b), Nat.shiftRight_add, ofLanes_shift h0]
      exact ih (fun b hb => h (b + 1) (Nat.succ_lt_succ hb)) (Nat.lt_of_succ_lt_succ hb)

/-- Adding up words that wrap. -/
theorem foldl_add_mod (v : ℕ → ℕ) (k n : ℕ) :
    (List.range n).foldl (fun r j => (r + v j) % k) 0 = (∑ j ∈ range n, v j) % k := by
  induction n with
  | zero => simp
  | succ n ih =>
    rw [List.range_succ, List.foldl_append, ih, sum_range_succ]
    exact Nat.mod_add_mod _ _ _

theorem sum_toNat (a : ℕ → Bool) (n : ℕ) :
    ∑ i ∈ range n, (a i).toNat = Nat.count (fun i => a i = true) n := by
  induction n with
  | zero => simp
  | succ n ih =>
    rw [sum_range_succ, ih, Nat.count_succ]
    cases a n <;> rfl

/-- The flags of `m` words of `L` flags, counted by adding up the words: no lane overflows if it
holds `m`. -/
theorem sum_chunk (a : ℕ → Bool) {m : ℕ} (hm : m < 2 ^ w) :
    ((List.range L).map fun b =>
      ((∑ j ∈ range m, ofLanes w (fun b => (a (j * L + b)).toNat) L) % 2 ^ (w * L)) >>> (w * b)
      &&& (2 ^ w - 1)).sum = Nat.count (fun i => a i = true) (m * L) := by
  have hlane : ∀ b < L, ∑ j ∈ range m, (a (j * L + b)).toNat < 2 ^ w := fun b _ => by
    have hle : ∑ j ∈ range m, (a (j * L + b)).toNat ≤ ∑ j ∈ range m, 1 :=
      sum_le_sum fun j _ => Bool.toNat_le _
    rw [sum_const, card_range, Nat.nsmul_eq_mul, Nat.mul_one] at hle
    exact hle.trans_lt hm
  rw [sum_ofLanes, Nat.mod_eq_of_lt (ofLanes_lt hlane),
    List.map_congr_left fun b hb => ofLanes_lane hlane (List.mem_range.mp hb),
      ← List.sum_toFinset _ List.nodup_range,
    List.toFinset_range, sum_comm, ← sum_toNat]
  have hcut :=
    sum_blocks (c := fun j => j * L) (fun i => (a i).toNat) (fun i j h => Nat.mul_le_mul_right L h)
    (Nat.zero_mul L) m
  simp only [Nat.succ_mul, Nat.add_sub_cancel_left] at hcut
  exact hcut

end NetworkDemo.Foundations
