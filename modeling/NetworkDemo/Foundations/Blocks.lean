import Mathlib.Algebra.BigOperators.Group.Finset.Basic
import Mathlib.Algebra.BigOperators.Intervals

/-!
# Prefix sums by blocks

The indices below `n` are cut into consecutive blocks, block `j` reaching from the cut
point `c j` to `c (j + 1)`. A sum over all indices is the sum of the sums over the
blocks (`sum_blocks`). A prefix sum at an index of block `j` is the sum over the blocks
before `j` and a prefix sum within block `j` (`sum_before_blocks`), where *before* is
taken in one of four senses: up to the index or from it on, and with it or without.
-/

namespace NetworkDemo.Foundations

open Finset

universe u

variable {M : Type u} [AddCommMonoid M] {c : ℕ → ℕ}

/-- The indices below `n` that come before `i`: from the end when `back`, and with `i` itself when
`inclusive`. -/
def before (n : ℕ) (inclusive back : Bool) (i : ℕ) : Finset ℕ :=
  (range n).filter fun k => (if back = true then i < k else k < i) ∨ inclusive = true ∧ k = i

theorem sum_blocks (g : ℕ → M) (hc : Monotone c) (h0 : c 0 = 0) (n : ℕ) :
    ∑ j ∈ range n, ∑ k ∈ range (c (j + 1) - c j), g (c j + k) = ∑ k ∈ range (c n), g k := by
  induction n with
  | zero => simp [h0]
  | succ n ih =>
    have hle : c n ≤ c (n + 1) := hc n.le_succ
    rw [sum_range_succ, ih, ← sum_range_add, Nat.add_sub_cancel' hle]

/-- The blocks one after the other are all the indices. -/
theorem flatMap_blocks (hc : Monotone c) (h0 : c 0 = 0) (n : ℕ) :
    (List.range n).flatMap (fun j => List.range' (c j) (c (j + 1) - c j)) = List.range (c n) := by
  induction n with
  | zero => simp [h0]
  | succ n ih =>
    have hle : c n ≤ c (n + 1) := hc n.le_succ
    have happ := List.range'_append_1 (s := 0) (m := c n) (n := c (n + 1) - c n)
    rw [Nat.zero_add, Nat.add_sub_cancel' hle, ← List.range_eq_range', ← List.range_eq_range']
      at happ
    rw [List.range_succ, List.flatMap_append, ih, List.flatMap_singleton, happ]

/-- An index of another block comes before `i` if its block comes before that of `i`. -/
theorem mem_before_blocks (hc : Monotone c) {n inclusive back : _} {i j i' j' : ℕ}
    (hi : i < c (j + 1) - c j) (hi' : i' < c (j' + 1) - c j') (hn : c j' + i' < n) (hne : j' ≠ j) :
    c j' + i' ∈ before n inclusive back (c j + i) ↔ if back = true then j < j' else j' < j := by
  have hlt : j' < j → c (j' + 1) ≤ c j := fun h => hc h
  have hgt : j < j' → c (j + 1) ≤ c j' := fun h => hc h
  simp only [before, mem_filter, mem_range, hn, true_and]
  cases back <;> rcases Nat.lt_or_gt_of_ne hne with h | h
  · have := hlt h
    simp only [Bool.false_eq_true, if_false]
    omega
  · have := hgt h
    simp only [Bool.false_eq_true, if_false]
    omega
  · have := hlt h
    simp only [if_true]
    omega
  · have := hgt h
    simp only [if_true]
    omega

/-- Within one block the sense of *before* is that of the offsets. -/
theorem mem_before_add {n len a i k : ℕ} {inclusive back : Bool} (hk : k < len) (hn : a + k < n) :
    a + k ∈ before n inclusive back (a + i) ↔ k ∈ before len inclusive back i := by
  simp [before, hk, hn]

/-- **A prefix sum by blocks.** -/
theorem sum_before_blocks (g : ℕ → M) (inclusive back : Bool) (hc : Monotone c) (h0 : c 0 = 0)
    {n i j : ℕ} (hj : j < n) (hi : i < c (j + 1) - c j) :
    ∑ k ∈ before (c n) inclusive back (c j + i), g k =
      ∑ j' ∈ before n false back j, ∑ k ∈ range (c (j' + 1) - c j'), g (c j' + k) +
        ∑ k ∈ before (c (j + 1) - c j) inclusive back i, g (c j + k) := by
  -- the sum over all indices, with zero for those that do not come before
  have hall : ∑ k ∈ before (c n) inclusive back (c j + i), g k = ∑ j' ∈ range n,
      ∑ k ∈ range (c (j' + 1) - c j'),
      if c j' + k ∈ before (c n) inclusive back (c j + i) then g (c j' + k) else 0 := by
    rw [sum_blocks (fun k => if k ∈ before (c n) inclusive back (c j + i) then g k else 0) hc h0,
      ← sum_filter]
    refine sum_congr ?_ fun _ _ => rfl
    ext k
    simp [before]
  -- a block counts whole or not at all, but for block `j`
  have hblock : ∀ j' ∈ range n, (∑ k ∈ range (c (j' + 1) - c j'),
      if c j' + k ∈ before (c n) inclusive back (c j + i) then g (c j' + k) else 0) =
      (if j' ∈ before n false back j then ∑ k ∈ range (c (j' + 1) - c j'), g (c j' + k) else 0) +
        if j' = j then ∑ k ∈ before (c (j + 1) - c j) inclusive back i, g (c j + k) else 0 := by
    intro j' hj'
    have hlt : ∀ k ∈ range (c (j' + 1) - c j'), c j' + k < c n := fun k hk => by
      have : c (j' + 1) ≤ c n := hc (mem_range.mp hj')
      have := mem_range.mp hk
      omega
    by_cases hjj : j' = j
    · subst hjj
      have hnot : j' ∉ before n false back j' := by
        cases back <;> simp [before]
      rw [if_neg hnot, if_pos rfl, zero_add, ← sum_filter]
      refine sum_congr ?_ fun _ _ => rfl
      ext k
      rw [mem_filter]
      constructor
      · rintro ⟨hk, hm⟩
        exact (mem_before_add (mem_range.mp hk) (hlt k hk)).mp hm
      · intro hm
        have hk : k ∈ range (c (j' + 1) - c j') := (mem_filter.mp hm).1
        exact ⟨hk, (mem_before_add (mem_range.mp hk) (hlt k hk)).mpr hm⟩
    · rw [if_neg hjj, add_zero]
      have hmem : j' ∈ before n false back j ↔ if back = true then j < j' else j' < j := by
        simp [before, mem_range.mp hj']
      split_ifs with hb
      · exact sum_congr rfl fun k hk => if_pos
          ((mem_before_blocks hc hi (mem_range.mp hk) (hlt k hk) hjj).mpr (hmem.mp hb))
      · exact sum_eq_zero fun k hk => if_neg fun hm =>
          hb (hmem.mpr ((mem_before_blocks hc hi (mem_range.mp hk) (hlt k hk) hjj).mp hm))
  rw [hall, sum_congr rfl hblock, sum_add_distrib, ← sum_filter, sum_ite_eq',
    if_pos (mem_range.mpr hj)]
  congr 1
  refine sum_congr ?_ fun _ _ => rfl
  ext j'
  simp [before]

end NetworkDemo.Foundations
