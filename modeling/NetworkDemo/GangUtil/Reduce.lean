import NetworkDemo.GangUtil.Scan

/-!
# The parallel reduction

`GangUtil::reduce` folds an array with `f` from `zero`. An array of more than
`BLOCK_SIZE` elements is done by blocks: each block is reduced, from `zero`, and then
the array of their results, by the same function.

The elements are of any type. `f` is on that type, as the templates' `F` is when `T`
and `Z` are one (at an integer type `reduceSerial_eq` gives the function the scan uses).
The blocks of one level are reduced in any order.

* `foldl_block` — a fold from any value is that value and the fold from `zero`.
* `reduce_eq_serial` — the blocked reduction is the serial one.
-/

namespace NetworkDemo.GangUtil.Reduce

open Foundations

variable {α : Type}

/-- `reduceSerial(arr + b, n, zero, f)`. -/
def reduceSerial (f : α → α → α) (arr : ℕ → α) (b n : ℕ) (zero : α) : α :=
  (List.range n).foldl (fun r i => f r (arr (b + i))) zero

/-- The order the blocks of an array are reduced in, at each depth of the recursion, and what is in
the memory for `sums`. -/
structure ReduceSchedule (α : Type) where
  order : ℕ → ℕ → List ℕ
  perm : ∀ depth n, (order depth n).Perm (List.range n)
  fresh : ℕ → ℕ → α

/-- The `groupSubmit` of `reduce`: `sums[j]` becomes the reduction of block `j`. -/
def reduceBlocks (order : List ℕ) (f : α → α → α) (arr : ℕ → α) (n : ℕ) (zero : α) (sums : ℕ → α) :
    ℕ → α :=
  groupSubmit order (fun j sums => Function.update sums j
    (reduceSerial f arr (j * BLOCK_SIZE) (blockLen n j) zero)) sums

/-- `reduce(arr, n, zero, f)`, at a depth of the recursion. -/
def reduce (env : ReduceSchedule α) (f : α → α → α) (zero : α) (depth : ℕ) (arr : ℕ → α) (n : ℕ) :
    α :=
  if h : numBlocks n ≤ 1 then reduceSerial f arr 0 n zero
  else
    have : numBlocks n < n := numBlocks_lt h
    reduce env f zero (depth + 1)
      (reduceBlocks (env.order depth (numBlocks n)) f arr n zero (env.fresh depth)) (numBlocks n)
  termination_by n
  decreasing_by exact this

/-- The scan's function of this name, at one type. -/
theorem reduceSerial_eq {τ : CTy} (f : τ.Val → τ.Val → τ.Val) (arr : ℕ → τ.Val) (b n : ℕ)
    (zero : τ.Val) :
    GangUtil.reduceSerial f arr b n zero = reduceSerial f arr b n zero := by
  unfold GangUtil.reduceSerial reduceSerial
  simp only [call_self, conv_self]

theorem reduce_serial {env : ReduceSchedule α} {f : α → α → α} {zero : α} {depth n : ℕ}
    {arr : ℕ → α} (h : numBlocks n ≤ 1) :
    reduce env f zero depth arr n = reduceSerial f arr 0 n zero := by
  rw [reduce, dif_pos h]

theorem reduce_blocks {env : ReduceSchedule α} {f : α → α → α} {zero : α} {depth n : ℕ}
    {arr : ℕ → α} (h : ¬ numBlocks n ≤ 1) :
    reduce env f zero depth arr n = reduce env f zero (depth + 1)
      (reduceBlocks (env.order depth (numBlocks n)) f arr n zero (env.fresh depth))
        (numBlocks n) := by
  rw [reduce, dif_neg h]

section Fold

variable {f : α → α → α} {zero : α} [Std.Associative f] [Std.LawfulIdentity f zero]

/-- A fold from `r` is `r` and the fold from `zero`. -/
theorem foldl_block (zero : α) [Std.LawfulIdentity f zero] (x : ℕ → α) (r : α) (is : List ℕ) :
    is.foldl (fun r i => f r (x i)) r = f r (is.foldl (fun r i => f r (x i)) zero) := by
  induction is generalizing r with
  | nil => exact (Std.LawfulRightIdentity.right_id r).symm
  | cons i is ih =>
    have hid : f zero (x i) = x i := Std.LawfulLeftIdentity.left_id (x i)
    have hassoc : ∀ a b c, f (f a b) c = f a (f b c) := Std.Associative.assoc
    rw [List.foldl_cons, List.foldl_cons, ih (f r (x i)), ih (f zero (x i)), hid, hassoc]

/-- **A fold by blocks**, each from `zero`. -/
theorem foldl_blocks (x : ℕ → α) (n : ℕ) : (List.range (numBlocks n)).foldl (fun r j =>
    f r (reduceSerial f x (j * BLOCK_SIZE) (blockLen n j) zero)) zero =
      reduceSerial f x 0 n zero := by
  have hall : reduceSerial f x 0 n zero = ((List.range (numBlocks n)).flatMap fun j =>
      List.range' (blockStart n j) (blockStart n (j + 1) - blockStart n j)).foldl (fun r i =>
        f r (x i)) zero := by
    rw [flatMap_blocks (blockStart_mono n) (blockStart_zero n), blockStart_last]
    simp only [reduceSerial, Nat.zero_add]
  rw [hall, List.foldl_flatMap]
  refine List.foldl_ext _ _ _ fun r j hj => ?_
  have hj' := List.mem_range.mp hj
  rw [foldl_block zero x r, ← blockLen_eq hj', blockStart_of_lt hj', List.range'_eq_map_range,
    List.foldl_map]
  rfl

/-- **The blocked reduction is the serial one**, and every level has fewer elements than the one
before. -/
theorem reduce_eq_serial (env : ReduceSchedule α) (depth : ℕ) (arr : ℕ → α) (n : ℕ) :
    reduce env f zero depth arr n = reduceSerial f arr 0 n zero ∧ ∀ m, 1 < numBlocks m →
    numBlocks m < m := by
  refine ⟨?_, fun m hm => numBlocks_lt (not_le.mpr hm)⟩
  induction n using Nat.strong_induction_on generalizing depth arr with
  | _ n ih =>
    by_cases hnb : numBlocks n ≤ 1
    · exact reduce_serial hnb
    · rw [reduce_blocks hnb, ih (numBlocks n) (numBlocks_lt hnb), ← foldl_blocks arr n]
      refine List.foldl_ext _ _ _ fun r j hj => ?_
      have hmem : j ∈ env.order depth (numBlocks n) := (env.perm depth (numBlocks n)).mem_iff.mpr hj
      rw [Nat.zero_add, reduceBlocks, groupSubmit, foldl_update, if_pos hmem]

end Fold

/-- The second of two numbers, or the first if the second is zero: associative, with identity zero,
and not commutative. -/
def latest (x y : BitVec 32) : BitVec 32 := if y = 0 then x else y

instance : Std.Associative latest where
  assoc x y z := by
    unfold latest
    split_ifs with hz hy
    · rfl
    · rfl
    · rfl

instance : Std.LawfulIdentity latest 0 where
  left_id x := by
    unfold latest
    split_ifs with hx
    · exact hx.symm
    · rfl
  right_id _ := if_pos rfl

/-- The latest of five thousand numbers. -/
theorem reduce_eq_serial_latest :
    reduce ⟨fun _ n => List.range n, fun _ _ => .refl _, fun _ _ => 7⟩ latest 0 0
      (BitVec.ofNat 32) 5000 =
        reduceSerial latest (BitVec.ofNat 32) 0 5000 0 ∧ ∀ m, 1 < numBlocks m → numBlocks m < m :=
  reduce_eq_serial _ 0 (BitVec.ofNat 32) 5000

end NetworkDemo.GangUtil.Reduce
