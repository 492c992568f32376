import NetworkDemo.GangUtil.Scan

/-!
# The scan of mixed widths

`scan(out, in, n, (Z)0)` adds up elements of an unsigned type `U` into an array of an
unsigned type `T` at least as wide. The running values are of type `Z`, or of type `T`
within the blocks, and the sums of the blocks are made in `U`.

So an array of one block comes out right when `Z` is as wide as `T`, or else when the
sum cannot exceed the maximum of `Z`; and a longer one when `Z` is as wide as `T` and
`U` is `T`. In all other cases some input comes out wrong (`scansWide_iff`).
-/

namespace NetworkDemo.GangUtil

open Foundations CTy

/-- The scan of `n` elements of type `U` is the one of the elements widened to the unsigned type of
width `t`. -/
def ScansWide (t : Width) (U Z : CTy) (n : ℕ) : Prop :=
  ∀ (env : Schedule (.unsigned t)) (input : Reader (.unsigned t) U) (out : ℕ → (unsigned t).Val),
    PrefixSums (fun k => conv (.unsigned t) (input.read out k)) 0 n false false out
      (scanPlus env (Z.ofInt 0) input n out)

section Widths

variable {t : Width} {U Z : CTy} {n : ℕ}

theorem call_plus (r : Z.Val) (x : U.Val) :
    call (plus (.unsigned t)) r x = conv Z (conv (.unsigned t) r + conv (.unsigned t) x :
      (unsigned t).Val) := by
  rw [call, plus_unsigned]

/-! ### Wide running values -/

theorem adds_wide (h : Wide Z t) : Adds (plus (.unsigned t)) (.unsigned t) Z U := fun r x => by
  rw [call_plus, conv_conv_wide h]

theorem scansWide_serial (h : Wide Z t) (hn : numBlocks n ≤ 1) : ScansWide t U Z n := by
  intro env input out
  have hs : PrefixSums _ (conv (.unsigned t) (Z.ofInt 0)) n false false out
      (scanSerial (plus (.unsigned t)) input 0 n (Z.ofInt 0) false false out) :=
        prefixSums_serial (adds_wide h)
  rw [conv_zero] at hs
  rw [scanPlus, scan_serial hn]
  exact hs

theorem scanAdds_wide (h : Wide Z t) :
    ScanAdds (plus (.unsigned t)) (.unsigned t) Z (.unsigned t) :=
  ⟨adds_wide h, adds_plus, adds_plus, conv_self _⟩

theorem scansWide_same (h : Wide Z t) : ScansWide t (.unsigned t) Z n := by
  intro env input out
  have hs := scan_sums env (scanAdds_wide h) (scanAdds_wide h) input (Z.ofInt 0) false 0 n false out
  rw [conv_zero] at hs
  exact hs

/-! ### Narrow running values -/

/-- While the sum is within `Z`, taking an element in is exact. -/
theorem toInt_call (hU : U.isUnsigned = true) (hUt : U.max ≤ (unsigned t).max) (hZ : ¬ Wide Z t)
    {r : Z.Val} {x : U.Val} (h0 : 0 ≤ Z.toInt r) (hs : Z.toInt r + U.toInt x ≤ (unsigned t).max) :
    call (plus (.unsigned t)) r x = Z.ofInt (Z.toInt r + U.toInt x) := by
  have hx := toInt_nonneg hU x
  have hr : (unsigned t).toInt (conv (.unsigned t) r) = Z.toInt r := by
    refine toInt_conv h0 ?_
    have := toInt_le_max r
    have := max_lt_of_not_wide hZ
    omega
  have hx' : (unsigned t).toInt (conv (.unsigned t) x) = U.toInt x :=
    toInt_conv hx ((toInt_le_max x).trans hUt)
  rw [call, plus, hr, hx', conv, toInt_ofInt (by omega) hs]

theorem sum_nonneg (hU : U.isUnsigned = true) (x : ℕ → U.Val) (is : List ℕ) :
    0 ≤ (is.map fun i => U.toInt (x i)).sum :=
  List.sum_nonneg fun z hz => by
    obtain ⟨i, -, rfl⟩ := List.mem_map.mp hz
    exact toInt_nonneg hU _

/-- While the sum is within `Z`, the fold is exact. -/
theorem toInt_fold (hU : U.isUnsigned = true) (hUt : U.max ≤ (unsigned t).max) (hZ : ¬ Wide Z t)
    (x : ℕ → U.Val) {r : Z.Val} {is : List ℕ} (h0 : 0 ≤ Z.toInt r)
    (hs : Z.toInt r + (is.map fun i => U.toInt (x i)).sum ≤ Z.max) :
    Z.toInt (fold (plus (.unsigned t)) x r is) = Z.toInt r +
      (is.map fun i => U.toInt (x i)).sum := by
  induction is generalizing r with
  | nil => simp [fold]
  | cons i is ih =>
    rw [List.map_cons, List.sum_cons] at hs ⊢
    have hi := toInt_nonneg hU (x i)
    have hrest := sum_nonneg hU x is
    have hmax := max_lt_of_not_wide hZ
    have hcall : Z.toInt (call (plus (.unsigned t)) r (x i)) = Z.toInt r + U.toInt (x i) := by
      rw [toInt_call hU hUt hZ h0 (by omega), toInt_ofInt (by omega) (by omega)]
    have := ih (r := call (plus (.unsigned t)) r (x i)) (by omega) (by omega)
    rw [hcall] at this
    rw [← add_assoc, ← this]
    rfl

theorem ofInt_list_sum (g : ℕ → ℤ) (is : List ℕ) :
    (unsigned t).ofInt (is.map g).sum = (is.map fun i => (unsigned t).ofInt (g i)).sum := by
  induction is with
  | nil => rfl
  | cons i is ih => rw [List.map_cons, List.map_cons, List.sum_cons, List.sum_cons, ofInt_add, ih]

/-- The fold of so few elements that their sum is within `Z`. -/
theorem fold_few (hU : U.isUnsigned = true) (hUt : U.max ≤ (unsigned t).max) (hZ : ¬ Wide Z t)
    (hn : n * U.max ≤ Z.max) (x : ℕ → U.Val) {is : List ℕ} (hd : is.Nodup) {S : Finset ℕ}
    (hS : ∀ k, k ∈ is ↔ k ∈ S) (hSn : S ⊆ Finset.range n) :
    conv (.unsigned t) (fold (plus (.unsigned t)) x (Z.ofInt 0) is) = 0 + ∑ k ∈ S, conv
      (.unsigned t) (x k) := by
  have hset : is.toFinset = S := by
    ext k
    rw [List.mem_toFinset, hS]
  have hlen : is.length ≤ n := by
    have := Finset.card_le_card hSn
    rwa [← hset, List.toFinset_card_of_nodup hd, Finset.card_range] at this
  have hle : (is.map fun i => U.toInt (x i)).sum ≤ is.length * U.max := by
    have := List.sum_le_card_nsmul (is.map fun i => U.toInt (x i)) U.max fun z hz => by
      obtain ⟨i, -, rfl⟩ := List.mem_map.mp hz
      exact toInt_le_max _
    simpa using this
  have hmul : (is.length : ℤ) * U.max ≤ n * U.max := by
    have := @max_nonneg U
    gcongr
  have hfold : Z.toInt (fold (plus (.unsigned t)) x (Z.ofInt 0) is) = _ :=
    toInt_fold hU hUt hZ x toInt_zero.ge (by rw [toInt_zero]; omega)
  rw [conv, hfold, toInt_zero, zero_add, zero_add, ofInt_list_sum, ← List.sum_toFinset _ hd, hset]
  rfl

theorem scansWide_few (hU : U.isUnsigned = true) (hUt : U.max ≤ (unsigned t).max) (hZ : ¬ Wide Z t)
    (hnb : numBlocks n ≤ 1) (hn : n * U.max ≤ Z.max) : ScansWide t U Z n := by
  intro env input out
  rw [scanPlus, scan_serial hnb]
  refine ⟨?_, fun i hi => ?_, fun i hi => scanSerial_frame (.inr (by omega))⟩
  · rw [scanSerial_fst]
    simp only [Nat.zero_add]
    exact fold_few hU hUt hZ hn (input.read out) turns_nodup
      (fun k => by rw [mem_turns, Finset.mem_range]) subset_rfl
  · obtain ⟨is, hd, hmem, hres⟩ :=
      scanSerial_fold (plus (.unsigned t)) input 0 false false out (Z.ofInt 0) hi
    rw [Nat.zero_add] at hres
    simp only [Nat.zero_add] at hres
    rw [hres]
    exact fold_few hU hUt hZ hn (input.read out) hd hmem (Finset.filter_subset _ _)

/-! ### Inputs that come out wrong -/

/-- Elements with a given sum. -/
theorem exists_sum {m z : ℤ} (n : ℕ) (hm : 0 ≤ m) (h0 : 0 ≤ z) (hz : z ≤ n * m) :
    ∃ d : ℕ → ℤ, (∀ k, 0 ≤ d k ∧ d k ≤ m) ∧ ((List.range n).map d).sum = z := by
  induction n generalizing z with
  | zero =>
    exact ⟨fun _ => 0, fun _ => ⟨le_rfl, hm⟩, by simpa using le_antisymm h0 (by simpa using hz)⟩
  | succ n ih =>
    have hnm : 0 ≤ n * m := by positivity
    push_cast [add_mul] at hz
    -- the last element takes what it can
    obtain ⟨d, hd, hs⟩ := ih (z := z - min m z) (by omega) (by omega)
    refine ⟨Function.update d n (min m z), fun k => ?_, ?_⟩
    · by_cases hk : k = n
      · rw [hk, Function.update_self]
        omega
      · rw [Function.update_of_ne hk]
        exact hd k
    · have hsame : (List.range n).map (Function.update d n (min m z)) = (List.range n).map d :=
        List.map_congr_left fun k hk => Function.update_of_ne (List.mem_range.mp hk).ne _ _
      rw [List.range_succ, List.map_append, hsame, List.sum_append, hs]
      simp

theorem sum_ofInt (d : ℕ → ℤ) (m : ℕ) :
    ∑ k ∈ Finset.range m, (unsigned t).ofInt (d k) = (unsigned t).ofInt
      ((List.range m).map d).sum := by
  rw [ofInt_list_sum, ← List.sum_toFinset _ List.nodup_range, List.toFinset_range]

/-- In one block, elements whose sum is one more than a narrow `Z` holds. -/
theorem not_scansWide_sum (hU : U.isUnsigned = true) (hUt : U.max ≤ (unsigned t).max)
    (hZ : ¬ Wide Z t) (hnb : numBlocks n ≤ 1) (hn : Z.max < n * U.max) : ¬ ScansWide t U Z n := by
  intro hall
  have hmax := @max_nonneg Z
  have hU1 := @one_le_max U
  obtain ⟨m, rfl⟩ : ∃ m, n = m + 1 := by
    cases n with
    | zero => simp at hn; omega
    | succ m => exact ⟨m, rfl⟩
  have hmU : 0 ≤ m * U.max := by positivity
  push_cast [add_mul] at hn
  -- all but the last fit in `Z`
  obtain ⟨d, hd, hs⟩ := exists_sum m (m := U.max) (z := Z.max + 1 - min U.max (Z.max + 1))
    (by omega) (by omega) (by omega)
  obtain ⟨last, hlast⟩ : ∃ z, z = min U.max (Z.max + 1) := ⟨_, rfl⟩
  have hval : ∀ k, U.toInt (U.ofInt (d k)) = d k := fun k => toInt_ofInt (hd k).1 (hd k).2
  have hval' : U.toInt (U.ofInt last) = last := toInt_ofInt (by omega) (by omega)
  obtain ⟨x, hx⟩ : ∃ x : ℕ → U.Val, x = fun k => if k = m then U.ofInt last else U.ofInt (d k) :=
    ⟨_, rfl⟩
  have hxm : x m = U.ofInt last := by rw [hx]; exact if_pos rfl
  have hxk : ∀ k < m, x k = U.ofInt (d k) := fun k hk => by rw [hx]; exact if_neg hk.ne
  have hmap : (List.range m).map (fun k => U.toInt (x k)) = (List.range m).map d :=
    List.map_congr_left fun k hk => by rw [hxk k (List.mem_range.mp hk), hval]
  have hfold : Z.toInt (fold (plus (.unsigned t)) x (Z.ofInt 0) (List.range m)) =
      Z.max + 1 - last := by
    rw [toInt_fold hU hUt hZ x toInt_zero.ge (by rw [toInt_zero, hmap]; omega), toInt_zero, hmap]
    omega
  have hcall : fold (plus (.unsigned t)) x (Z.ofInt 0) (List.range (m + 1)) =
      Z.ofInt (Z.max + 1) := by
    have hT := max_lt_of_not_wide hZ
    rw [List.range_succ, fold_append]
    refine (toInt_call (x := x m) hU hUt hZ (by omega) (by rw [hfold, hxm, hval']; omega)).trans ?_
    rw [hfold, hxm, hval']
    congr 1
    omega
  have htot := (hall (inOrder _) (.apart x) fun _ => 0).total
  rw [scanPlus, scan_serial hnb, scanSerial_fst] at htot
  simp only [Nat.zero_add, Reader.read_apart] at htot
  rw [show fold (plus (.unsigned t)) (fun i => x i) (Z.ofInt 0) (turns false (m + 1)) =
    Z.ofInt (Z.max + 1) from hcall, zero_add, Finset.sum_range_succ,
    Finset.sum_congr rfl fun k hk => by
      rw [hxk k (Finset.mem_range.mp hk), conv, hval], sum_ofInt, hs, hxm] at htot
  refine overflow_ne hZ (htot.trans ?_)
  rw [conv, hval', ← ofInt_add]
  congr 1
  omega

/-- Zeros change nothing, once the running value is one that goes through `T`. -/
theorem fold_zeros (x : ℕ → U.Val) {r : Z.Val} {is : List ℕ}
    (hr : conv Z (conv (.unsigned t) r) = r) (h0 : ∀ i ∈ is, x i = U.ofInt 0) :
    fold (plus (.unsigned t)) x r is = r := by
  induction is with
  | nil => rfl
  | cons i is ih =>
    have hcall : call (plus (.unsigned t)) r (x i) = r := by
      rw [call_plus, h0 i List.mem_cons_self, conv_zero]
      exact (congrArg (conv Z) (add_zero _)).trans hr
    show fold _ x (call _ r (x i)) is = r
    rw [hcall]
    exact ih fun j hj => h0 j (List.mem_cons_of_mem i hj)

/-- A value of `T` goes through `Z` a second time as it did the first. -/
theorem conv_conv_conv (v : (unsigned t).Val) :
    conv Z (conv (.unsigned t) (conv Z v)) = conv Z v := by
  by_cases h : Wide Z t
  · rw [conv_conv_wide h]
  · exact conv_conv_narrow h _

/-- The blocks' sums being zero but for the first, the scan returns that one, as `Z` has it. -/
theorem scan_spike_blocks (env : Schedule (.unsigned t)) (input : Reader (.unsigned t) U)
    (depth : ℕ) (out : ℕ → (unsigned t).Val) {v : (unsigned t).Val}
    (ih : ∀ (sums : ℕ → (unsigned t).Val), sums 0 = v →
      (∀ j, 0 < j → j < numBlocks n → sums j = 0) →
      (scan env (plus (.unsigned t)) (Z.ofInt 0) false (.unsigned t) .same (depth + 1)
        (numBlocks n) false sums).1 =
        conv (.unsigned t) (conv Z v))
    (hn : ¬ numBlocks n ≤ 1)
    (hv : conv (.unsigned t) (reduceSerial (plus (.unsigned t)) (input.read out) 0 (blockLen n 0)
      (U.ofInt 0)) = v)
    (h0 : ∀ k, BLOCK_SIZE ≤ k → k < n → input.read out k = U.ofInt 0) :
    (scan env (plus (.unsigned t)) (Z.ofInt 0) false U input depth n false out).1 =
      conv (.unsigned t) (conv Z v) := by
  have hmem : ∀ j, j < numBlocks n → j ∈ env.order depth false (numBlocks n) := fun j hj =>
    (env.perm depth false (numBlocks n)).mem_iff.mpr (List.mem_range.mpr hj)
  have hzero : conv U (conv (.unsigned t) (U.ofInt 0)) = U.ofInt 0 := by rw [conv_zero, conv_zero]
  rw [scan_blocks hn rfl]
  refine ih _ ?_ fun j hj hjn => ?_
  · rw [reduceBlocks_apply _ _ (hmem 0 (by omega)), Nat.zero_mul]
    exact hv
  · rw [reduceBlocks_apply _ _ (hmem j hjn)]
    have : fold (plus (.unsigned t)) (fun i => input.read out (j * BLOCK_SIZE + i))
        (conv U (U.ofInt 0))
        (List.range (blockLen n j)) = U.ofInt 0 := by
      rw [conv_self]
      have hB : 1 * BLOCK_SIZE ≤ j * BLOCK_SIZE := Nat.mul_le_mul_right _ hj
      have hend := blockLen_end hjn
      have hle : blockStart n (j + 1) ≤ n := Nat.min_le_right _ _
      refine fold_zeros _ hzero fun i hi => h0 _ (by omega) ?_
      have := List.mem_range.mp hi
      omega
    exact (congrArg (conv (.unsigned t)) this).trans conv_zero

theorem fold_spike (x : ℕ → U.Val) {len : ℕ} (hl : 0 < len)
    (h0 : ∀ k, 0 < k → k < len → x k = U.ofInt 0) :
    fold (plus (.unsigned t)) x (Z.ofInt 0) (List.range len) = conv Z
      (conv (.unsigned t) (x 0)) := by
  obtain ⟨m, rfl⟩ : ∃ m, len = m + 1 := ⟨len - 1, by omega⟩
  have hcall : call (plus (.unsigned t)) (Z.ofInt 0) (x 0) = conv Z (conv (.unsigned t) (x 0)) := by
    rw [call_plus, conv_zero]
    exact congrArg (conv Z) (zero_add _)
  rw [List.range_succ_eq_map]
  show fold _ x (call _ (Z.ofInt 0) (x 0)) _ = _
  rw [hcall]
  refine fold_zeros x (conv_conv_conv _) fun i hi => ?_
  obtain ⟨k, hk, rfl⟩ := List.mem_map.mp hi
  exact h0 _ (Nat.succ_pos k) (Nat.succ_lt_succ (List.mem_range.mp hk))

theorem one_lt_blockSize : 1 < BLOCK_SIZE := by decide

theorem blockSize_pos : 0 < BLOCK_SIZE := one_lt_blockSize.pos

theorem blockLen_zero (hn : ¬ numBlocks n ≤ 1) : blockLen n 0 = BLOCK_SIZE := if_neg (by omega)

theorem blockSize_lt (hn : ¬ numBlocks n ≤ 1) : BLOCK_SIZE < n := by
  have := (numBlocks_bounds n).2 1 (by omega)
  omega

/-- An array of `T` that is zero but for its first element. -/
theorem scan_spike (env : Schedule (.unsigned t)) (input : Reader (.unsigned t) (.unsigned t))
    (depth : ℕ) {n : ℕ} (hn : 0 < n) (out : ℕ → (unsigned t).Val)
    (h0 : ∀ k, 0 < k → k < n → input.read out k = (unsigned t).ofInt 0) :
    (scan env (plus (.unsigned t)) (Z.ofInt 0) false (.unsigned t) input depth n false out).1 =
      conv (.unsigned t) (conv Z (input.read out 0)) := by
  induction n using Nat.strong_induction_on generalizing input depth out with
  | _ n ih =>
    by_cases hnb : numBlocks n ≤ 1
    · rw [scan_serial hnb, scanSerial_fst]
      simp only [Nat.zero_add]
      exact congrArg (conv (.unsigned t)) ((fold_spike _ hn h0).trans (by rw [conv_self]))
    · have hlt := blockSize_lt hnb
      refine scan_spike_blocks env input depth out (fun sums hs hj => ?_) hnb ?_ fun k hk hkn =>
        h0 k ?_ hkn
      · rw [ih (numBlocks n) (numBlocks_lt hnb) .same (depth + 1) (by omega) sums fun k hk hkn =>
          hj k hk hkn]
        exact congrArg (fun v => conv (.unsigned t) (conv Z v)) hs
      · rw [blockLen_zero hnb, conv_self, reduceSerial, conv_self]
        simp only [Nat.zero_add]
        have hfold := fold_spike (t := t) (Z := .unsigned t) (input.read out) blockSize_pos
          fun k hk hkB =>
          h0 k hk (hkB.trans hlt)
        rw [conv_self, conv_self] at hfold
        exact hfold
      · exact blockSize_pos.trans_le hk

theorem sum_spike {x : ℕ → (unsigned t).Val} (hn : 0 < n)
    (h0 : ∀ k, 0 < k → k < n → x k = (unsigned t).ofInt 0) :
    ∑ k ∈ Finset.range n, x k = x 0 := by
  refine Finset.sum_eq_single_of_mem 0 (Finset.mem_range.mpr hn) fun k hk hk0 => ?_
  exact h0 k (Nat.pos_of_ne_zero hk0) (Finset.mem_range.mp hk)

/-- In several blocks of `T` itself, one element that a narrow `Z` does not hold. -/
theorem not_scansWide_spike (hZ : ¬ Wide Z t) (hn : ¬ numBlocks n ≤ 1) :
    ¬ ScansWide t (.unsigned t) Z n := by
  intro hall
  have hpos : 0 < n := by
    have := blockSize_lt hn
    omega
  obtain ⟨x, hx⟩ : ∃ x : ℕ → (unsigned t).Val, x = fun k =>
      if k = 0 then (unsigned t).ofInt (Z.max + 1) else
    (unsigned t).ofInt 0 := ⟨_, rfl⟩
  have hx0 : x 0 = (unsigned t).ofInt (Z.max + 1) := by rw [hx]; exact if_pos rfl
  have hxk : ∀ k, 0 < k → k < n → x k = (unsigned t).ofInt 0 :=
    fun k hk _ => by rw [hx]; exact if_neg hk.ne'
  have htot := (hall (inOrder _) (.apart x) fun _ => 0).total
  simp only [conv_self, Reader.read_apart] at htot
  rw [scanPlus, scan_spike _ _ 0 hpos _ hxk, sum_spike hpos hxk, zero_add] at htot
  have hval : (unsigned t).toInt ((unsigned t).ofInt (Z.max + 1)) = Z.max + 1 :=
    toInt_ofInt (by have := @max_nonneg Z; omega) (max_lt_of_not_wide hZ)
  refine overflow_ne hZ (Eq.trans ?_ (htot.trans hx0))
  show _ = conv (.unsigned t) (conv Z (x 0))
  rw [hx0]
  show _ = conv _ (Z.ofInt ((unsigned t).toInt ((unsigned t).ofInt (Z.max + 1))))
  rw [hval]
  rfl

/-- Two elements that are not zero, reduced in their own narrow type. -/
theorem fold_two (hU : U.isUnsigned = true) (hZ : ¬ Wide U t) (x : ℕ → U.Val) {len : ℕ}
    (hl : 1 < len) (hs : U.toInt (x 0) + U.toInt (x 1) ≤ (unsigned t).max)
    (h0 : ∀ k, 1 < k → k < len → x k = U.ofInt 0) :
    fold (plus (.unsigned t)) x (U.ofInt 0) (List.range len) = U.ofInt
      (U.toInt (x 0) + U.toInt (x 1)) := by
  obtain ⟨m, rfl⟩ : ∃ m, len = m + 2 := ⟨len - 2, by omega⟩
  have hUt : U.max ≤ (unsigned t).max := by
    have := max_lt_of_not_wide hZ
    omega
  have hfirst : call (plus (.unsigned t)) (U.ofInt 0) (x 0) = x 0 := by
    rw [call_plus, conv_zero]
    exact (congrArg (conv U) (zero_add _)).trans (conv_conv_narrow hZ _)
  have hsecond : call (plus (.unsigned t)) (x 0) (x 1) = U.ofInt (U.toInt (x 0) + U.toInt (x 1)) :=
    toInt_call hU hUt hZ (toInt_nonneg hU _) hs
  rw [List.range_succ_eq_map, List.range_succ_eq_map]
  simp only [List.map_cons, List.map_map]
  show fold _ x (call _ (call _ (U.ofInt 0) (x 0)) (x 1)) _ = _
  rw [hfirst, hsecond]
  refine fold_zeros x (conv_conv_narrow hZ _) fun i hi => ?_
  obtain ⟨k, hk, rfl⟩ := List.mem_map.mp hi
  have := List.mem_range.mp hk
  exact h0 _ (by simp) (by simp; omega)

/-- What `bool` or a narrow unsigned type makes of one more than its maximum: one or zero. -/
theorem toInt_overflow (hU : U.isUnsigned = true) :
    0 ≤ U.toInt (U.ofInt (U.max + 1)) ∧ U.toInt (U.ofInt (U.max + 1)) ≤ 1 := by
  cases U with
  | bool => decide
  | unsigned w => cases w <;> decide
  | signed w => cases hU

theorem sum_two {x : ℕ → (unsigned t).Val} (hn : 1 < n) (h0 : ∀ k, 1 < k → k < n → x k = 0) :
    ∑ k ∈ Finset.range n, x k = x 0 + x 1 := by
  have hsub : Finset.range 2 ⊆ Finset.range n := Finset.range_mono hn
  rw [← Finset.sum_subset hsub fun k hk hk2 => ?_, Finset.sum_range_succ, Finset.sum_range_one]
  rw [Finset.mem_range] at hk hk2
  exact h0 k (by omega) hk

/-- In several blocks of a narrow `U`, two elements of the first block that its sum does not
hold. -/
theorem not_scansWide_narrow (hU : U.isUnsigned = true) (hUt : ¬ Wide U t)
    (hn : ¬ numBlocks n ≤ 1) :
    ¬ ScansWide t U Z n := by
  intro hall
  have hlt := blockSize_lt hn
  have h1 := one_lt_blockSize
  have hmaxU := max_lt_of_not_wide hUt
  have hU1 := @one_le_max U
  obtain ⟨x, hx⟩ : ∃ x : ℕ → U.Val, x = fun k => if k = 0 then U.ofInt U.max
      else if k = 1 then U.ofInt 1 else U.ofInt 0 :=
    ⟨_, rfl⟩
  have hx0 : U.toInt (x 0) = U.max := by
    rw [hx]
    exact toInt_ofInt (by omega) le_rfl
  have hx1 : U.toInt (x 1) = 1 := by
    rw [hx]
    exact toInt_ofInt (by omega) hU1
  have hxk : ∀ k, 1 < k → x k = U.ofInt 0 := fun k hk => by
    rw [hx]
    simp only
    rw [if_neg (by omega), if_neg (by omega)]
  -- the first block's sum, and what it should be
  obtain ⟨v, hv⟩ : ∃ v, v = conv (.unsigned t) (U.ofInt (U.max + 1)) := ⟨_, rfl⟩
  have hfold : fold (plus (.unsigned t)) x (U.ofInt 0) (List.range BLOCK_SIZE) =
      U.ofInt (U.max + 1) := by
    rw [fold_two hU hUt x h1 (by omega) fun k hk _ => hxk k hk, hx0, hx1]
  have hvi : 0 ≤ (unsigned t).toInt v ∧ (unsigned t).toInt v ≤ 1 := by
    have h := toInt_overflow hU
    rw [hv, toInt_conv h.1 (by omega)]
    exact h
  have hkeep : conv (.unsigned t) (conv Z v) = v := by
    have hZ1 := @one_le_max Z
    show (unsigned t).ofInt (Z.toInt (conv Z v)) = v
    rw [toInt_conv hvi.1 (by omega)]
    exact ofInt_toInt v
  have htot := (hall (inOrder _) (.apart x) fun _ => 0).total
  have hscan :=
    scan_spike_blocks (t := t) (Z := Z) (n := n) (v := v) (inOrder _) (.apart x) 0 (fun _ => 0)
    (fun s hs hj => by
      rw [scan_spike _ _ _ (by omega) s hj]
      exact congrArg (fun v => conv _ (conv Z v)) hs) hn
    (by
      rw [blockLen_zero hn, reduceSerial, conv_self]
      simp only [Nat.zero_add]
      rw [hv]
      exact congrArg _ hfold)
    fun k hk _ => hxk k (by omega)
  simp only [Reader.read_apart] at htot
  rw [scanPlus, hscan, hkeep, zero_add, sum_two (by omega) fun k hk _ => ?_] at htot
  · refine overflow_ne hUt ((hv.symm.trans htot).trans ?_)
    rw [conv, conv, hx0, hx1, ← ofInt_add]
  · rw [hxk k hk, conv_zero]
    rfl

/-! ### The widths that do -/

/-- A narrow unsigned type or `bool`: that is, not `T`. -/
theorem not_wide_of_ne (hU : U.isUnsigned = true) (hle : U.bits ≤ t.bits) (hne : U ≠ .unsigned t) :
    ¬ Wide U t := by
  rintro ⟨hb, hge⟩
  cases U with
  | bool => exact hb rfl
  | unsigned w =>
    have : w.bits = t.bits := hle.antisymm hge
    apply hne
    cases w <;> cases t <;> simp_all [Width.bits]
  | signed w => cases hU

theorem max_le_of_bits_le (hU : U.isUnsigned = true) (hle : U.bits ≤ t.bits) :
    U.max ≤ (unsigned t).max := by
  by_cases hne : U = .unsigned t
  · rw [hne]
  · have := max_lt_of_not_wide (not_wide_of_ne hU hle hne)
    omega

/-- **When the scan widens**: for one block at most, if `Z` is as wide as `T` or holds every sum;
for more, if `U` is `T` and `Z` as wide. -/
theorem scansWide_iff (hU : U.isUnsigned = true) (hle : U.bits ≤ t.bits) : ScansWide t U Z n ↔
    if numBlocks n ≤ 1 then Wide Z t ∨ n * U.max ≤ Z.max else U = .unsigned t ∧ Wide Z t := by
  have hmax := max_le_of_bits_le hU hle
  split_ifs with hn
  · constructor
    · intro hall
      by_contra hno
      obtain ⟨hZ, hfew⟩ := not_or.mp hno
      exact not_scansWide_sum hU hmax hZ hn (not_le.mp hfew) hall
    · intro hor
      by_cases hZ : Wide Z t
      · exact scansWide_serial hZ hn
      · exact scansWide_few hU hmax hZ hn (hor.resolve_left hZ)
  · constructor
    · intro hall
      by_contra hno
      by_cases hUt : U = .unsigned t
      · subst hUt
        exact not_scansWide_spike (fun hZ => hno ⟨rfl, hZ⟩) hn hall
      · exact not_scansWide_narrow hU (not_wide_of_ne hU hle hUt) hn hall
    · rintro ⟨rfl, hZ⟩
      exact scansWide_same hZ

/-- Two million words, the running value a `size_t`. -/
theorem scansWide_iff_words : ScansWide .w32 (.unsigned .w32) sizeT 2000000 :=
  (scansWide_iff (t := .w32) (U := .unsigned .w32) (Z := sizeT) (n := 2000000) (by decide)
    (by decide)).mpr (by decide)

/-- Bytes added up to a `size_t`, from a `size_t`: with a second block, the sums of the blocks are
made in bytes. -/
theorem not_scansWide_bytes : ¬ ScansWide .w64 (.unsigned .w8) sizeT 2049 :=
  not_scansWide_narrow (by decide) (by decide) (by decide)

end Widths

end NetworkDemo.GangUtil
