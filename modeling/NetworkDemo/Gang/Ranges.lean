import NetworkDemo.Foundations.Loops

/-!
# Cutting a submit into ranges

`Gang::submit` cuts the indices `[start, end)` into `n` ranges, as equal as they can be,
`n` being the number of chunks of `granular` indices, but at most the number of threads.
The sizes are computed by one loop and the ranges lined up by another, both with
`unsigned` counters.

`cutRanges_eq` says that the ranges are the pieces between the cut points `cutPoint`.
-/

namespace NetworkDemo.Gang

open Foundations

/-- `size_t`. -/
abbrev SizeT := BitVec 64

/-! ### Cutting -/

/-- The indices from `b` to before `e`. -/
structure Range where
  b : SizeT
  e : SizeT
  deriving DecidableEq, Inhabited

/-- `std::min`. -/
def stdMin (x y : SizeT) : SizeT := if y < x then y else x

/-- `n = std::min((len + granular - 1) / granular, num)`. -/
def partsOf (len granular num : SizeT) : SizeT := stdMin ((len + granular - 1) / granular) num

/-- More turns than a loop takes whose counter is an `unsigned` and does not wrap. -/
def unsignedTurns : ℕ := 4294967296

/-- The vector `sz` of the sizes of `n` parts. -/
def partSizes (len n : SizeT) : Option (List SizeT) :=
  forUnsigned (len % n) (fun sz i => sz.modify i (· + 1)) unsignedTurns 0
    (List.replicate n.toNat (len / n))

/-- One turn of the loop that lines the ranges up; `b` is where the next one starts. -/
def emplaceRange (sz : List SizeT) : SizeT × List Range → ℕ → SizeT × List Range
  | (b, ranges), i => (b + sz.getD i 0, ranges ++ [⟨b, b + sz.getD i 0⟩])

/-- The vector `ranges`, the first range starting at `b`. -/
def partRanges (b n : SizeT) (sz : List SizeT) : Option (List Range) :=
  (forUnsigned n (emplaceRange sz) unsignedTurns 0 (b, [])).map Prod.snd

/-- The ranges of a submit of `len` indices from `b`: none if a loop does not end, and the empty
list if `submit` returns without running anything. -/
def cutRanges (b len granular num : SizeT) : Option (List Range) :=
  let n := partsOf len granular num
  if n = 0 then some [] else (partSizes len n).bind (partRanges b n)

/-- The ranges of `submit(start, end)`. -/
def submitRanges (start stop granular num : SizeT) : Option (List Range) :=
  cutRanges start (stop - start) granular num

/-- The ranges of `submit(end)`. -/
def submitEndRanges (stop granular num : SizeT) : Option (List Range) :=
  cutRanges 0 stop granular num

/-! ### The cut -/

section Cut

variable {b len granular num n : SizeT}

/-- Where part `t` of `n` begins. -/
def cutPoint (b len n t : ℕ) : ℕ := b + t * (len / n) + min t (len % n)

theorem cutPoint_zero (b len n : ℕ) : cutPoint b len n 0 = b := by simp [cutPoint]

theorem cutPoint_succ (b len n t : ℕ) :
    cutPoint b len n (t + 1) = cutPoint b len n t + (len / n + if t < len % n then 1 else 0) := by
  unfold cutPoint
  rw [Nat.add_mul, one_mul]
  split_ifs <;> omega

theorem cutPoint_mono (b len n : ℕ) : Monotone (cutPoint b len n) :=
  monotone_nat_of_le_succ fun t => by
    rw [cutPoint_succ]
    exact Nat.le_add_right _ _

theorem cutPoint_last (b len : ℕ) {n : ℕ} (hn : 0 < n) : cutPoint b len n n = b + len := by
  have := Nat.div_add_mod len n
  have := Nat.mod_lt len hn
  unfold cutPoint
  omega

theorem cutPoint_stop {start stop n : ℕ} (hle : start ≤ stop) (hn : 0 < n) :
    cutPoint start (stop - start) n n = stop := by
  rw [cutPoint_last _ _ hn, Nat.add_sub_cancel' hle]

theorem partSizes_eq (h0 : 0 < n.toNat) (hn : n.toNat < 2 ^ 32) :
    partSizes len n = some ((List.range n.toNat).map fun i =>
      BitVec.ofNat 64 (len.toNat / n.toNat + if i < len.toNat % n.toNat then 1 else 0)) := by
  have hmod : (len % n).toNat = len.toNat % n.toNat := BitVec.toNat_umod
  have hlt := Nat.mod_lt len.toNat h0
  have hdiv : len / n = BitVec.ofNat 64 (len.toNat / n.toNat) := by
    rw [← BitVec.toNat_udiv, BitVec.ofNat_toNat, BitVec.setWidth_eq]
  rw [partSizes, forUnsigned_eq (by omega) (by rw [hmod, unsignedTurns]; omega), hmod, hdiv]
  congr 1
  -- after `k` turns the first `k` parts have got one more
  refine foldl_range (P := fun k sz => sz = (List.range n.toNat).map fun i =>
    BitVec.ofNat 64 (len.toNat / n.toNat + if i < k then 1 else 0)) ?_ fun k sz hk hsz => ?_
  · simp
  · subst hsz
    apply List.ext_getElem?
    intro i
    rw [List.getElem?_modify, List.getElem?_map, List.getElem?_map]
    rcases Nat.lt_or_ge i n.toNat with hi | hi
    · rw [List.getElem?_range hi]
      by_cases hki : k = i
      · subst hki
        simp [BitVec.ofNat_add]
      · have hiff : i < k + 1 ↔ i < k := by omega
        simp only [Option.map_some, if_congr hiff rfl rfl, if_neg hki]
        rfl
    · rw [List.getElem?_eq_none (by simpa using hi)]
      rfl

/-- **The ranges** are the pieces between the cut points. -/
theorem cutRanges_eq (hn : partsOf len granular num = n) (h0 : 0 < n.toNat)
    (hlt : n.toNat < 2 ^ 32) :
    cutRanges b len granular num = some ((List.range n.toNat).map fun t =>
      ⟨BitVec.ofNat 64 (cutPoint b.toNat len.toNat n.toNat t),
        BitVec.ofNat 64 (cutPoint b.toNat len.toNat n.toNat (t + 1))⟩) := by
  have hne : n ≠ 0 := fun h => by
    rw [h] at h0
    exact absurd h0 (lt_irrefl 0)
  rw [cutRanges, hn, if_neg hne, partSizes_eq h0 hlt, Option.bind_some, partRanges,
    forUnsigned_eq hlt (by rw [unsignedTurns]; omega), Option.map_some]
  congr 1
  refine (foldl_range (P := fun k (p : SizeT × List Range) =>
    p.1 = BitVec.ofNat 64 (cutPoint b.toNat len.toNat n.toNat k) ∧
    p.2 = (List.range k).map fun t => ⟨BitVec.ofNat 64 (cutPoint b.toNat len.toNat n.toNat t),
      BitVec.ofNat 64 (cutPoint b.toNat len.toNat n.toNat (t + 1))⟩) ?_ fun k p hk hp => ?_).2
  · simp [cutPoint_zero]
  · obtain ⟨x, ranges⟩ := p
    obtain ⟨rfl, rfl⟩ := hp
    have hnext : BitVec.ofNat 64 (cutPoint b.toNat len.toNat n.toNat k) +
        ((List.range n.toNat).map fun i =>
        BitVec.ofNat 64 (len.toNat / n.toNat + if i < len.toNat % n.toNat then 1 else 0)).getD k 0 =
        BitVec.ofNat 64 (cutPoint b.toNat len.toNat n.toNat (k + 1)) := by
      rw [List.getD_eq_getElem?_getD, List.getElem?_map, List.getElem?_range hk, Option.map_some,
        Option.getD_some, ← BitVec.ofNat_add, ← cutPoint_succ]
    simp only [emplaceRange, hnext, List.range_succ, List.map_append, List.map_cons,
      List.map_nil, and_self]

theorem toNat_partsOf (hg : 0 < granular.toNat) (hroom : len.toNat + granular.toNat ≤ 2 ^ 64) :
    (partsOf len granular num).toNat =
    min ((len.toNat + granular.toNat - 1) / granular.toNat) num.toNat := by
  have hsub : (len + granular - 1).toNat = len.toNat + granular.toNat - 1 := by bv_omega
  have hdiv : ((len + granular - 1) / granular).toNat =
      (len.toNat + granular.toNat - 1) / granular.toNat := by
    rw [BitVec.toNat_udiv, hsub]
  unfold partsOf stdMin
  rw [← hdiv]
  split_ifs with h
  · exact (Nat.min_eq_right (BitVec.lt_def.mp h).le).symm
  · exact (Nat.min_eq_left (Nat.not_lt.mp h)).symm

/-- Only an empty interval is cut into no parts. -/
theorem len_eq_zero (hg : 0 < granular.toNat) (hnum : 0 < num.toNat)
    (hroom : len.toNat + granular.toNat ≤ 2 ^ 64) (h0 : (partsOf len granular num).toNat = 0) :
    len.toNat = 0 := by
  rw [toNat_partsOf hg hroom] at h0
  have hdiv : (len.toNat + granular.toNat - 1) / granular.toNat = 0 := by omega
  have := (Nat.div_eq_zero_iff.mp hdiv).resolve_left (by omega)
  omega

end Cut

end NetworkDemo.Gang
