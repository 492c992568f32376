import NetworkDemo.Foundations.Loops
import Mathlib.Algebra.BigOperators.Fin
import Mathlib.Algebra.Field.Rat
import Mathlib.Algebra.Order.Ring.Rat
import Mathlib.Data.List.GetD
import Mathlib.Data.List.Perm.Subperm
import Mathlib.Tactic.Ring

/-!
# Sparse matrix times vector, eight lanes at a time

`SIMDMatrix` has for each vertex its list of neighbours as blocks of eight lanes, a
block's number going with its lanes; `matrixMultiplyVector` multiplies each with that
block of the vector and adds up. The constructor adds one to lane `i % 8` for the
`i`-th neighbour of the list, and closes a block where the next neighbour is eight or
more away.

So the `i`-th neighbour is taken for the one in `column i`: lane `i % 8` of the block of
the first neighbour of its run. The product is right when every neighbour is the column
of some member of its run, and for no other lists (`multiplies_iff`).

## The model

Values are exact, and `gu.submit` calls its task once for each index. Reading past the
end of an array gives zero (it does not happen). `Graph` has what the code relies on of
the class it includes from elsewhere.
-/

namespace NetworkDemo.SIMD

open Foundations

/-! ### The functions -/

/-- The lanes of a vector register. -/
def NUM : ℕ := 8

/-- A register. -/
abbrev SIMDFloat := Fin 8 → ℚ

/-- `dotProduct(x, y)`. -/
def dotProduct (x y : SIMDFloat) : ℚ := ∑ i, x i * y i

/-- `vector2SIMDFloat(vec)`. -/
def vector2SIMDFloat (vec : List ℚ) : List SIMDFloat :=
  (List.range ((if vec.length % NUM = 0 then 0 else 1) + vec.length / NUM)).map fun i j =>
    if i * NUM + j < vec.length then vec.getD (i * NUM + j) 0 else 0

/-- A graph: its vertices, and the neighbours of each in increasing order. -/
structure Graph where
  vertex_num : ℕ
  inList : ℕ → List ℕ
  outList : ℕ → List ℕ
  inSorted : ∀ v, (inList v).Pairwise (· < ·)
  outSorted : ∀ v, (outList v).Pairwise (· < ·)
  inBound : ∀ v, ∀ u ∈ inList v, u < vertex_num
  outBound : ∀ v, ∀ u ∈ outList v, u < vertex_num

/-- The list the constructor reads. -/
def Graph.ngh (g : Graph) (in_or_out : Bool) (v : ℕ) : List ℕ :=
  if in_or_out = true then g.inList v else g.outList v

/-- The constructor's task: `unit`, and what it has written to the vertex's offsets and data. -/
structure Row where
  unit : SIMDFloat
  offsets : List ℕ
  data : List SIMDFloat

/-- The next neighbour is far, or there is none. -/
def Closes (ngh : List ℕ) (i : ℕ) : Prop :=
  i + 1 = ngh.length ∨ NUM ≤ ngh.getD (i + 1) 0 - ngh.getD i 0

instance (ngh : List ℕ) (i : ℕ) : Decidable (Closes ngh i) := inferInstanceAs (Decidable (_ ∨ _))

/-- The lane of the `i`-th neighbour. -/
def laneOf (i : ℕ) : Fin 8 := ⟨i % NUM, Nat.mod_lt _ (by decide)⟩

/-- One turn. -/
def rowTurn (ngh : List ℕ) (s : Row) (i : ℕ) : Row :=
  let unit := Function.update s.unit (laneOf i) (s.unit (laneOf i) + 1)
  if Closes ngh i then
    ⟨0, if i + 1 ≠ ngh.length then s.offsets ++ [ngh.getD (i + 1) 0 / NUM] else s.offsets,
      s.data ++ [unit]⟩
  else ⟨unit, s.offsets, s.data⟩

/-- The task for one vertex. -/
def row (ngh : List ℕ) : Row :=
  if ngh = [] then ⟨0, [], []⟩
  else (List.range ngh.length).foldl (rowTurn ngh) ⟨0, [ngh.getD 0 0 / NUM], []⟩

/-- A matrix. -/
structure SIMDMatrix where
  vertex_num : ℕ
  SIMD_offsets : ℕ → List ℕ
  SIMD_data : ℕ → List SIMDFloat

/-- `SIMDMatrix(g, in_or_out)`. -/
def SIMDMatrix.ofGraph (g : Graph) (in_or_out : Bool) : SIMDMatrix :=
  ⟨g.vertex_num, fun v => (row (g.ngh in_or_out v)).offsets,
    fun v => (row (g.ngh in_or_out v)).data⟩

/-- The task of `matrixMultiplyVector` for one vertex. -/
def rowProduct (offset : List ℕ) (data vec : List SIMDFloat) : ℚ :=
  (List.range offset.length).foldl (fun r i => r + dotProduct (data.getD i 0)
    (vec.getD (offset.getD i 0) 0)) 0

/-- `matrixMultiplyVector(sm, vec)`. -/
def matrixMultiplyVector (sm : SIMDMatrix) (vec : List SIMDFloat) : List SIMDFloat :=
  vector2SIMDFloat ((List.range sm.vertex_num).map fun v =>
    rowProduct (sm.SIMD_offsets v) (sm.SIMD_data v) vec)

/-! ### Vectors in lanes -/

/-- Lane `v` of an array of registers. -/
def lane (vec : List SIMDFloat) (v : ℕ) : ℚ := (vec.getD (v / NUM) 0) (laneOf v)

/-- The lanes are the vector, and zeros after it. -/
theorem lane_vector2SIMDFloat (vec : List ℚ) (v : ℕ) :
    lane (vector2SIMDFloat vec) v = vec.getD v 0 := by
  have hv : v / NUM * NUM + v % NUM = v := Nat.div_add_mod' v NUM
  unfold lane vector2SIMDFloat
  rw [List.getD_eq_getElem?_getD, List.getElem?_map]
  by_cases h : v / NUM < (if vec.length % NUM = 0 then 0 else 1) + vec.length / NUM
  · rw [List.getElem?_range h]
    show (if v / NUM * NUM + v % NUM < vec.length then vec.getD (v / NUM * NUM + v % NUM) 0
        else 0) = _
    rw [hv]
    split_ifs with hlt
    · rfl
    · exact (List.getD_eq_default _ _ (not_lt.mp hlt)).symm
  · have hge : vec.length ≤ v := by
      unfold NUM at *
      split_ifs at h with h0 <;> omega
    rw [List.getElem?_eq_none (by simpa using h), List.getD_eq_default _ _ hge]
    rfl

/-- A block of the vector, lane by lane. -/
theorem block_apply (x : List ℚ) (q : ℕ) (j : Fin 8) :
    (vector2SIMDFloat x).getD q 0 j = x.getD (q * NUM + j) 0 := by
  have hq : (q * NUM + j) / NUM = q := by
    unfold NUM
    omega
  have hj : laneOf (q * NUM + j) = j := by
    ext
    show (q * NUM + j) % NUM = j
    unfold NUM
    omega
  rw [← lane_vector2SIMDFloat, lane, hq, hj]

/-! ### Runs of the list -/

/-- Where the run of the `i`-th neighbour begins: the neighbours of a run are less than eight
apart. -/
def runStart (ngh : List ℕ) : ℕ → ℕ
  | 0 => 0
  | i + 1 => if NUM ≤ ngh.getD (i + 1) 0 - ngh.getD i 0 then i + 1 else runStart ngh i

/-- The block its lane is in. -/
def runBlock (ngh : List ℕ) (i : ℕ) : ℕ := ngh.getD (runStart ngh i) 0 / NUM

/-- Which neighbour the `i`-th is taken for. -/
def column (ngh : List ℕ) (i : ℕ) : ℕ := runBlock ngh i * NUM + i % NUM

/-- What the row's product is: the vector at the columns. -/
def columnSum (ngh : List ℕ) (x : List ℚ) : ℚ :=
  ((List.range ngh.length).map fun i => x.getD (column ngh i) 0).sum

theorem dotProduct_update (u y : SIMDFloat) (i : Fin 8) :
    dotProduct (Function.update u i (u i + 1)) y = dotProduct u y + y i := by
  unfold dotProduct
  have hsplit : ∀ j, Function.update u i (u i + 1) j * y j = u j * y j + if j = i then y j
      else 0 := by
    intro j
    by_cases hj : j = i
    · subst hj
      rw [Function.update_self, if_pos rfl]
      ring
    · rw [Function.update_of_ne hj, if_neg hj, add_zero]
  rw [Finset.sum_congr rfl fun j _ => hsplit j, Finset.sum_add_distrib, Finset.sum_ite_eq',
    if_pos (Finset.mem_univ i)]

/-- The blocks closed so far, multiplied. -/
def closedSum (offsets : List ℕ) (data vec : List SIMDFloat) : ℚ :=
  ((data.zip offsets).map fun p => dotProduct p.1 (vec.getD p.2 0)).sum

theorem rowProduct_eq {offset : List ℕ} {data : List SIMDFloat} (vec : List SIMDFloat)
    (h : data.length = offset.length) : rowProduct offset data vec = closedSum offset data vec := by
  have hfold : ∀ (g : ℕ → ℚ) (n : ℕ), (List.range n).foldl (fun r i => r + g i) 0 =
      ((List.range n).map g).sum := by
    intro g n
    rw [List.sum_eq_foldl, List.foldl_map]
  unfold rowProduct closedSum
  rw [hfold]
  congr 1
  apply List.ext_getElem
  · simp [h]
  · intro i hi hi'
    simp only [List.length_map, List.length_range] at hi
    simp [List.getD_eq_getElem?_getD, hi, h ▸ hi]

/-- Before turn `i`: the open block is that of neighbour `i`, and what has been added is the columns
so far. -/
structure RowOk (ngh : List ℕ) (x : List ℚ) (i : ℕ) (s : Row) : Prop where
  opened : i < ngh.length → ∃ closed, s.offsets = closed ++ [runBlock ngh i] ∧
    s.data.length = closed.length ∧
    closedSum closed s.data (vector2SIMDFloat x) + dotProduct s.unit
      ((vector2SIMDFloat x).getD (runBlock ngh i) 0) =
      ((List.range i).map fun i => x.getD (column ngh i) 0).sum
  finished : i = ngh.length → s.data.length = s.offsets.length ∧
    closedSum s.offsets s.data (vector2SIMDFloat x) = columnSum ngh x

theorem rowOk_turn {ngh : List ℕ} {x : List ℚ} {i : ℕ} {s : Row} (hi : i < ngh.length)
    (h : RowOk ngh x i s) :
    RowOk ngh x (i + 1) (rowTurn ngh s i) := by
  obtain ⟨closed, hoff, hlen, hsum⟩ := h.opened hi
  have hlane : ∀ u : SIMDFloat, dotProduct (Function.update u (laneOf i) (u (laneOf i) + 1))
      ((vector2SIMDFloat x).getD (runBlock ngh i) 0) =
        dotProduct u ((vector2SIMDFloat x).getD (runBlock ngh i) 0) + x.getD (column ngh i) 0 := by
    intro u
    rw [dotProduct_update, block_apply]
    rfl
  have hnext : ((List.range (i + 1)).map fun i => x.getD (column ngh i) 0).sum =
      ((List.range i).map fun i => x.getD (column ngh i) 0).sum + x.getD (column ngh i) 0 := by
    rw [List.range_succ, List.map_append, List.sum_append]
    simp
  have hzip : ∀ u, closedSum (closed ++ [runBlock ngh i]) (s.data ++ [u]) (vector2SIMDFloat x) =
      closedSum closed s.data (vector2SIMDFloat x) + dotProduct u
        ((vector2SIMDFloat x).getD (runBlock ngh i) 0) := by
    intro u
    unfold closedSum
    rw [List.zip_append hlen, List.map_append, List.sum_append]
    simp
  unfold rowTurn
  by_cases hc : Closes ngh i
  · simp only [if_pos hc]
    constructor
    · intro hi1
      have hgap : NUM ≤ ngh.getD (i + 1) 0 - ngh.getD i 0 := hc.resolve_left hi1.ne
      have hblock : runBlock ngh (i + 1) = ngh.getD (i + 1) 0 / NUM := by
        rw [runBlock, runStart, if_pos hgap]
      refine ⟨closed ++ [runBlock ngh i], ?_, by simp [hlen], ?_⟩
      · rw [if_pos hi1.ne, hoff, hblock]
      · have hzero : ∀ y, dotProduct 0 y = 0 := fun y => by simp [dotProduct]
        rw [hzip, hlane, hzero, add_zero, hnext, ← hsum]
        ring
    · intro hi1
      rw [if_neg (not_not.mpr hi1), hoff, hzip, hlane, columnSum, ← hi1, hnext, ← hsum]
      exact ⟨by simp [hlen], by ring⟩
  · simp only [if_neg hc]
    obtain ⟨hi1, hgap⟩ := not_or.mp hc
    have hstart : runBlock ngh (i + 1) = runBlock ngh i := by
      rw [runBlock, runStart, if_neg hgap, ← runBlock]
    refine ⟨fun _ => ⟨closed, by rw [hoff, hstart], hlen, ?_⟩, fun h => absurd h hi1⟩
    rw [hstart, hlane, hnext, ← hsum]
    ring

/-- **A row's product** is the sum over its columns. -/
theorem rowProduct_row (ngh : List ℕ) (x : List ℚ) :
    rowProduct (row ngh).offsets (row ngh).data (vector2SIMDFloat x) = columnSum ngh x := by
  unfold row
  split_ifs with hnil
  · subst hnil
    rfl
  · have hpos : 0 < ngh.length := List.length_pos_iff.mpr hnil
    have hturn : ∀ i s, i < ngh.length → RowOk ngh x i s → RowOk ngh x (i + 1) (rowTurn ngh s i) :=
      fun _ _ hi h => rowOk_turn hi h
    have hend : RowOk ngh x ngh.length _ :=
      foldl_range (P := RowOk ngh x) (s := ⟨0, [ngh.getD 0 0 / NUM], []⟩)
      ⟨fun _ => ⟨[], rfl, rfl, by simp [closedSum, dotProduct]⟩, fun h => absurd h hpos.ne⟩ hturn
    obtain ⟨hlen, hsum⟩ := hend.finished rfl
    rw [rowProduct_eq _ hlen, hsum]

/-! ### Which lists come out right -/

section Runs

variable {ngh : List ℕ} {i j : ℕ}

theorem getD_le (h : ngh.Pairwise (· < ·)) (hij : i ≤ j) (hj : j < ngh.length) :
    ngh.getD i 0 ≤ ngh.getD j 0 := by
  rcases hij.eq_or_lt with rfl | hlt
  · exact le_rfl
  · rw [List.getD_eq_getElem _ _ (hlt.trans hj), List.getD_eq_getElem _ _ hj]
    exact (List.pairwise_iff_getElem.mp h i j _ _ hlt).le

theorem runStart_le (ngh : List ℕ) (i : ℕ) : runStart ngh i ≤ i := by
  induction i with
  | zero => exact le_rfl
  | succ i ih =>
    rw [runStart]
    split_ifs
    · exact le_rfl
    · exact ih.trans i.le_succ

theorem runStart_mono (ngh : List ℕ) : Monotone (runStart ngh) :=
  monotone_nat_of_le_succ fun i => by
    rw [runStart]
    split_ifs
    · exact (runStart_le ngh i).trans i.le_succ
    · exact le_rfl

/-- A later run begins eight or more after every member of an earlier one. -/
theorem far_of_runStart_lt (h : ngh.Pairwise (· < ·)) (hj : j < ngh.length)
    (hlt : runStart ngh i < runStart ngh j) :
    ngh.getD i 0 + NUM ≤ ngh.getD (runStart ngh j) 0 := by
  induction j with
  | zero => exact absurd hlt (by simp [runStart])
  | succ j ih =>
    by_cases hgap : NUM ≤ ngh.getD (j + 1) 0 - ngh.getD j 0
    · have hstart : runStart ngh (j + 1) = j + 1 := by rw [runStart, if_pos hgap]
      have hij : i ≤ j := by
        by_contra hji
        have := runStart_mono ngh (show j + 1 ≤ i by omega)
        omega
      have := getD_le h hij (by omega)
      rw [hstart]
      unfold NUM at *
      omega
    · have hstart : runStart ngh (j + 1) = runStart ngh j := by rw [runStart, if_neg hgap]
      rw [hstart] at hlt ⊢
      exact ih (by omega) hlt

/-- A neighbour is a column of its own run only. -/
theorem runStart_eq_of_column (h : ngh.Pairwise (· < ·)) (hi : i < ngh.length) (hj : j < ngh.length)
    (hc : ngh.getD i 0 = column ngh j) : runStart ngh j = runStart ngh i := by
  have hstart : ∀ k < ngh.length, ngh.getD (runStart ngh k) 0 ≤ ngh.getD k 0 :=
    fun k hk => getD_le h (runStart_le ngh k) hk
  have hsi := hstart i hi
  have hsj := hstart j hj
  unfold column runBlock at hc
  rcases Nat.lt_trichotomy (runStart ngh j) (runStart ngh i) with hlt | heq | hlt
  · have := far_of_runStart_lt h hi hlt
    unfold NUM at *
    omega
  · exact heq
  · have := far_of_runStart_lt h hj hlt
    unfold NUM at *
    omega

end Runs

/-- Every neighbour is in the block of the first of its run, in the lane of some member of it. -/
def Aligned (ngh : List ℕ) : Prop :=
  ∀ i < ngh.length, ∃ j < ngh.length, runStart ngh j = runStart ngh i ∧
  ngh.getD i 0 = runBlock ngh i * NUM + j % NUM

/-- The product with `x` is, in lane `v`, the sum of `x` over the neighbours of `v`, and zero beyond
the vertices. -/
def Multiplies (g : Graph) (in_or_out : Bool) (x : List ℚ) : Prop :=
  ∀ v, lane (matrixMultiplyVector (.ofGraph g in_or_out) (vector2SIMDFloat x)) v =
    if v < g.vertex_num then ((g.ngh in_or_out v).map fun u => x.getD u 0).sum else 0

theorem lane_product (g : Graph) (in_or_out : Bool) (x : List ℚ) (v : ℕ) :
    lane (matrixMultiplyVector (.ofGraph g in_or_out) (vector2SIMDFloat x)) v =
      if v < g.vertex_num then columnSum (g.ngh in_or_out v) x else 0 := by
  unfold matrixMultiplyVector SIMDMatrix.ofGraph
  simp only [lane_vector2SIMDFloat, rowProduct_row]
  split_ifs with hv
  · rw [List.getD_eq_getElem _ _ (by simpa using hv)]
    simp
  · exact List.getD_eq_default _ _ (by simpa using hv)

/-- The columns are the neighbours, in some order. -/
theorem perm_columns {ngh : List ℕ} (hs : ngh.Pairwise (· < ·)) (h : Aligned ngh) :
    ngh.Perm ((List.range ngh.length).map (column ngh)) := by
  have hsub : ngh ⊆ (List.range ngh.length).map (column ngh) := by
    intro u hu
    obtain ⟨i, hi, rfl⟩ := List.mem_iff_getElem.mp hu
    obtain ⟨j, hj, hrun, hcol⟩ := h i hi
    refine List.mem_map.mpr ⟨j, List.mem_range.mpr hj, ?_⟩
    rw [← List.getD_eq_getElem _ 0 hi, hcol, column, runBlock, runBlock, hrun]
  have hnodup : ngh.Nodup := hs.imp fun hlt => hlt.ne
  exact (List.subperm_of_subset hnodup hsub).perm_of_length_le (by simp)

theorem columnSum_eq {ngh : List ℕ} (hs : ngh.Pairwise (· < ·)) (h : Aligned ngh) (x : List ℚ) :
    columnSum ngh x = (ngh.map fun u => x.getD u 0).sum := by
  have hperm := ((perm_columns hs h).map fun u => x.getD u 0).sum_eq
  rw [hperm, List.map_map]
  rfl

/-- A list that comes out right for the vectors with a single one has its neighbours among its
columns. -/
theorem aligned_of_columnSum {ngh : List ℕ} {n : ℕ} (hs : ngh.Pairwise (· < ·))
    (hn : ∀ u ∈ ngh, u < n)
    (h : ∀ x : List ℚ, x.length = n → columnSum ngh x = (ngh.map fun u => x.getD u 0).sum) :
    Aligned ngh := by
  intro i hi
  have hmem : ngh.getD i 0 ∈ ngh := by
    rw [List.getD_eq_getElem _ _ hi]
    exact List.getElem_mem hi
  obtain ⟨x, hx⟩ : ∃ x : List ℚ, x = (List.range n).map fun u => if u = ngh.getD i 0 then 1
      else 0 := ⟨_, rfl⟩
  have hget : ∀ u, x.getD u 0 = if u = ngh.getD i 0 then 1 else 0 := by
    intro u
    rw [hx]
    by_cases hu : u < n
    · rw [List.getD_eq_getElem _ _ (by simpa using hu)]
      simp
    · rw [List.getD_eq_default _ _ (by simpa using hu), if_neg]
      intro hui
      exact hu (hui ▸ hn _ hmem)
  -- one of the columns is the neighbour, or the sum would be zero
  obtain ⟨j, hj, hcol⟩ : ∃ j < ngh.length, ngh.getD i 0 = column ngh j := by
    by_contra hno
    have hzero : columnSum ngh x = 0 := by
      refine List.sum_eq_zero fun z hz => ?_
      obtain ⟨j, hj, rfl⟩ := List.mem_map.mp hz
      rw [hget, if_neg]
      intro hji
      exact hno ⟨j, List.mem_range.mp hj, hji.symm⟩
    have hpos : 0 < (ngh.map fun u => x.getD u 0).sum := by
      have hle := List.single_le_sum (l := ngh.map fun u => x.getD u 0) (fun z hz => by
        obtain ⟨u, -, rfl⟩ := List.mem_map.mp hz
        rw [hget]
        split_ifs <;> norm_num) _ (List.mem_map_of_mem hmem)
      rw [hget, if_pos rfl] at hle
      exact one_pos.trans_le hle
    rw [← h x (by rw [hx]; simp), hzero] at hpos
    exact lt_irrefl _ hpos
  have hrun := runStart_eq_of_column hs hi hj hcol
  refine ⟨j, hj, hrun, ?_⟩
  rw [hcol, column, runBlock, runBlock, hrun]

theorem Graph.sorted (g : Graph) (in_or_out : Bool) (v : ℕ) :
    (g.ngh in_or_out v).Pairwise (· < ·) := by
  unfold ngh
  split_ifs
  · exact g.inSorted v
  · exact g.outSorted v

theorem Graph.bound (g : Graph) (in_or_out : Bool) (v : ℕ) :
    ∀ u ∈ g.ngh in_or_out v, u < g.vertex_num := by
  unfold ngh
  split_ifs
  · exact g.inBound v
  · exact g.outBound v

/-- **When the product is right**: for every vector, if and only if all lists are aligned. -/
theorem multiplies_iff (g : Graph) (in_or_out : Bool) :
    (∀ x : List ℚ, x.length = g.vertex_num → Multiplies g in_or_out x) ↔
    ∀ v < g.vertex_num, Aligned (g.ngh in_or_out v) := by
  constructor
  · intro h v hv
    refine aligned_of_columnSum (g.sorted in_or_out v) (g.bound in_or_out v) fun x hx => ?_
    have hlane := h x hx v
    rwa [lane_product, if_pos hv, if_pos hv] at hlane
  · intro h x hx v
    rw [lane_product]
    split_ifs with hv
    · exact columnSum_eq (g.sorted in_or_out v) (h v hv) x
    · rfl

/-- Two vertices, and an edge from the first to the second. -/
def oneEdge : Graph where
  vertex_num := 2
  inList v := if v = 1 then [0] else []
  outList v := if v = 0 then [1] else []
  inSorted v := by split_ifs <;> simp
  outSorted v := by split_ifs <;> simp
  inBound v u hu := by split_ifs at hu <;> simp_all
  outBound v u hu := by split_ifs at hu <;> simp_all

/-- The first lane is to be that of the second vertex, and is that of the first. -/
theorem not_multiplies_oneEdge : ¬ Multiplies oneEdge false [5, 7] := by
  intro h
  have hlane := h 0
  rw [lane_product] at hlane
  simp [oneEdge, Graph.ngh, columnSum, column, runBlock, runStart, NUM] at hlane

end NetworkDemo.SIMD
