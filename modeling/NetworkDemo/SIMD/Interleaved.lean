import NetworkDemo.GangUtil.Submits
import NetworkDemo.SIMD.Matrix

/-!
# Sparse matrix times vector, access by access

In `SIMD.Matrix` the task of a vertex is one step. Here it is a program: the constructor appends to
the vertex's offsets and to its data one entry at a time, `matrixMultiplyVector` loads and stores
`ret[v]` for each block, and `vector2SIMDFloat` stores a register. The workers of each `gu.submit`
interleave these with their fetch-and-adds as they like.

A task is about one cell of what it writes, that of its index (`OnCell`). What it reads besides is
not written by the tasks of the same submit.

* `productRuns_iff` — a matrix made, a vector put into lanes and the product come out as if the
  tasks had been run one after the other.
-/

namespace NetworkDemo.SIMD

open Foundations Gang GangUtil

/-! ### Tasks of one cell -/

/-- The task of index `v` makes of cell `v` what `g v` makes of it, and is about no other cell. -/
structure OnCell {α : Type} (n : ℕ) (f : SizeT → Prog (ℕ → α) Unit) (g : ℕ → α → α) : Prop where
  within : ∀ v < n, (f (BitVec.ofNat 64 v)).Within (V := fun _ => α) (places (· = v))
  run : ∀ v < n, ∀ m, ((f (BitVec.ofNat 64 v)).run m).2 = Function.update m v (g v (m v))

section Cells

variable {α : Type} {n : ℕ} {f : SizeT → Prog (ℕ → α) Unit} {g : ℕ → α → α} {m m' : ℕ → α}
    {G : Submitter}

theorem OnCell.own (h : OnCell n f g) : OwnPlaces n f fun j k => k = j :=
  ⟨h.within, fun _ _ _ _ hij _ hk hk' => hij (hk.symm.trans hk')⟩

theorem OnCell.looped (h : OnCell n f g) :
    looped n f m = fun k => if k < n then g k (m k) else m k := by
  have hrun : GangUtil.looped n f m = (List.range n).foldl
      (fun m v => Function.update m v (g v (m v))) m :=
    List.foldl_ext _ _ _ fun m v hv => h.run v (List.mem_range.mp hv) m
  rw [hrun]
  clear hrun h
  induction n with
  | zero => rfl
  | succ n ih =>
    rw [List.range_succ, List.foldl_append, ih]
    funext k
    simp only [List.foldl_cons, List.foldl_nil]
    by_cases hk : k = n
    · rw [hk, Function.update_self, if_neg (Nat.lt_irrefl n), if_pos (Nat.lt_succ_self n)]
    · rw [Function.update_of_ne hk]
      by_cases hlt : k < n
      · rw [if_pos hlt, if_pos (by omega)]
      · rw [if_neg hlt, if_neg (by omega)]

theorem OnCell.submits (h : OnCell n f g) (hG : G.Ok)
    (hroom : n + (G.num.toNat + 1) * G.SMALL_SIZE.toNat < 2 ^ 64) :
    G.Submits n f m m' ↔ m' = fun k => if k < n then g k (m k) else m k := by
  rw [submits_iff hG h.own hroom, h.looped]

/-- A change of one cell. -/
theorem write_within {v : ℕ} {c : (ℕ → α) → α} (hc : ∀ m m' : ℕ → α, m v = m' v → c m = c m') :
    (Prog.write fun m : ℕ → α => Function.update m v (c m)).Within (V := fun _ => α)
    (places (· = v)) := by
  refine .write ⟨fun m k hk => Function.update_of_ne hk _ _, fun m m' hm k hk => ?_⟩
  have hk : k = v := hk
  rw [hk, Function.update_self, Function.update_self]
  exact hc m m' (hm v (.inr rfl))

end Cells

/-! ### The constructor -/

/-- `SIMD_offsets[v]` and `SIMD_data[v]`. -/
abbrev Cell := List ℕ × List SIMDFloat

/-- `SIMD_offsets[v].emplace_back(offset)`. -/
def pushOffset (v offset : ℕ) : Prog (ℕ → Cell) Unit :=
  Prog.write fun m => Function.update m v ((m v).1 ++ [offset], (m v).2)

/-- `SIMD_data[v].emplace_back(unit)`. -/
def pushData (v : ℕ) (unit : SIMDFloat) : Prog (ℕ → Cell) Unit :=
  Prog.write fun m => Function.update m v ((m v).1, (m v).2 ++ [unit])

/-- One turn: the `unit` after it. -/
def rowTurnActs (ngh : List ℕ) (v : ℕ) (unit : SIMDFloat) (i : ℕ) : Prog (ℕ → Cell) SIMDFloat :=
  let unit := Function.update unit (laneOf i) (unit (laneOf i) + 1)
  if Closes ngh i then do
    pushData v unit
    if i + 1 ≠ ngh.length then pushOffset v (ngh.getD (i + 1) 0 / NUM) else pure ()
    return 0
  else return unit

/-- The task for one vertex. -/
def rowCall (ngh : ℕ → List ℕ) (v : SizeT) : Prog (ℕ → Cell) Unit :=
  if ngh v.toNat = [] then return ()
  else do
    pushOffset v.toNat ((ngh v.toNat).getD 0 0 / NUM)
    let _ ← (List.range (ngh v.toNat).length).foldlM (rowTurnActs (ngh v.toNat) v.toNat) 0
    return ()

/-- `SIMDMatrix(g, in_or_out)` can come out like this. -/
def MatrixRuns (G : Submitter) (g : Graph) (in_or_out : Bool) (sm : SIMDMatrix) : Prop :=
  sm.vertex_num = g.vertex_num ∧ G.Submits g.vertex_num (rowCall (g.ngh in_or_out))
    (fun _ => ([], []))
    fun v => (sm.SIMD_offsets v, sm.SIMD_data v)

section Constructor

variable {ngh : List ℕ} {v : ℕ} {m : ℕ → Cell}

theorem pushOffset_within (v offset : ℕ) :
    (pushOffset v offset).Within (V := fun _ => Cell) (places (· = v)) :=
  write_within (c := fun m => ((m v).1 ++ [offset], (m v).2)) fun m m' h => by rw [h]

theorem pushData_within (v : ℕ) (unit : SIMDFloat) :
    (pushData v unit).Within (V := fun _ => Cell) (places (· = v)) :=
  write_within (c := fun m => ((m v).1, (m v).2 ++ [unit])) fun m m' h => by rw [h]

theorem rowTurnActs_within (unit : SIMDFloat) (i : ℕ) :
    (rowTurnActs ngh v unit i).Within (V := fun _ => Cell) (places (· = v)) := by
  unfold rowTurnActs
  dsimp only
  split_ifs
  · exact .bind (pushData_within v _) fun _ => .bind (pushOffset_within v _) fun _ => .pure _
  · exact .bind (pushData_within v _) fun _ => .bind (.pure _) fun _ => .pure _
  · exact .pure _

theorem rowCall_within (ngh : ℕ → List ℕ) (v : SizeT) :
    (rowCall ngh v).Within (V := fun _ => Cell) (places (· = v.toNat)) := by
  unfold rowCall
  split_ifs
  · exact .pure _
  · exact .bind (pushOffset_within _ _) fun _ => .bind
      (.foldlM (fun i _ r => rowTurnActs_within r i) _) fun _ => .pure _

/-- A turn is `rowTurn` on the cell. -/
theorem run_rowTurnActs (s : Row) (i : ℕ) :
    (rowTurnActs ngh v s.unit i).run (Function.update m v (s.offsets, s.data)) =
    ((rowTurn ngh s i).unit, Function.update m v ((rowTurn ngh s i).offsets,
      (rowTurn ngh s i).data)) := by
  unfold rowTurnActs rowTurn pushData pushOffset
  dsimp only
  split_ifs
  · simp only [Prog.run_bind, Prog.run_write, Prog.run_pure, Function.update_self,
      Function.update_idem]
  · simp only [Prog.run_bind, Prog.run_write, Prog.run_pure, Function.update_self,
      Function.update_idem]
  · rfl

theorem run_rowTurns (is : List ℕ) (s : Row) :
    (is.foldlM (rowTurnActs ngh v) s.unit).run (Function.update m v (s.offsets, s.data)) =
      ((is.foldl (rowTurn ngh) s).unit,
        Function.update m v ((is.foldl (rowTurn ngh) s).offsets,
          (is.foldl (rowTurn ngh) s).data)) := by
  induction is generalizing s with
  | nil => rfl
  | cons i is ih => rw [List.foldlM_cons, Prog.run_bind, run_rowTurnActs, ih, List.foldl_cons]

/-- A vertex's offsets and data, after those that are there. -/
def rowAfter (ngh : List ℕ) (c : Cell) : Cell :=
  if ngh = [] then c
  else
    let s := (List.range ngh.length).foldl (rowTurn ngh) ⟨0, c.1 ++ [ngh.getD 0 0 / NUM], c.2⟩
    (s.offsets, s.data)

theorem run_rowCall (ngh : ℕ → List ℕ) (v : SizeT) (m : ℕ → Cell) :
    ((rowCall ngh v).run m).2 = Function.update m v.toNat (rowAfter (ngh v.toNat) (m v.toNat)) := by
  unfold rowCall rowAfter
  split_ifs
  · exact (Function.update_eq_self _ _).symm
  · rw [Prog.run_bind, Prog.run_bind]
    exact congrArg Prod.snd (run_rowTurns _ ⟨0, (m v.toNat).1 ++ [_], (m v.toNat).2⟩)

theorem rowAfter_nil (ngh : List ℕ) :
    rowAfter ngh ([], []) = ((row ngh).offsets, (row ngh).data) := by
  unfold rowAfter row
  split_ifs
  · rfl
  · rfl

theorem rowCall_onCell (ngh : ℕ → List ℕ) {n : ℕ} (hn : n < 2 ^ 64) :
    OnCell n (rowCall ngh) fun v => rowAfter (ngh v) where
  within v hv := by
    have h : (rowCall ngh (BitVec.ofNat 64 v)).Within (V := fun _ => Cell) _ := rowCall_within _ _
    rwa [toNat_ofNat_of_lt (hv.trans hn)] at h
  run v hv m := by rw [run_rowCall, toNat_ofNat_of_lt (hv.trans hn)]

end Constructor

/-! ### Vectors -/

/-- How many registers a vector takes. -/
def registers (vec : List ℚ) : ℕ := (if vec.length % NUM = 0 then 0 else 1) + vec.length / NUM

/-- Register `i` of a vector. -/
def register (vec : List ℚ) (i : ℕ) : SIMDFloat :=
  fun j => if i * NUM + j < vec.length then vec.getD (i * NUM + j) 0 else 0

/-- `vector2SIMDFloat(vec)` can come out like this. -/
def VectorRuns (G : Submitter) (vec : List ℚ) (ret : List SIMDFloat) : Prop :=
  ∃ cells : ℕ → SIMDFloat, G.Submits (registers vec) (storeCall id (register vec))
    (fun _ => 0) cells ∧
    ret = (List.range (registers vec)).map cells

/-- One turn of `matrixMultiplyVector`: `ret[v]` is loaded and stored. -/
def mulTurnActs (offset : List ℕ) (data vec : List SIMDFloat) (v i : ℕ) : Prog (ℕ → ℚ) Unit := do
  let r ← Prog.read fun ret => ret v
  Prog.write fun ret => Function.update ret v (r + dotProduct (data.getD i 0)
    (vec.getD (offset.getD i 0) 0))

/-- The task for one vertex. -/
def mulCall (sm : SIMDMatrix) (vec : List SIMDFloat) (v : SizeT) : Prog (ℕ → ℚ) Unit :=
  (List.range (sm.SIMD_offsets v.toNat).length).foldlM
    (fun _ => mulTurnActs (sm.SIMD_offsets v.toNat) (sm.SIMD_data v.toNat) vec v.toNat) ()

/-- `matrixMultiplyVector(sm, vec)` can come out like this. -/
def MultiplyRuns (G : Submitter) (sm : SIMDMatrix) (vec res : List SIMDFloat) : Prop :=
  ∃ ret : ℕ → ℚ, G.Submits sm.vertex_num (mulCall sm vec) (fun _ => 0) ret ∧
    VectorRuns G ((List.range sm.vertex_num).map ret) res

/-- A matrix and a vector are made and multiplied. -/
def ProductRuns (G : Submitter) (g : Graph) (in_or_out : Bool) (x : List ℚ) (res : List SIMDFloat) :
    Prop :=
  ∃ sm vec, MatrixRuns G g in_or_out sm ∧ VectorRuns G x vec ∧ MultiplyRuns G sm vec res

section Product

variable {G : Submitter} {g : Graph} {in_or_out : Bool} {sm : SIMDMatrix} {x : List ℚ}
    {vec res : List SIMDFloat}
  {offset : List ℕ} {data : List SIMDFloat} {v : ℕ}

theorem registers_le (x : List ℚ) : registers x ≤ x.length := by
  unfold registers NUM
  split_ifs <;> omega

theorem vectorRuns_iff (hG : G.Ok)
    (hroom : x.length + (G.num.toNat + 1) * G.SMALL_SIZE.toNat < 2 ^ 64) :
    VectorRuns G x res ↔ res = vector2SIMDFloat x := by
  have hle := registers_le x
  have hstores : ∀ cells, G.Submits (registers x) (storeCall id (register x)) (fun _ => 0) cells ↔
      cells = fun k => if k < registers x then register x k else 0 := fun cells => by
    have hid : ∀ i < registers x, ∀ j < registers x, id i = id j → i = j := fun _ _ _ _ h => h
    rw [submits_stores hG hid (by omega), stored_id_iff]
  have hmap : (List.range (registers x)).map (fun k =>
      if k < registers x then register x k else 0) = vector2SIMDFloat x :=
    List.map_congr_left fun k hk => if_pos (List.mem_range.mp hk)
  constructor
  · rintro ⟨cells, hsub, rfl⟩
    rw [(hstores cells).mp hsub, hmap]
  · rintro rfl
    exact ⟨_, (hstores _).mpr rfl, hmap.symm⟩

theorem mulTurnActs_within (i : ℕ) :
    (mulTurnActs offset data vec v i).Within (V := fun _ => ℚ) (places (· = v)) := by
  refine .bind (.read fun m m' hm => hm v (.inr rfl)) fun r => .write (keeps_update ?_ _)
  rfl

theorem run_mulTurns (offset : List ℕ) (data vec : List SIMDFloat) (v : ℕ) (is : List ℕ)
    (r : ℚ) (m : ℕ → ℚ) :
    ((is.foldlM (fun _ => mulTurnActs offset data vec v) ()).run (Function.update m v r)).2 =
      Function.update m v (is.foldl (fun r i => r + dotProduct (data.getD i 0)
        (vec.getD (offset.getD i 0) 0)) r) := by
  induction is generalizing r with
  | nil => rfl
  | cons i is ih =>
    have hturn : (mulTurnActs offset data vec v i).run (Function.update m v r) =
        ((), Function.update m v (r + dotProduct (data.getD i 0)
          (vec.getD (offset.getD i 0) 0))) := by
      simp only [mulTurnActs, Prog.run_bind, Prog.run_read, Prog.run_write, Function.update_self,
        Function.update_idem]
    rw [List.foldlM_cons, Prog.run_bind, hturn, ih, List.foldl_cons]

/-- What a task adds up, to what is there. -/
def addedTo (sm : SIMDMatrix) (vec : List SIMDFloat) (v : ℕ) (r : ℚ) : ℚ :=
  (List.range (sm.SIMD_offsets v).length).foldl
    (fun r i => r + dotProduct ((sm.SIMD_data v).getD i 0)
      (vec.getD ((sm.SIMD_offsets v).getD i 0) 0)) r

theorem mulCall_onCell {n : ℕ} (hn : n < 2 ^ 64) : OnCell n (mulCall sm vec) (addedTo sm vec) where
  within v hv := by
    have h : (mulCall sm vec (BitVec.ofNat 64 v)).Within (V := fun _ => ℚ)
      (places (· = (BitVec.ofNat 64 v).toNat)) :=
      .foldlM (fun i _ _ => mulTurnActs_within i) _
    rwa [toNat_ofNat_of_lt (hv.trans hn)] at h
  run v hv m := by
    have h := run_mulTurns (sm.SIMD_offsets v) (sm.SIMD_data v) vec v
      (List.range (sm.SIMD_offsets v).length) (m v) m
    rw [Function.update_eq_self] at h
    unfold mulCall
    rwa [toNat_ofNat_of_lt (hv.trans hn)]

theorem multiplyRuns_iff (hG : G.Ok)
    (hroom : sm.vertex_num + (G.num.toNat + 1) * G.SMALL_SIZE.toNat < 2 ^ 64) :
    MultiplyRuns G sm vec res ↔ res = matrixMultiplyVector sm vec := by
  have hsub : ∀ ret, G.Submits sm.vertex_num (mulCall sm vec) (fun _ => 0) ret ↔
      ret = fun k => if k < sm.vertex_num then addedTo sm vec k 0 else 0 := fun ret =>
    (mulCall_onCell (by omega)).submits hG hroom
  have hmap :
      (List.range sm.vertex_num).map
      (fun k => if k < sm.vertex_num then addedTo sm vec k 0 else 0) =
      (List.range sm.vertex_num).map fun v => rowProduct (sm.SIMD_offsets v) (sm.SIMD_data v) vec :=
    List.map_congr_left fun k hk => if_pos (List.mem_range.mp hk)
  have hvec : VectorRuns G ((List.range sm.vertex_num).map fun k =>
      if k < sm.vertex_num then addedTo sm vec k 0 else 0) res ↔
      res = matrixMultiplyVector sm vec := by
    rw [hmap, vectorRuns_iff hG (by rw [List.length_map, List.length_range]; exact hroom)]
    rfl
  constructor
  · rintro ⟨ret, hret, hres⟩
    rw [(hsub ret).mp hret] at hres
    exact hvec.mp hres
  · exact fun h => ⟨_, (hsub _).mpr rfl, hvec.mpr h⟩

/-- The rows of the vertices are as they are made one after the other. -/
theorem matrixRuns_iff (hG : G.Ok)
    (hroom : g.vertex_num + (G.num.toNat + 1) * G.SMALL_SIZE.toNat < 2 ^ 64) :
    MatrixRuns G g in_or_out sm ↔ sm.vertex_num = g.vertex_num ∧ ∀ v,
      (sm.SIMD_offsets v, sm.SIMD_data v) =
      if v < g.vertex_num then ((SIMDMatrix.ofGraph g in_or_out).SIMD_offsets v,
        (SIMDMatrix.ofGraph g in_or_out).SIMD_data v)
      else ([], []) := by
  unfold MatrixRuns
  rw [(rowCall_onCell _ (by omega)).submits hG hroom, funext_iff]
  refine and_congr_right fun _ => forall_congr' fun v => ?_
  rw [rowAfter_nil]
  rfl

/-- Only the rows of the vertices are read. -/
theorem matrixMultiplyVector_congr {sm' : SIMDMatrix} (hnum : sm.vertex_num = sm'.vertex_num)
    (hrows : ∀ v < sm'.vertex_num, sm.SIMD_offsets v = sm'.SIMD_offsets v ∧
      sm.SIMD_data v = sm'.SIMD_data v) :
    matrixMultiplyVector sm vec = matrixMultiplyVector sm' vec := by
  unfold matrixMultiplyVector
  rw [hnum]
  refine congrArg vector2SIMDFloat (List.map_congr_left fun v hv => ?_)
  rw [(hrows v (List.mem_range.mp hv)).1, (hrows v (List.mem_range.mp hv)).2]

/-- **The product of a gang**, with the loads, stores and appends of all tasks interleaved, is that
of the tasks one after the other. -/
theorem productRuns_iff (hG : G.Ok) (hx : x.length = g.vertex_num)
    (hroom : g.vertex_num + (G.num.toNat + 1) * G.SMALL_SIZE.toNat < 2 ^ 64) :
    ProductRuns G g in_or_out x res ↔
      res = matrixMultiplyVector (SIMDMatrix.ofGraph g in_or_out) (vector2SIMDFloat x) := by
  have hvec : ∀ {vec}, VectorRuns G x vec ↔ vec = vector2SIMDFloat x :=
    vectorRuns_iff hG (by rw [hx]; exact hroom)
  constructor
  · rintro ⟨sm, vec, hsm, hv, hres⟩
    obtain ⟨hnum, hrows⟩ := (matrixRuns_iff hG hroom).mp hsm
    obtain rfl := hvec.mp hv
    rw [(multiplyRuns_iff hG (by rw [hnum]; exact hroom)).mp hres]
    refine matrixMultiplyVector_congr hnum fun v hlt => ?_
    have hrow := hrows v
    change v < g.vertex_num at hlt
    rw [if_pos hlt] at hrow
    exact Prod.mk.inj hrow
  · rintro rfl
    let sm : SIMDMatrix :=
      ⟨g.vertex_num, fun v => if v < g.vertex_num then (SIMDMatrix.ofGraph g in_or_out).SIMD_offsets
      v else [],
      fun v => if v < g.vertex_num then (SIMDMatrix.ofGraph g in_or_out).SIMD_data v else []⟩
    refine ⟨sm, _, (matrixRuns_iff hG hroom).mpr ⟨rfl, fun v => ?_⟩, hvec.mpr rfl,
      (multiplyRuns_iff hG hroom).mpr ?_⟩
    · show (ite _ _ _, ite _ _ _) = _
      split_ifs
      · rfl
      · rfl
    · have hrows : ∀ v < g.vertex_num, sm.SIMD_offsets v =
          (SIMDMatrix.ofGraph g in_or_out).SIMD_offsets v ∧
          sm.SIMD_data v = (SIMDMatrix.ofGraph g in_or_out).SIMD_data v :=
            fun v hlt => ⟨if_pos hlt, if_pos hlt⟩
      exact Eq.symm (matrixMultiplyVector_congr rfl hrows)

end Product

/-- A graph of two vertices and one edge, and four threads. -/
theorem productRuns_iff_oneEdge :
    ProductRuns fourThreads oneEdge true [5, 7]
        (matrixMultiplyVector (SIMDMatrix.ofGraph oneEdge true) (vector2SIMDFloat [5, 7])) :=
  (productRuns_iff fourThreads_ok rfl (by decide)).mpr rfl

end NetworkDemo.SIMD
