import Mathlib.Data.List.Range
import Mathlib.Tactic.Ring

/-!
# Records in a memory

A record is `w` consecutive cells, and a list of records is one after the other:
`records mem p n` are the `n` records from `p` on. A list stored from `p` on is what is read
there (`records_store`), one stored behind `n` records is read behind them
(`records_store_append`), and what is read depends on the cells it is read from only
(`records_congr`).
-/

namespace NetworkDemo.Foundations

universe u

variable {β : Type u} {w : ℕ}

/-- Record `k` from `p` on. -/
def record (w : ℕ) (mem : ℕ → β) (p k : ℕ) : Fin w → β := fun j => mem (p + k * w + j)

/-- The `n` records from `p` on. -/
def records (w : ℕ) (mem : ℕ → β) (p n : ℕ) : List (Fin w → β) :=
  (List.range n).map (record w mem p)

/-- A cell of a list of records. -/
theorem div_lt_of_lt_mul {i n : ℕ} (h : i < n * w) : i / w < n :=
  Nat.div_lt_of_lt_mul (Nat.mul_comm n w ▸ h)

theorem pos_of_lt_mul {i n : ℕ} (h : i < n * w) : 0 < w := Nat.pos_of_ne_zero fun h0 => by
  rw [h0, Nat.mul_zero] at h
  exact Nat.not_lt_zero i h

/-- Store a list of records from `p` on. -/
def storeRecords (mem : ℕ → β) (p : ℕ) (xs : List (Fin w → β)) : ℕ → β := fun q =>
  if h : p ≤ q ∧ q - p < xs.length * w then
    xs.get ⟨(q - p) / w, div_lt_of_lt_mul h.2⟩ ⟨(q - p) % w, Nat.mod_lt _ (pos_of_lt_mul h.2)⟩
  else mem q

variable {mem mem' : ℕ → β} {p q n m : ℕ} {xs ys : List (Fin w → β)}

@[simp] theorem length_records : (records w mem p n).length = n := by
  rw [records, List.length_map, List.length_range]

theorem getElem_records {k : ℕ} (h : k < (records w mem p n).length) :
    (records w mem p n)[k] = record w mem p k := by
  simp only [records, List.getElem_map, List.getElem_range]

@[simp] theorem records_zero : records w mem p 0 = [] := rfl

/-- A cell outside is left alone. -/
theorem storeRecords_frame (h : q < p ∨ p + xs.length * w ≤ q) : storeRecords mem p xs q = mem q :=
  dif_neg (by omega)

/-- A cell inside has its place in a record. -/
theorem storeRecords_cell {k : ℕ} (hk : k < xs.length) (j : Fin w) :
    storeRecords mem p xs (p + k * w + j) = xs[k] j := by
  have hw : 0 < w := Nat.lt_of_le_of_lt (Nat.zero_le _) j.isLt
  have hsub : p + k * w + j - p = k * w + j := by omega
  have hdiv : (p + k * w + j - p) / w = k := by
    rw [hsub, Nat.mul_comm, Nat.mul_add_div hw, Nat.div_eq_of_lt j.isLt, Nat.add_zero]
  have hmod : (p + k * w + j - p) % w = j := by
    rw [hsub, Nat.mul_comm, Nat.mul_add_mod, Nat.mod_eq_of_lt j.isLt]
  have hlt : k * w + j < xs.length * w := by
    have : (k + 1) * w ≤ xs.length * w := Nat.mul_le_mul_right w hk
    rw [Nat.succ_mul] at this
    have := j.isLt
    omega
  have hin : p ≤ p + k * w + j ∧ p + k * w + j - p < xs.length * w := ⟨by omega, hsub ▸ hlt⟩
  rw [storeRecords, dif_pos hin]
  have hfin : (⟨(p + k * w + j - p) / w, div_lt_of_lt_mul hin.2⟩ : Fin xs.length) = ⟨k, hk⟩ :=
    Fin.ext hdiv
  rw [hfin]
  exact congrArg (xs.get ⟨k, hk⟩) (Fin.ext hmod)

/-- What is read depends on the cells it is read from. -/
theorem records_congr (h : ∀ q, p ≤ q → q < p + n * w → mem' q = mem q) :
    records w mem' p n = records w mem p n := by
  refine List.map_congr_left fun k hk => funext fun j => ?_
  have hkn : (k + 1) * w ≤ n * w := Nat.mul_le_mul_right w (List.mem_range.mp hk)
  rw [Nat.succ_mul] at hkn
  have := j.isLt
  exact h _ (by omega) (by omega)

/-- The same records at another place. -/
theorem records_move {p' : ℕ} (h : ∀ i, i < n * w → mem' (p' + i) = mem (p + i)) :
    records w mem' p' n = records w mem p n := by
  refine List.map_congr_left fun k hk => funext fun j => ?_
  have hkn : (k + 1) * w ≤ n * w := Nat.mul_le_mul_right w (List.mem_range.mp hk)
  rw [Nat.succ_mul] at hkn
  have := j.isLt
  show mem' (p' + k * w + j) = mem (p + k * w + j)
  rw [Nat.add_assoc, Nat.add_assoc]
  exact h _ (by omega)

theorem records_add : records w mem p (n + m) = records w mem p n ++ records w mem
    (p + n * w) m := by
  rw [records, List.range_add, List.map_append, List.map_map]
  refine congrArg (records w mem p n ++ ·) (List.map_congr_left fun k _ => funext fun j => ?_)
  show mem (p + (n + k) * w + j) = mem (p + n * w + k * w + j)
  rw [Nat.add_mul, ← Nat.add_assoc]

theorem take_records (h : m ≤ n) : (records w mem p n).take m = records w mem p m := by
  obtain ⟨d, rfl⟩ := Nat.exists_eq_add_of_le h
  rw [records_add, List.take_left' length_records]

theorem drop_records (h : m ≤ n) :
    (records w mem p n).drop m = records w mem (p + m * w) (n - m) := by
  obtain ⟨d, rfl⟩ := Nat.exists_eq_add_of_le h
  rw [records_add, List.drop_left' length_records, Nat.add_sub_cancel_left]

/-- What is stored is read. -/
theorem records_store : records w (storeRecords mem p xs) p xs.length = xs := by
  refine List.ext_getElem length_records fun k _ hk => ?_
  rw [getElem_records]
  funext j
  exact storeRecords_cell hk j

/-- A list stored behind others. -/
theorem records_store_append :
    records w (storeRecords mem (p + n * w) xs) p (n + xs.length) = records w mem p n ++ xs := by
  rw [records_add, records_store, records_congr fun q _ hq => storeRecords_frame (.inl hq)]

end NetworkDemo.Foundations
