import NetworkDemo.Foundations.Footprints
import Mathlib.Order.Monotone.Basic
import Mathlib.Data.List.Range

/-!
# Storing a list

A memory of cells that keeps a record of the stores made to it. A list is stored at
consecutive cells, in order (`storeAll`), or cut into pieces that are stored in any
order, each where the pieces before it end (`foldl_pieces`).
-/

namespace NetworkDemo.Foundations

universe u

/-- The cells, and the stores so far. -/
structure Memory (α : Type u) where
  cells : ℕ → α
  written : List ℕ

namespace Memory

variable {α : Type u} {m : Memory α} {p q : ℕ} {xs : List α}

/-- Store `x` at `p`. -/
def store (m : Memory α) (p : ℕ) (x : α) : Memory α :=
  ⟨Function.update m.cells p x, m.written ++ [p]⟩

/-- Store a list from `p` on. -/
def storeAll (m : Memory α) (p : ℕ) : List α → Memory α
  | [] => m
  | x :: xs => (m.store p x).storeAll (p + 1) xs

@[simp] theorem storeAll_nil : m.storeAll p [] = m := rfl

theorem storeAll_append (ys : List α) :
    m.storeAll p (xs ++ ys) = (m.storeAll p xs).storeAll (p + xs.length) ys := by
  induction xs generalizing m p with
  | nil => simp
  | cons x xs ih =>
    show (m.store p x).storeAll (p + 1) (xs ++ ys) =
        ((m.store p x).storeAll (p + 1) xs).storeAll _ ys
    rw [ih, List.length_cons, Nat.add_right_comm, Nat.add_assoc]

/-- Each cell is stored to once. -/
theorem storeAll_written : (m.storeAll p xs).written = m.written ++ List.range' p xs.length := by
  induction xs generalizing m p with
  | nil => simp
  | cons x xs ih =>
    show ((m.store p x).storeAll (p + 1) xs).written = _
    rw [ih, List.length_cons, List.range'_succ, store, List.append_assoc]
    rfl

/-- A cell outside is left alone. -/
theorem storeAll_frame (h : q < p ∨ p + xs.length ≤ q) : (m.storeAll p xs).cells q = m.cells q := by
  induction xs generalizing m p with
  | nil => rfl
  | cons x xs ih =>
    rw [List.length_cons] at h
    show ((m.store p x).storeAll (p + 1) xs).cells q = m.cells q
    rw [ih (by omega)]
    exact Function.update_of_ne (by omega) _ _

/-- A cell inside has its element. -/
theorem storeAll_cells {k : ℕ} (h : k < xs.length) : (m.storeAll p xs).cells (p + k) = xs[k] := by
  induction xs generalizing m p k with
  | nil => cases h
  | cons x xs ih =>
    show ((m.store p x).storeAll (p + 1) xs).cells (p + k) = _
    cases k with
    | zero =>
      rw [storeAll_frame (.inl (by omega))]
      exact Function.update_self ..
    | succ k =>
      rw [List.length_cons] at h
      have := ih (m := m.store p x) (p := p + 1) (k := k) (by omega)
      rwa [Nat.add_assoc, Nat.add_comm 1 k] at this

/-! ### In pieces -/

/-- As a change of the cells. -/
def fill (p : ℕ) (xs : List α) (cells : ℕ → α) : ℕ → α :=
  ((⟨cells, []⟩ : Memory α).storeAll p xs).cells

theorem cells_storeAll : (m.storeAll p xs).cells = fill p xs m.cells := by
  funext q
  by_cases h : q < p ∨ p + xs.length ≤ q
  · rw [fill, storeAll_frame h, storeAll_frame h]
  · obtain ⟨k, rfl⟩ : ∃ k, q = p + k := ⟨q - p, by omega⟩
    have hk : k < xs.length := by omega
    rw [fill, storeAll_cells hk, storeAll_cells hk]

theorem fill_within : Within (fill p xs) fun q => p ≤ q ∧ q < p + xs.length where
  frame cells q hq := storeAll_frame (by omega)
  reads cells cells' _ q hq := by
    obtain ⟨k, rfl⟩ : ∃ k, q = p + k := ⟨q - p, by omega⟩
    have hk : k < xs.length := by omega
    rw [fill, fill, storeAll_cells hk, storeAll_cells hk]

/-- Where piece `j` begins. -/
def start (piece : ℕ → List α) (p j : ℕ) : ℕ := p + ((List.range j).flatMap piece).length

theorem start_succ (piece : ℕ → List α) (p j : ℕ) :
    start piece p (j + 1) = start piece p j + (piece j).length := by
  simp [start, List.range_succ, Nat.add_assoc]

theorem start_mono (piece : ℕ → List α) (p : ℕ) : Monotone (start piece p) :=
  monotone_nat_of_le_succ fun j => by
    rw [start_succ]
    omega

/-- Store the pieces, in the order given. -/
def storePieces (m : Memory α) (piece : ℕ → List α) (p : ℕ) (order : List ℕ) : Memory α :=
  order.foldl (fun m j => m.storeAll (start piece p j) (piece j)) m

variable {piece : ℕ → List α} {order : List ℕ} {n : ℕ}

/-- One piece after the other is the whole list. -/
theorem storePieces_range :
    m.storePieces piece p (List.range n) = m.storeAll p ((List.range n).flatMap piece) := by
  unfold storePieces
  induction n with
  | zero => rfl
  | succ n ih =>
    rw [List.range_succ, List.foldl_append, ih, List.flatMap_append, storeAll_append]
    simp [start]

theorem cells_storePieces : (m.storePieces piece p order).cells =
    order.foldl (fun cells j => fill (start piece p j) (piece j) cells) m.cells := by
  unfold storePieces
  induction order generalizing m with
  | nil => rfl
  | cons j order ih => rw [List.foldl_cons, ih, List.foldl_cons, cells_storeAll]

theorem written_storePieces : (m.storePieces piece p order).written =
    m.written ++ order.flatMap fun j => List.range' (start piece p j) (piece j).length := by
  unfold storePieces
  induction order generalizing m with
  | nil => simp
  | cons j order ih =>
    rw [List.foldl_cons, ih, storeAll_written, List.flatMap_cons, List.append_assoc]

theorem pieces_disjoint {i j : ℕ} (hne : i ≠ j)
    (h : start piece p i ≤ q ∧ q < start piece p i + (piece i).length) :
    ¬ (start piece p j ≤ q ∧ q < start piece p j + (piece j).length) := by
  rw [← start_succ] at h ⊢
  rcases Nat.lt_or_gt_of_ne hne with hlt | hlt
  · have : start piece p (i + 1) ≤ start piece p j := start_mono piece p hlt
    omega
  · have : start piece p (j + 1) ≤ start piece p i := start_mono piece p hlt
    omega

/-- **The pieces in any order** leave the cells as the whole list does, -/
theorem storePieces_cells (ho : order.Perm (List.range n)) :
    (m.storePieces piece p order).cells = (m.storeAll p ((List.range n).flatMap piece)).cells := by
  rw [← storePieces_range, cells_storePieces, cells_storePieces]
  exact foldl_within_perm (fun j _ => fill_within) (ho.nodup_iff.mpr List.nodup_range)
    (fun i _ j _ hne q hq => pieces_disjoint hne hq) ho _

/-- and each cell is stored to once. -/
theorem storePieces_written (m : Memory α) (piece : ℕ → List α) (p : ℕ)
    (ho : order.Perm (List.range n)) : ∃ w, (m.storePieces piece p order).written = m.written ++ w ∧
    w.Perm (List.range' p ((List.range n).flatMap piece).length) := by
  refine ⟨_, written_storePieces, ?_⟩
  have hall : _ = (m.storePieces piece p (List.range n)).written := written_storePieces.symm
  rw [storePieces_range, storeAll_written, List.append_cancel_left_eq] at hall
  rw [← hall]
  exact ho.flatMap_right _

end Memory

end NetworkDemo.Foundations
