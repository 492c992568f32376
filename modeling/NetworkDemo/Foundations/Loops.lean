import NetworkDemo.Foundations.Runs
import Mathlib.Algebra.BigOperators.Group.Finset.Basic
import Mathlib.Algebra.Order.BigOperators.Group.Finset
import Mathlib.Algebra.Order.Floor.Div
import Mathlib.Algebra.Order.Group.Multiset

/-!
# Counted loops

`forUnsigned` is a loop whose counter is an `unsigned int` and whose bound may be of a
wider type: with a bound of `2³²` or more the counter wraps before it gets there. With
a smaller one the loop is a fold over the indices below the bound (`forUnsigned_eq`),
and a fold over a range is proved correct by an invariant indexed by the turn
(`foldl_range`). A loop with a condition and no counter is the relation of its runs, the
turns counted (`WhileRun`); from a state there is at most one.

What a loop cuts an interval into is told by its *cut points*: `c 0 ≤ c 1 ≤ …`, the
`t`-th piece reaching from `c t` to `c (t + 1)`. Every number from `c 0` to `c n` is in
one of the first `n` pieces (`countThreads_cuts`). Pieces of one length are `chunks`, the
last of them being shorter.
-/

namespace NetworkDemo.Foundations

universe u

section Loops

variable {σ : Type u} {w : ℕ}

/-- `for (unsigned i = i₀; i < bound; ++i) s = body(s, i);`, in fewer turns than `fuel`. -/
def forUnsigned (bound : BitVec w) (body : σ → ℕ → σ) : ℕ → BitVec 32 → σ → Option σ
  | 0, _, _ => none
  | fuel + 1, i, s =>
    if i.toNat < bound.toNat then forUnsigned bound body fuel (i + 1) (body s i.toNat) else some s

variable {bound : BitVec w} {body : σ → ℕ → σ}

theorem forUnsigned_range' (hb : bound.toNat < 2 ^ 32) {fuel : ℕ} {i : BitVec 32} {s : σ}
    (hi : i.toNat ≤ bound.toNat) (hf : bound.toNat - i.toNat < fuel) :
    forUnsigned bound body fuel i s = some
      ((List.range' i.toNat (bound.toNat - i.toNat)).foldl body s) := by
  induction fuel generalizing i s with
  | zero => omega
  | succ fuel ih =>
    unfold forUnsigned
    split_ifs with h
    · have hi1 : (i + 1).toNat = i.toNat + 1 := by
        rw [BitVec.toNat_add, show (1 : BitVec 32).toNat = 1 from rfl]
        exact Nat.mod_eq_of_lt (by omega)
      rw [ih (by omega) (by omega), hi1, show bound.toNat - i.toNat =
        bound.toNat - (i.toNat + 1) + 1 by omega, List.range'_succ, List.foldl_cons]
    · rw [show bound.toNat - i.toNat = 0 by omega]
      rfl

/-- A loop whose bound is an `unsigned` is a fold. -/
theorem forUnsigned_eq (hb : bound.toNat < 2 ^ 32) {fuel : ℕ} {s : σ} (hf : bound.toNat < fuel) :
    forUnsigned bound body fuel 0 s = some ((List.range bound.toNat).foldl body s) := by
  rw [forUnsigned_range' hb (by simp) (by simpa using hf), List.range_eq_range']
  rfl

/-- What holds before a loop and is kept by its turns holds after it. -/
theorem foldl_range {P : ℕ → σ → Prop} {n : ℕ} {s : σ} (h0 : P 0 s)
    (hs : ∀ i s, i < n → P i s → P (i + 1) (body s i)) : P n ((List.range n).foldl body s) := by
  induction n with
  | zero => exact h0
  | succ n ih =>
    rw [List.range_succ, List.foldl_append]
    exact hs n _ n.lt_succ_self (ih fun i s hi => hs i s (by omega))

end Loops

/-! ### While loops -/

section While

variable {σ : Type u} {cond : σ → Prop} {body : σ → σ} {s s' s'' : σ} {n n' : ℕ}

/-- `while (cond(s)) s = body(s);` makes `n` turns from `s` and ends in `s'`. -/
inductive WhileRun (cond : σ → Prop) (body : σ → σ) : σ → ℕ → σ → Prop where
  /-- The loop is left. -/
  | exit {s : σ} : ¬ cond s → WhileRun cond body s 0 s
  /-- One turn more. -/
  | turn {s s' : σ} {n : ℕ} :
    cond s → WhileRun cond body (body s) n s' → WhileRun cond body s (n + 1) s'

/-- There is one run from a state. -/
theorem WhileRun.unique (h : WhileRun cond body s n s') (h' : WhileRun cond body s n' s'') :
    n' = n ∧ s'' = s' := by
  induction h generalizing n' with
  | exit hno =>
    cases h' with
    | exit => exact ⟨rfl, rfl⟩
    | turn hc _ => exact absurd hc hno
  | turn hc _ ih =>
    cases h' with
    | exit hno => exact absurd hc hno
    | turn _ hrest =>
      obtain ⟨rfl, rfl⟩ := ih hrest
      exact ⟨rfl, rfl⟩

end While

/-! ### Pieces -/

section Pieces

theorem countThreads_range_succ {α : Type u} {p : α → Bool} (f : ℕ → α) (n : ℕ) :
    countThreads (Finset.range (n + 1)) p f = countThreads
      (Finset.range n) p f + if p (f n) = true then 1 else 0 := by
  by_cases h : p (f n) = true <;> simp [countThreads, Finset.range_add_one, Finset.filter_insert, h]

/-- A number between the first cut point and the last is in one piece, and any other in none. -/
theorem countThreads_cuts {c : ℕ → ℕ} (hc : Monotone c) (n x : ℕ) :
    countThreads (Finset.range n) id (fun t => decide (c t ≤ x ∧ x < c (t + 1))) =
      if c 0 ≤ x ∧ x < c n then 1 else 0 := by
  induction n with
  | zero =>
    rw [if_neg (by omega)]
    rfl
  | succ n ih =>
    have h0 : c 0 ≤ c n := hc (Nat.zero_le n)
    have h1 : c n ≤ c (n + 1) := hc n.le_succ
    rw [countThreads_range_succ, ih]
    simp only [id, decide_eq_true_eq]
    split_ifs <;> omega

/-- A sum in which one term changes. -/
theorem sum_move {M : Type u} [AddCommMonoid M] {T : Finset ℕ} {f g : ℕ → M} {t : ℕ} (ht : t ∈ T)
    (hrest : ∀ u, u ≠ t → g u = f u) : ∑ u ∈ T, g u + f t = ∑ u ∈ T, f u + g t := by
  have hsame : ∑ u ∈ T.erase t, g u = ∑ u ∈ T.erase t, f u :=
    Finset.sum_congr rfl fun u hu => hrest u (Finset.ne_of_mem_erase hu)
  rw [← Finset.add_sum_erase T g ht, ← Finset.add_sum_erase T f ht, hsame, add_comm (g t),
    add_comm (f t), add_right_comm]

/-- The numbers of the pieces are those from the first cut point to the last. -/
theorem sum_cuts {c : ℕ → ℕ} (hc : Monotone c) (n : ℕ) :
    ∑ t ∈ Finset.range n, (List.range' (c t) (c (t + 1) - c t) : Multiset ℕ) = List.range' (c 0)
      (c n - c 0) := by
  induction n with
  | zero => simp
  | succ n ih =>
    have h0 : c 0 ≤ c n := hc (Nat.zero_le n)
    have h1 : c n ≤ c (n + 1) := hc n.le_succ
    have hlen : c (n + 1) - c 0 = c n - c 0 + (c (n + 1) - c n) := by omega
    rw [Finset.sum_range_succ, ih, hlen, ← List.range'_append_1, Nat.add_sub_cancel' h0,
      Multiset.coe_add]

/-- The `len` numbers from `b` on, by `g` at a time. -/
def chunks (b len g : ℕ) : List (List ℕ) :=
  (List.range (len ⌈/⌉ g)).map fun j => List.range' (b + g * j) (min g (len - g * j))

theorem length_chunks (b len g : ℕ) : (chunks b len g).length = len ⌈/⌉ g := by
  rw [chunks, List.length_map, List.length_range]

theorem getElem_chunks {b len g j : ℕ} (h : j < (chunks b len g).length) :
    (chunks b len g)[j] = List.range' (b + g * j) (min g (len - g * j)) := by simp [chunks]

theorem lt_ceilDiv_iff {len g j : ℕ} (hg : 0 < g) : j < len ⌈/⌉ g ↔ g * j < len := by
  rw [← not_le, ceilDiv_le_iff_le_mul hg, not_le]

theorem mul_ceilDiv_lt (len : ℕ) {g : ℕ} (hg : 0 < g) : g * (len ⌈/⌉ g) < len + g := by
  rcases Nat.eq_zero_or_pos (len ⌈/⌉ g) with h | h
  · rw [h]
    omega
  · have hlast := (lt_ceilDiv_iff hg).mp (Nat.sub_one_lt_of_lt h)
    rw [Nat.mul_sub_one] at hlast
    omega

theorem flatten_take_chunks {b len g k : ℕ} (hk : k ≤ len ⌈/⌉ g) (hg : 0 < g) :
    ((chunks b len g).take k).flatten = List.range' b (min len (g * k)) := by
  induction k with
  | zero => simp
  | succ k ih =>
    have hlt : k < (chunks b len g).length := (length_chunks b len g).symm ▸ hk
    have hin : g * k < len := (lt_ceilDiv_iff hg).mp hk
    rw [List.take_succ_eq_append_getElem hlt, List.flatten_append, ih (by omega),
      List.flatten_singleton, getElem_chunks, Nat.min_eq_right hin.le, List.range'_append_1]
    congr 1
    rw [Nat.mul_succ]
    omega

/-- The chunks are all of them. -/
theorem flatten_chunks (b len : ℕ) {g : ℕ} (hg : 0 < g) :
    (chunks b len g).flatten = List.range' b len := by
  have hall : len ≤ g * (len ⌈/⌉ g) := (ceilDiv_le_iff_le_mul hg).mp le_rfl
  have h := flatten_take_chunks (b := b) (le_refl (len ⌈/⌉ g)) hg
  rwa [← length_chunks b len g, List.take_length, length_chunks, Nat.min_eq_left hall] at h

end Pieces

end NetworkDemo.Foundations
