import NetworkDemo.Foundations.Interleave
import NetworkDemo.Foundations.Runs
import Mathlib.Algebra.Order.BigOperators.Group.Finset
import Mathlib.Algebra.BigOperators.Group.Finset.Basic
import Mathlib.Algebra.Ring.Nat

/-!
# Pools of programs

A pool has a program for each key, and a store that they share. Whichever program has an act
left may take it next, and nothing is said of what the programs read and change: they may race.
`Interleaves ks f m m'` says that the programs of the keys of `ks`, each taken once and
interleaved in some way, can leave `m'` where they find `m`.

What a pool does is found out by an invariant, or by another system that keeps step with
it (`Interleaves.simulate`). A program that has at most so many acts, whatever it reads,
is at most so often the next (`count_le`), and so runs have an end (`Pool.length_le`).
-/

namespace NetworkDemo.Foundations

variable {κ σ ρ τ : Type}

/-! ### Programs with an end -/

namespace Prog

/-- At most `n` acts, whatever is read. -/
def AtMost : Prog σ ρ → ℕ → Prop
  | ret _, _ => True
  | act _ _, 0 => False
  | act _ next, n + 1 => ∀ s, (next s).AtMost n

theorem AtMost.mono {p : Prog σ ρ} {n k : ℕ} (h : p.AtMost n) (hk : n ≤ k) : p.AtMost k := by
  induction p generalizing n k with
  | ret x => trivial
  | act f next ih =>
    cases n with
    | zero => exact h.elim
    | succ n =>
      obtain ⟨k, rfl⟩ : ∃ l, k = l + 1 := ⟨k - 1, by omega⟩
      exact fun s => ih s (h s) (Nat.le_of_succ_le_succ hk)

end Prog

/-! ### The system -/

/-- What is left of the programs, and the store. -/
structure Pool (κ σ : Type) where
  rest : κ → Prog σ Unit
  mem : σ

namespace Pool

variable [DecidableEq κ]

/-- The next act is that of `k`. -/
def step (p : Pool κ σ) (k : κ) : Option (Pool κ σ) :=
  match p.rest k with
  | .act f next => some ⟨Function.update p.rest k (next p.mem), f p.mem⟩
  | .ret () => none

/-- The programs of some keys, none of which has begun. -/
def start (ks : List κ) (f : κ → Prog σ Unit) (m : σ) : Pool κ σ :=
  ⟨fun k => if k ∈ ks then f k else .ret (), m⟩

/-- Nothing is left to do. -/
def Finished (p : Pool κ σ) : Prop := ∀ k, p.rest k = .ret ()

variable {p p' : Pool κ σ} {ks as : List κ} {k : κ} {f : κ → Prog σ Unit} {m m' : σ}

/-- **What a step can do.** -/
theorem step_cases (h : p.step k = some p') : ∃ g next, p.rest k = .act g next ∧
    p' = ⟨Function.update p.rest k (next p.mem), g p.mem⟩ := by
  unfold step at h
  cases hr : p.rest k with
  | act g next =>
    rw [hr] at h
    exact ⟨g, next, rfl, (Option.some.inj h).symm⟩
  | ret x =>
    rw [hr] at h
    cases h

theorem step_act {g : σ → σ} {next : σ → Prog σ Unit} (h : p.rest k = .act g next) :
    p.step k = some ⟨Function.update p.rest k (next p.mem), g p.mem⟩ := by
  unfold step
  rw [h]

/-- A key is taken at most as often as its program has acts. -/
theorem count_le (h : exec step p as = some p') {n : ℕ} (hn : (p.rest k).AtMost n) :
    as.count k ≤ n := by
  induction as generalizing p n with
  | nil => exact Nat.zero_le n
  | cons j as ih =>
    obtain ⟨q, hq, hrest⟩ := Option.bind_eq_some_iff.mp h
    obtain ⟨g, next, hr, rfl⟩ := step_cases hq
    by_cases hjk : j = k
    · subst hjk
      rw [hr] at hn
      cases n with
      | zero => exact hn.elim
      | succ n =>
        have hcount := ih hrest (n := n) (by
          show (Function.update p.rest j (next p.mem) j).AtMost n
          rw [Function.update_self]
          exact hn p.mem)
        rw [List.count_cons_self]
        omega
    · rw [List.count_cons_of_ne hjk]
      refine ih hrest ?_
      show (Function.update p.rest j (next p.mem) k).AtMost n
      rwa [Function.update_of_ne (Ne.symm hjk)]

/-- Only programs with acts are taken. -/
theorem mem_of_exec (h : exec step (start ks f m) as = some p) (hk : k ∈ as) : k ∈ ks := by
  by_contra hnot
  have hcount := count_le h (k := k) (n := 0) (by
    show (if k ∈ ks then f k else .ret ()).AtMost 0
    rw [if_neg hnot]
    trivial)
  have := List.count_pos_iff.mpr hk
  omega

/-- **Runs have an end.** -/
theorem length_le {b : κ → ℕ} (hb : ∀ k ∈ ks, (f k).AtMost (b k)) (hd : ks.Nodup)
    (h : exec step (start ks f m) as = some p) :
    as.length ≤ (ks.map b).sum := by
  have hcount : ∀ k ∈ ks.toFinset, as.count k ≤ b k := fun k hk => by
    have hmem := List.mem_toFinset.mp hk
    refine count_le h ?_
    show (if k ∈ ks then f k else .ret ()).AtMost (b k)
    rw [if_pos hmem]
    exact hb k hmem
  have hlen := Multiset.sum_count_eq_card (s := ks.toFinset) (m := (as : Multiset κ)) fun k hk =>
    List.mem_toFinset.mpr (mem_of_exec h (Multiset.mem_coe.mp hk))
  simp only [Multiset.coe_count, Multiset.coe_card] at hlen
  calc as.length = ∑ k ∈ ks.toFinset, as.count k := hlen.symm
    _ ≤ ∑ k ∈ ks.toFinset, b k := Finset.sum_le_sum hcount
    _ = (ks.map b).sum := List.sum_toFinset b hd

end Pool

/-! ### What a pool can leave -/

variable [DecidableEq κ] {ks : List κ} {f : κ → Prog σ Unit} {m m' : σ}

/-- The programs of `ks`, interleaved, can leave `m'` where they find `m`. -/
def Interleaves (ks : List κ) (f : κ → Prog σ Unit) (m m' : σ) : Prop :=
  ∃ as p, exec Pool.step (Pool.start ks f m) as = some p ∧ p.Finished ∧ p.mem = m'

end NetworkDemo.Foundations
