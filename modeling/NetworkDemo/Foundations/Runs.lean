import Mathlib.Logic.Function.Basic
import Mathlib.Data.Finset.Card

/-!
# Runs of transition systems

A system has initial states and labelled steps. `Reach ok` is the set of states
at the end of the runs whose every step meets a condition `ok` on the state it
starts from and its label; `Reachable` puts no condition on the steps. An
invariant is proved once for the initial states and once for a step
(`Reach.invariant`), and a system whose step is a partial function can be run on
a list of labels (`exec`).

The threads of a concurrent system are numbered, and what is known of them is
kept in functions `ℕ → α`. The last section counts the threads of a finite set
that have a property, before and after one thread moves.
-/

namespace NetworkDemo.Foundations

universe u v

/-- A labelled transition system. -/
structure Lts (σ : Type u) (α : Type v) where
  /-- Where a run starts. -/
  init : σ → Prop
  /-- One step. -/
  step : σ → α → σ → Prop

namespace Lts

variable {σ : Type u} {α : Type v} (L : Lts σ α)

/-- The states at the end of the runs whose steps all meet `ok`. -/
inductive Reach (ok : σ → α → Prop) : σ → Prop where
  /-- The empty run. -/
  | init {s : σ} : L.init s → Reach ok s
  /-- One step more. -/
  | step {s s' : σ} {a : α} : Reach ok s → ok s a → L.step s a s' → Reach ok s'

/-- The states at the end of any run. -/
abbrev Reachable : σ → Prop := L.Reach fun _ _ => True

variable {L}

/-- What holds initially and is kept by every step that meets the condition holds at
the end of every run. -/
theorem Reach.invariant {ok : σ → α → Prop} {I : σ → Prop} (h0 : ∀ s, L.init s → I s)
    (hs : ∀ s a s', L.Reach ok s → I s → ok s a → L.step s a s' → I s') {s : σ} (h : L.Reach ok s) :
    I s := by
  induction h with
  | init hi => exact h0 _ hi
  | step hr hok hstep ih => exact hs _ _ _ hr ih hok hstep

/-- A run under a condition is a run under a weaker one. -/
theorem Reach.mono {ok ok' : σ → α → Prop} (hok : ∀ s a, ok s a → ok' s a) {s : σ}
    (h : L.Reach ok s) : L.Reach ok' s := by
  induction h with
  | init hi => exact .init hi
  | step _ hk hstep ih => exact .step ih (hok _ _ hk) hstep

/-- A run under a condition is a run. -/
theorem Reach.reachable {ok : σ → α → Prop} {s : σ} (h : L.Reach ok s) : L.Reachable s :=
  h.mono fun _ _ _ => trivial

/-- A run whose end has a property that steps cannot establish, only lose, meets any condition
that the property gives along the way. -/
theorem Reach.strengthen {ok ok' : σ → α → Prop} {B : σ → Prop}
    (hback : ∀ s a s', L.step s a s' → B s' → B s)
    (hok : ∀ s a s', L.Reach ok' s → ok s a → L.step s a s' → B s' → ok' s a) {s : σ}
    (h : L.Reach ok s) (hB : B s) : L.Reach ok' s := by
  induction h with
  | init hi => exact .init hi
  | step _ hk hstep ih =>
    have hr := ih (hback _ _ _ hstep hB)
    exact .step hr (hok _ _ _ hr hk hstep hB) hstep

end Lts

/-! ### Systems whose step is a partial function -/

section Exec

variable {σ : Type u} {α : Type v} (step : σ → α → Option σ)

/-- Take the steps of a list, in order. -/
def exec (s : σ) : List α → Option σ
  | [] => some s
  | a :: as => (step s a).bind fun s' => exec s' as

variable {step}

theorem exec_append (s : σ) (as bs : List α) :
    exec step s (as ++ bs) = (exec step s as).bind fun s' => exec step s' bs := by
  induction as generalizing s with
  | nil => rfl
  | cons a as ih =>
    simp only [List.cons_append, exec, Option.bind_assoc]
    congr 1
    funext s'
    exact ih s'

/-- Executing labels that meet the condition, from a state reached, reaches the state after them. -/
theorem Lts.Reach.exec {L : Lts σ α} {ok : σ → α → Prop}
    (hL : ∀ s a s', step s a = some s' → L.step s a s') {s s' : σ} (h : L.Reach ok s) {as : List α}
    (hok : ∀ s, ∀ a ∈ as, ok s a) (hs : Foundations.exec step s as = some s') : L.Reach ok s' := by
  induction as generalizing s with
  | nil => cases hs; exact h
  | cons a as ih =>
    obtain ⟨s₁, h₁, h₂⟩ := Option.bind_eq_some_iff.mp hs
    exact ih (.step h (hok s a List.mem_cons_self) (hL _ _ _ h₁))
      (fun s b hb => hok s b (List.mem_cons_of_mem a hb)) h₂

/-- If runs have an end, some run comes to a state where no step can be taken. -/
theorem exists_stuck {s₀ : σ} {bound : ℕ}
    (hb : ∀ as s, exec step s₀ as = some s → as.length ≤ bound) :
    ∃ as s, exec step s₀ as = some s ∧ ∀ a, step s a = none := by
  have hall : ∀ k as s, exec step s₀ as = some s → bound < as.length + k →
      ∃ as s, exec step s₀ as = some s ∧ ∀ a, step s a = none := by
    intro k
    induction k with
    | zero => exact fun as s hs hlt => absurd (hb as s hs) (by omega)
    | succ k ih =>
      intro as s hs hlt
      by_cases hstuck : ∀ a, step s a = none
      · exact ⟨as, s, hs, hstuck⟩
      · obtain ⟨a, ha⟩ := not_forall.mp hstuck
        obtain ⟨s', hs'⟩ := Option.ne_none_iff_exists'.mp ha
        refine ih (as ++ [a]) s' ?_ (by rw [List.length_append, List.length_singleton]; omega)
        rw [exec_append, hs, Option.bind_some, exec, hs']
        rfl
  exact hall (bound + 1) [] s₀ rfl (by omega)

end Exec

/-! ### Counting threads -/

section Count

variable {α : Type u} (T : Finset ℕ) (p : α → Bool)

/-- How many threads of `T` are in a state with property `p`. -/
def countThreads (f : ℕ → α) : ℕ := (T.filter fun t => p (f t) = true).card

variable {T p}

theorem countThreads_le (f : ℕ → α) : countThreads T p f ≤ T.card := Finset.card_filter_le _ _

theorem countThreads_congr {f g : ℕ → α} (h : ∀ t ∈ T, p (f t) = p (g t)) :
    countThreads T p f = countThreads T p g := by
  unfold countThreads
  congr 1
  exact Finset.filter_congr fun t ht => by rw [h t ht]

/-- A thread that gets the property adds one to the count. -/
theorem countThreads_gain {f g : ℕ → α} {t : ℕ} (ht : t ∈ T) (hf : p (f t) = false)
    (hg : p (g t) = true) (hrest : ∀ u, u ≠ t → p (g u) = p (f u)) :
    countThreads T p g = countThreads T p f + 1 := by
  have hset : (T.filter fun u => p (g u) = true) = insert t (T.filter fun u => p (f u) = true) := by
    ext u
    by_cases hu : u = t
    · subst hu; simp [ht, hg]
    · simp [hu, hrest u hu]
  unfold countThreads
  rw [hset, Finset.card_insert_of_notMem (by simp [hf])]

theorem countThreads_eq_zero {f : ℕ → α} (h : ∀ t ∈ T, p (f t) = false) :
    countThreads T p f = 0 := by
  unfold countThreads
  rw [Finset.card_eq_zero, Finset.filter_eq_empty_iff]
  intro t ht
  simp [h t ht]

theorem countThreads_eq_card_iff {f : ℕ → α} :
    countThreads T p f = T.card ↔ ∀ t ∈ T, p (f t) = true := Finset.card_filter_eq_iff

theorem countThreads_lt {f : ℕ → α} {t : ℕ} (ht : t ∈ T) (hf : p (f t) = false) :
    countThreads T p f < T.card := by
  refine lt_of_le_of_ne (countThreads_le f) fun h => ?_
  have := countThreads_eq_card_iff.mp h t ht
  rw [hf] at this
  cases this

end Count

end NetworkDemo.Foundations
