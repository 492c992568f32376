import NetworkDemo.Foundations.Runs

/-!
# Runs and their labels

`Trace ok as s` is a run that takes the steps `as` and ends in `s`. A system refines another
with the same labels if an abstraction function takes its initial states and steps to those
of the other; its runs are then runs of the other with the same labels (`Trace.map`).
-/

namespace NetworkDemo.Foundations

universe u v w

namespace Lts

variable {σ : Type u} {α : Type v} {τ : Type w} {L : Lts σ α} {M : Lts τ α} {ok : σ → α → Prop}

variable (L) in
/-- A run that takes the steps of a list, all of which meet `ok`. -/
inductive Trace (ok : σ → α → Prop) : List α → σ → Prop where
  /-- The empty run. -/
  | init {s : σ} : L.init s → Trace ok [] s
  /-- One step more. -/
  | step {as : List α} {s s' : σ} {a : α} :
    Trace ok as s → ok s a → L.step s a s' → Trace ok (as ++ [a]) s'

theorem Trace.reach {as : List α} {s : σ} (h : L.Trace ok as s) : L.Reach ok s := by
  induction h with
  | init hi => exact .init hi
  | step _ hok hstep ih => exact .step ih hok hstep

/-- **A run of a system that refines another is one of the other**, seen through the abstraction. -/
theorem Trace.map {as : List α} {s : σ} (f : σ → τ) (h0 : ∀ s, L.init s → M.init (f s))
    (hs : ∀ s a s', L.Reach ok s → ok s a → L.step s a s' → M.step (f s) a (f s'))
    (h : L.Trace ok as s) :
    M.Trace (fun _ _ => True) as (f s) := by
  induction h with
  | init hi => exact .init (h0 _ hi)
  | step h hok hstep ih => exact .step ih trivial (hs _ _ _ h.reach hok hstep)

end Lts

end NetworkDemo.Foundations
