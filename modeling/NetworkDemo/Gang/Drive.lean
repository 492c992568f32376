import NetworkDemo.Gang.Protocol

/-!
# Driving the gang

One thread at a time takes a number of steps while the others stand still. A wait at
a barrier is then a run of the barrier alone (`AbBarrier.runs`): to arrive and wait,
to arrive last and close the round, to leave a round that is over, to fall asleep in
one that is not. `run_abb` and `run_abb2` lift such runs to the gang, which is how
particular interleavings of long runs are shown to exist.
-/

namespace NetworkDemo.Sync

open Foundations

/-! ### A barrier and one thread -/

/-- The thread at `w` takes `k` steps. -/
def AbBarrier.runs (bar : AbBarrier) (w : WaitPc) : ℕ → Option (AbBarrier × WaitPc)
  | 0 => some (bar, w)
  | k + 1 => (bar.step w).bind fun p => p.1.runs p.2 k

namespace AbBarrier

variable {bar bar' : AbBarrier} {w w' : WaitPc} {s : U32}

theorem runs_succ {k : ℕ} {bar₁ : AbBarrier} {w₁ : WaitPc} (h : bar.step w = some (bar₁, w₁)) :
    bar.runs w (k + 1) = bar₁.runs w₁ k := by
  simp only [runs, h, Option.bind_some]

theorem runs_add (j k : ℕ) (h : bar.runs w j = some (bar', w')) :
    bar.runs w (j + k) = bar'.runs w' k := by
  induction j generalizing bar w with
  | zero =>
    obtain ⟨rfl, rfl⟩ := Prod.mk.inj (Option.some.inj h)
    rw [Nat.zero_add]
  | succ j ih =>
    obtain ⟨⟨b, w₁⟩, hs, hr⟩ := Option.bind_eq_some_iff.mp h
    rw [Nat.add_right_comm, runs_succ hs]
    exact ih hr

/-- A thread arrives, and others are missing. -/
theorem runs_arrive (ha : Aligned bar.generation) (h : bar.awaited - 1 ≠ 0) :
    bar.runs .start 2 = some ({ bar with awaited := bar.awaited - 1 },
      .loadAwaited bar.generation) := by
  simp only [runs, step, Option.bind_some, if_neg h, ha.and_neg_incr, ha.waitEnd]

/-- The last thread arrives, closes the round and wakes the others. -/
theorem runs_close (h : bar.awaited - 1 = 0) (ht : 1 < bar.total) :
    bar.runs .start 8 =
      some ({ bar with awaited := bar.total, generation := bar.generation + BAR_INCR }, .ret) := by
  simp only [runs, step, Option.bind_some, if_pos h, waitEnd_or_last, if_pos ht]

/-- A thread finds its round over. -/
theorem runs_leave (hsp : bar.spin = true) (hov : ¬ BAR_OVERFLOW < bar.awaited)
    (hs : bar.generation ≠ s) :
    bar.runs (.loadAwaited s) 3 = some (bar, .ret) := by
  simp only [runs, step, waitTurn, Option.bind_some, if_neg hov, hsp, if_true, if_pos hs, if_neg hs]

/-- `do_spin` looks in vain. -/
theorem runs_spin (k i : ℕ) (hi : i + k + 1 = abSpinCountVar) :
    bar.runs (.spin bar.generation i) (k + 1) = some (bar, .futexWait bar.generation) := by
  induction k generalizing i with
  | zero =>
    simp only [runs, step, ne_eq, not_true_eq_false, if_false, Option.bind_some,
  if_neg (show ¬ i + 1 < abSpinCountVar by omega)]
  | succ k ih =>
    have h1 : bar.step (.spin bar.generation i) = some (bar, .spin bar.generation (i + 1)) := by
      simp only [step, ne_eq, not_true_eq_false, if_false,
        if_pos (show i + 1 < abSpinCountVar by omega)]
    rw [runs_succ h1]
    exact ih (i + 1) (by omega)

/-- A thread falls asleep in a round that is not over. -/
theorem runs_sleep (hsp : bar.spin = true) (hov : ¬ BAR_OVERFLOW < bar.awaited) :
    bar.runs (.loadAwaited bar.generation) (abSpinCountVar + 2) = some
      (bar, .asleep bar.generation) := by
  have h1 : bar.runs (.loadAwaited bar.generation) 1 = some (bar, .spin bar.generation 0) := by
    simp only [runs, step, waitTurn, Option.bind_some, if_neg hov, hsp, if_true]
  have h2 : bar.runs (.spin bar.generation 0) abSpinCountVar =
      some (bar, .futexWait bar.generation) :=
    runs_spin (abSpinCountVar - 1) 0 rfl
  rw [show abSpinCountVar + 2 = 1 + (abSpinCountVar + 1) by omega, runs_add _ _ h1, runs_add _ _ h2]
  simp only [runs, step, Option.bind_some, if_true]

theorem runs_ret {k : ℕ} (h : bar.runs .ret k = some (bar', w')) : bar' = bar ∧ w' = .ret := by
  cases k with
  | zero =>
    obtain ⟨rfl, rfl⟩ := Prod.mk.inj (Option.some.inj h)
    exact ⟨rfl, rfl⟩
  | succ k => cases h

end AbBarrier

end NetworkDemo.Sync

namespace NetworkDemo.Gang

open Foundations Sync

/-! ### Runs of the gang -/

section Run

variable {num : ℕ} {s s' s'' : State} {t : ℕ} {w w' : WaitPc} {bar' : AbBarrier}

/-- The gang gets from `s` to `s'` without being destroyed. -/
def Run (num : ℕ) (s s' : State) : Prop :=
  ∃ as, (∀ a ∈ as, a ≠ Act.destroy) ∧ exec (step num) s as = some s'

theorem Run.refl (s : State) : Run num s s := ⟨[], fun _ h => (by cases h), rfl⟩

theorem Run.trans (h : Run num s s') (h' : Run num s' s'') : Run num s s'' := by
  obtain ⟨as, ha, hs⟩ := h
  obtain ⟨bs, hb, hs'⟩ := h'
  refine ⟨as ++ bs, fun a hm => ?_, by rw [exec_append, hs]; exact hs'⟩
  rcases List.mem_append.mp hm with hm | hm
  · exact ha a hm
  · exact hb a hm

theorem Run.single {a : Act} (ha : a ≠ .destroy) (h : step num s a = some s') : Run num s s' :=
  ⟨[a], fun b hb => by rwa [List.mem_singleton.mp hb], by simp [exec, h]⟩

theorem Run.thread (ht : t < num) (h : s.threadStep num t = some s') : Run num s s' :=
  .single (a := .thread t) (by simp) (by simp [step, ht, h])

theorem Run.reach {flag : U32} (h : Run num s s')
    (hs : (system num flag).Reach (fun _ a => a ≠ .destroy) s) :
    (system num flag).Reach (fun _ a => a ≠ .destroy) s' := by
  obtain ⟨as, ha, he⟩ := h
  exact hs.exec (fun _ _ _ h => h) (fun _ a hm => ha a hm) he

/-- Thread `t` has got to `w'` in `abb`. -/
def State.setAbb (s : State) (t : ℕ) (bar : AbBarrier) (w' : WaitPc) : State :=
  { s with
    abb := bar, pc := Function.update s.pc t (.afterAbb w'), passed := countPassed s.passed t w' }

/-- Thread `t` has got to `w'` in `abb2`. -/
def State.setAbb2 (s : State) (t : ℕ) (bar : AbBarrier) (w' : WaitPc) : State :=
  { s with abb2 := bar, pc := Function.update s.pc t (.afterAbb2 t w') }

theorem othersAbb_of_awake {x : Pc} (h : ∀ g, x ≠ .abb (.asleep g)) : x.othersAbb w = x := by
  cases x with
  | abb p =>
    cases p <;> first | exact absurd rfl (h _) | (cases w <;> rfl)
  | _ => rfl

theorem othersAbb2_of_awake {x : Pc} (h : ∀ g, x ≠ .abb2 (.asleep g)) : x.othersAbb2 w = x := by
  cases x with
  | abb2 p =>
    cases p <;> first | exact absurd rfl (h _) | (cases w <;> rfl)
  | _ => rfl

theorem movedAbb_eq_setAbb (hno : ∀ u, u ≠ t → ∀ g, s.pc u ≠ .abb (.asleep g)) :
    s.movedAbb t w bar' w' = s.setAbb t bar' w' := by
  have : moveAbb s.pc t w w' = Function.update s.pc t (.afterAbb w') := by
    funext u
    by_cases hu : u = t
    · rw [hu, Function.update_self]
      exact if_pos rfl
    · rw [Function.update_of_ne hu]
      exact (if_neg hu).trans (othersAbb_of_awake (hno u hu))
  unfold State.movedAbb State.setAbb
  rw [this]

theorem movedAbb2_eq_setAbb2 (hno : ∀ u, u ≠ t → ∀ g, s.pc u ≠ .abb2 (.asleep g)) :
    s.movedAbb2 t w bar' w' = s.setAbb2 t bar' w' := by
  have : moveAbb2 s.pc t w w' = Function.update s.pc t (.afterAbb2 t w') := by
    funext u
    by_cases hu : u = t
    · rw [hu, Function.update_self]
      exact if_pos rfl
    · rw [Function.update_of_ne hu]
      exact (if_neg hu).trans (othersAbb2_of_awake (hno u hu))
  unfold State.movedAbb2 State.setAbb2
  rw [this]

theorem setAbb_setAbb {b : AbBarrier} {w₁ : WaitPc} (h : w₁ ≠ .ret) :
    (s.setAbb t b w₁).setAbb t bar' w' = s.setAbb t bar' w' := by
  have hp : countPassed s.passed t w₁ = s.passed := by cases w₁ <;> first | rfl | exact absurd rfl h
  simp only [State.setAbb, hp, Function.update_idem]

/-- While the others do not sleep at `abb`, a thread runs through it as if alone. -/
theorem run_abb {k : ℕ} (ht : t < num) (hpc : s.pc t = .abb w) (hw : w ≠ .ret)
    (hno : ∀ u, u ≠ t → ∀ g, s.pc u ≠ .abb (.asleep g)) (hs : s.abb.runs w k = some (bar', w')) :
    Run num s (s.setAbb t bar' w') := by
  induction k generalizing s w with
  | zero =>
    obtain ⟨rfl, rfl⟩ := Prod.mk.inj (Option.some.inj hs)
    have : s.setAbb t s.abb w = s := by
      unfold State.setAbb
      cases w <;> first | exact absurd rfl hw | (simp only [Pc.afterAbb, countPassed, ← hpc,
        Function.update_eq_self])
    rw [this]
    exact .refl s
  | succ k ih =>
    obtain ⟨⟨b, w₁⟩, hb, hr⟩ := Option.bind_eq_some_iff.mp hs
    have h1 : Run num s (s.setAbb t b w₁) := by
      refine .thread ht ?_
      unfold State.threadStep
      rw [hpc, ← movedAbb_eq_setAbb (w := w) hno]
      simp only [hb, Option.map_some]
    by_cases hw₁ : w₁ = .ret
    · subst hw₁
      obtain ⟨rfl, rfl⟩ := AbBarrier.runs_ret hr
      exact h1
    · rw [← setAbb_setAbb hw₁]
      refine h1.trans (ih ?_ hw₁ (fun u hu g => ?_) hr)
      · simp only [State.setAbb, Function.update_self]
        cases w₁ <;> first | rfl | exact absurd rfl hw₁
      · simp only [State.setAbb, Function.update_of_ne hu]
        exact hno u hu g

/-- And through `abb2`. -/
theorem run_abb2 {k : ℕ} (ht : t < num) (hpc : s.pc t = .abb2 w) (hw : w ≠ .ret)
    (hno : ∀ u, u ≠ t → ∀ g, s.pc u ≠ .abb2 (.asleep g)) (hs : s.abb2.runs w k = some (bar', w')) :
    Run num s (s.setAbb2 t bar' w') := by
  induction k generalizing s w with
  | zero =>
    obtain ⟨rfl, rfl⟩ := Prod.mk.inj (Option.some.inj hs)
    have : s.setAbb2 t s.abb2 w = s := by
      unfold State.setAbb2
      cases w <;> first | exact absurd rfl hw | (simp only [Pc.afterAbb2, ← hpc,
        Function.update_eq_self])
    rw [this]
    exact .refl s
  | succ k ih =>
    obtain ⟨⟨b, w₁⟩, hb, hr⟩ := Option.bind_eq_some_iff.mp hs
    have h1 : Run num s (s.setAbb2 t b w₁) := by
      refine .thread ht ?_
      unfold State.threadStep
      rw [hpc, ← movedAbb2_eq_setAbb2 (w := w) hno]
      simp only [hb, Option.map_some]
    by_cases hw₁ : w₁ = .ret
    · subst hw₁
      obtain ⟨rfl, rfl⟩ := AbBarrier.runs_ret hr
      exact h1
    · have heq : (s.setAbb2 t b w₁).setAbb2 t bar' w' = s.setAbb2 t bar' w' := by
        simp only [State.setAbb2, Function.update_idem]
      rw [← heq]
      refine h1.trans (ih ?_ hw₁ (fun u hu g => ?_) hr)
      · simp only [State.setAbb2, Function.update_self]
        cases w₁ <;> first | rfl | exact absurd rfl hw₁
      · simp only [State.setAbb2, Function.update_of_ne hu]
        exact hno u hu g

theorem State.pc_goto (s : State) (t : ℕ) (x : Pc) : (s.goto t x).pc t = x :=
  Function.update_self ..

theorem State.goto_goto (s : State) (t : ℕ) (x y : Pc) : (s.goto t x).goto t y = s.goto t y := by
  simp only [State.goto, Function.update_idem]

/-- Main publishes the flag of a round of several parts. -/
theorem run_publish {n : ℕ} (h2 : 2 ≤ n) (hn : n ≤ num) (hpc : s.pc 0 = .idle) :
    Run num s (({ s with tasks := s.tasks + 1 } : State).published n
      (reinitFlag s.abb.generation n)) := by
  have h0 : 0 < num := by omega
  have hcalled : step num s (.submit n) = some (s.goto 0 (.resetTasks n)) := by
    rw [step, if_pos ⟨State.isIdle_iff.mpr hpc, hn⟩, if_neg (by omega)]
  have hreset : (s.goto 0 (.resetTasks n)).threadStep num 0 =
      some (({ s with tasks := s.tasks + 1 } : State).goto 0 (.reinitLoad n)) := by
    rw [State.threadStep, State.pc_goto]
    simp only [State.reset, State.goto_goto, if_neg (show n ≠ 1 by omega)]
    rfl
  have hload : (({ s with tasks := s.tasks + 1 } : State).goto 0 (.reinitLoad n)).threadStep num 0 =
      some (({ s with tasks := s.tasks + 1 } : State).goto 0 (.storeFlag n
        (reinitFlag s.abb.generation n))) := by
    rw [State.threadStep, State.pc_goto]
    simp only [State.goto_goto]
    rfl
  have hstore :
      (({ s with tasks := s.tasks + 1 } : State).goto 0
    (.storeFlag n (reinitFlag s.abb.generation n))).threadStep num 0 =
      some (({ s with tasks := s.tasks + 1 } : State).published n
        (reinitFlag s.abb.generation n)) := by
    rw [State.threadStep, State.pc_goto]
    simp only [State.published, State.goto_goto]
    rfl
  have hsubmit : Run num s (s.goto 0 (.resetTasks n)) := .single (fun hd => by cases hd) hcalled
  exact hsubmit.trans ((Run.thread h0 hreset).trans ((Run.thread h0 hload).trans
    (.thread h0 hstore)))

/-- Main submits a round of several parts, and is at the door of `abb`. -/
theorem run_submit {n : ℕ} (h2 : 2 ≤ n) (hn : n ≤ num) (hpc : s.pc 0 = .idle) :
    Run num s { s with
      abb2 := { s.abb2 with total := reinitCount n, awaited := reinitCount n }
      flag := reinitFlag s.abb.generation n
      tasks := s.tasks + 1
      pc := Function.update s.pc 0 (.abb .start)
      history := s.history ++ [(n, s.tasks + 1)] } := by
  have h0 : 0 < num := by omega
  have hpublish := run_publish h2 hn hpc
  generalize hs₁ : ({ s with tasks := s.tasks + 1 } : State).published n
    (reinitFlag s.abb.generation n) = s₁ at hpublish
  have hpc₁ : s₁.pc 0 = .storeTotal n := by
    rw [← hs₁]
    exact State.pc_goto { s with tasks := s.tasks + 1 } 0 (.storeTotal n)
  have htotal : s₁.threadStep num 0 =
      some { s₁.goto 0 (.storeAwaited n) with
        abb2 := { s₁.abb2 with total := reinitCount n } } := by
    rw [State.threadStep, hpc₁]
  generalize hs₂ : ({ s₁.goto 0 (.storeAwaited n) with
    abb2 := { s₁.abb2 with total := reinitCount n } } : State) = s₂ at htotal
  have hpc₂ : s₂.pc 0 = .storeAwaited n := by
    rw [← hs₂]
    exact State.pc_goto s₁ 0 (.storeAwaited n)
  have hawaited : s₂.threadStep num 0 =
      some { s₂.goto 0 (.abb .start) with abb2 := { s₂.abb2 with awaited := reinitCount n } } := by
    rw [State.threadStep, hpc₂]
  have hrun := hpublish.trans ((Run.thread h0 htotal).trans (.thread h0 hawaited))
  rw [← hs₂, ← hs₁] at hrun
  simp only [State.published, State.goto, Function.update_idem] at hrun
  exact hrun

/-- A thread reads the generation. -/
theorem run_loadState (ht : t < num) (hpc : s.pc t = .checkShutdown) (hsh : s.shutdown = false) :
    Run num s (s.goto t (.loadFlag s.abb.generation)) := by
  have hcheck : s.threadStep num t = some (s.goto t .loadState) := by
    rw [State.threadStep, hpc]
    simp only [hsh]
    rfl
  have hload : (s.goto t .loadState).threadStep num t =
      some (s.goto t (.loadFlag s.abb.generation)) := by
    rw [State.threadStep, State.pc_goto]
    simp only [State.goto_goto]
    rfl
  exact (Run.thread ht hcheck).trans (.thread ht hload)

/-- And the flag. -/
theorem run_loadFlag (ht : t < num) (hpc : s.pc t = .checkShutdown) (hsh : s.shutdown = false) :
    Run num s (s.goto t (if skips s.abb.generation s.flag t then .back t else .callTasks)) := by
  have hflag : (s.goto t (.loadFlag s.abb.generation)).threadStep num t =
      some (s.goto t (if skips s.abb.generation s.flag t then .back t else .callTasks)) := by
    rw [State.threadStep, State.pc_goto]
    simp only [State.goto_goto]
    rfl
  exact (run_loadState ht hpc hsh).trans (.thread ht hflag)

/-- A thread that takes part in the round runs its part, and is at the door of `abb2`. -/
theorem run_part (ht : t < num) (hpc : s.pc t = .checkShutdown) (hsh : s.shutdown = false)
    (hp : takesPart s.abb.generation s.flag t = true) :
    Run num s { s with
      pc := Function.update s.pc t (.abb2 .start),
      log := s.log ++ [⟨s.passed t, s.tasks, t⟩] } := by
  have hsk : skips s.abb.generation s.flag t = false := by simpa [takesPart] using hp
  have hflag := run_loadFlag ht hpc hsh
  rw [hsk, if_neg Bool.false_ne_true] at hflag
  have hcall : (s.goto t .callTasks).threadStep num t = some (s.called t) := by
    rw [State.threadStep, State.pc_goto]
    simp only [State.called, State.goto_goto]
    rfl
  have hdone : (s.called t).threadStep num t = some ((s.called t).goto t (.abb2 .start)) := by
    rw [State.threadStep, show (s.called t).pc t = .inTasks from State.pc_goto s t .inTasks]
  have hrun := hflag.trans ((Run.thread ht hcall).trans (.thread ht hdone))
  simp only [State.called, State.goto, Function.update_idem] at hrun
  exact hrun

/-- A thread that does not take part goes back. -/
theorem run_skip (ht : t < num) (hpc : s.pc t = .checkShutdown) (hsh : s.shutdown = false)
    (hp : takesPart s.abb.generation s.flag t = false) : Run num s (s.goto t (.back t)) := by
  have hsk : skips s.abb.generation s.flag t = true := by simpa [takesPart] using hp
  have hflag := run_loadFlag ht hpc hsh
  rwa [hsk, if_pos rfl] at hflag

end Run

end NetworkDemo.Gang
