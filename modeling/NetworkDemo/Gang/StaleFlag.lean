import NetworkDemo.Gang.Drive
import NetworkDemo.Gang.Submit

/-!
# The stale-flag check

A worker that does not take part in a round may come to read `flag` only after main
has published the next one. `Gang::run` compares the two generations with `>`, which
is right as long as the later one is the larger. The generations go up by 512 modulo
`2 ^ 32`, so once in `2 ^ 23` rounds it is not.

* `stale_flag_recognised` — in every run in which no flag is published for the
  generation that wraps to `0` while a thread of its round still has to read the one
  before, a late worker recognises the flag and returns to `abb`.
* `stale_flag_misread` — after `2 ^ 23 - 1` rounds of two parts a third worker, late
  from the last, reads the flag of a round of three and runs its part of it before
  that round has begun.
-/

namespace NetworkDemo.Gang

open Foundations Sync

section StaleFlag

variable {num : ℕ} {flag : U32} {s s' : State} {a : Act}

/-- What the check is for. -/
structure StaleOk (num : ℕ) (s : State) : Prop where
  /-- A worker that reads the flag of a round it has not entered goes back to `abb`. -/
  goes_back : ∀ t, t ≠ 0 → t < num → ∀ state, s.pc t = .loadFlag state → s.phase = .published →
    skips state s.flag t = true
  /-- A thread in `tasks->run` has passed the `abb` of the latest round. -/
  has_passed : ∀ t < num, s.pc t = .callTasks ∨ s.pc t = .inTasks → s.passed t = s.history.length
  /-- No worker waits at `abb2` while main waits at `abb`. -/
  not_apart : ∀ t w w0, s.pc t = .abb2 w → s.pc 0 = .abb w0 →
    w.leaving s.abb2.generation = true ∨ w0.leaving s.abb.generation = true

/-- The step does not store a flag whose generation has wrapped to `0` while a thread of its round
has yet to read the flag before. -/
def Timely (s : State) (a : Act) : Prop :=
  ∀ n f, s.pc 0 = .storeFlag n f → a = .thread 0 → s.abb.generation.toNat + 512 < 4294967296 ∨
    ∀ t, t ≠ 0 → t < n → (s.pc t).lags s.abb.generation = false

theorem honest_of_timely (h2 : 2 ≤ num) (hn : num ≤ 255)
    (h : (system num flag).Reach (Honest num) s) (ha : a ≠ .destroy) (ht : Timely s a) :
    Honest num s a := by
  refine ⟨ha, fun n f hpc hat t h0 _ hlag => ?_⟩
  have hI := gangInv_reach h2 (by omega) h
  have hm := hI.core.main
  rw [hpc] at hm
  obtain ⟨-, hle, rfl⟩ := hm
  have hg := hI.core.abbInv.aligned
  rcases Nat.lt_or_ge (s.abb.generation.toNat + 512) 4294967296 with hw | hw
  · exact takesPart_stale hg hw
  · -- the flag has wrapped, and only its count keeps the thread out
    have hall := (ht n _ hpc hat).resolve_left (by omega)
    rw [Bool.eq_false_iff, Ne, takesPart_wrapped (by omega) hg hw]
    intro htn
    rw [hall t h0 htn] at hlag
    cases hlag

theorem GangInv.staleOk (h : GangInv num s) (hR : Recorded num s) (hn : num ≤ 255) :
    StaleOk num s where
  goes_back t h0 ht state hpc hp := by
    have hw := h.core.workers t h0 ht
    rw [hpc, show phaseOf _ _ _ = _ from hp] at hw
    obtain ⟨rfl, hr⟩ := hw
    simpa [takesPart] using hr.resolve_left (by decide)
  has_passed t ht hpc := (hR.atCall h hn ht hpc).2.1
  not_apart t w w0 hpc hpc0 := by
    by_contra hno
    rw [not_or] at hno
    have hp := h.core.running_of_abb2 hpc (by simpa using hno.1)
    rw [hpc0, show phaseOf s.abb.generation s.abb2.generation (.abb w0) =
      .published from if_neg hno.2] at hp
    cases hp

theorem honest_reach_of_timely (h2 : 2 ≤ num) (hn : num ≤ 255)
    (h : (system num flag).Reach (fun s a => a ≠ .destroy ∧ Timely s a) s) :
    (system num flag).Reach (Honest num) s :=
  h.strengthen (B := fun _ => True) (fun _ _ _ _ h => h)
    (fun _ _ _ hr ha _ _ => honest_of_timely h2 hn hr ha.1 ha.2) trivial

/-- Until the generation goes round, every flag is published in time. -/
theorem timely_reach (h2 : 2 ≤ num) (hn : num ≤ 255)
    (h : (system num flag).Reach (fun _ a => a ≠ .destroy) s) (hw : NotWrapped s) :
    (system num flag).Reach (fun s a => a ≠ .destroy ∧ Timely s a) s := by
  refine h.strengthen (fun s a s' hs hB => hB.of_step hs)
    (fun s a s' hr ha hs hB => ⟨ha, fun n f hpc hat => ?_⟩) hw
  subst hat
  exact .inl (generation_lt_of_notWrapped h2 hn (honest_reach_of_timely h2 hn hr) hpc hs hB)

/-- **The check does what it is for, in runs of any length**, as long as every flag is published in
time. -/
theorem stale_flag_recognised (h2 : 2 ≤ num) (hn : num ≤ 255)
    (h : (system num flag).Reach (fun s a => a ≠ .destroy ∧ Timely s a) s) : StaleOk num s := by
  have hr := honest_reach_of_timely h2 hn h
  exact (gangInv_reach h2 (by omega) hr).staleOk (recorded_reach h2 hn hr) hn

end StaleFlag

/-! ### A run through the wrap -/

section Wrap

/-- Where three threads are. -/
def pcs (x0 x1 x2 : Pc) : ℕ → Pc
  | 0 => x0
  | 1 => x1
  | 2 => x2
  | _ => .exited

theorem update_pcs_zero (x0 x1 x2 y : Pc) : Function.update (pcs x0 x1 x2) 0 y = pcs y x1 x2 := by
  funext u
  match u with
  | 0 | 1 | 2 | _ + 3 => rfl

theorem update_pcs_one (x0 x1 x2 y : Pc) : Function.update (pcs x0 x1 x2) 1 y = pcs x0 y x2 := by
  funext u
  match u with
  | 0 | 1 | 2 | _ + 3 => rfl

theorem update_pcs_two (x0 x1 x2 y : Pc) : Function.update (pcs x0 x1 x2) 2 y = pcs x0 x1 y := by
  funext u
  match u with
  | 0 | 1 | 2 | _ + 3 => rfl

/-- A gang of three whose threads are at `x`, with the barriers and the flag as given, after `h`
rounds, of which worker `2` has passed `p`. -/
structure At (x : ℕ → Pc) (b b2 : AbBarrier) (f : U32) (h p : ℕ) (s : State) : Prop where
  pc : s.pc = x
  abb : s.abb = b
  abb2 : s.abb2 = b2
  flag : s.flag = f
  alive : s.shutdown = false
  history : s.history.length = h
  passed : s.passed 2 = p

/-- From every state that is `C` the gang gets to one that is `C'`. -/
def Leads (C C' : State → Prop) : Prop := ∀ s, C s → ∃ s', Run 3 s s' ∧ C' s'

theorem Leads.trans {C C' C'' : State → Prop} (h : Leads C C') (h' : Leads C' C'') :
    Leads C C'' := by
  intro s hs
  obtain ⟨s₁, r₁, h₁⟩ := h s hs
  obtain ⟨s₂, r₂, h₂⟩ := h' s₁ h₁
  exact ⟨s₂, r₁.trans r₂, h₂⟩

variable {x : ℕ → Pc} {b b' b2 b2' : AbBarrier} {f : U32} {h p : ℕ} {w w' : WaitPc} {t k : ℕ}

theorem leads_abb (ht : t < 3) (hx : x t = .abb w) (hw : w ≠ .ret)
    (hno : ∀ u, u ≠ t → ∀ g, x u ≠ .abb (.asleep g)) (hr : b.runs w k = some (b', w'))
    (h2 : t ≠ 2 ∨ w' ≠ .ret) :
    Leads (At x b b2 f h p) (At (Function.update x t (.afterAbb w')) b' b2 f h p) := by
  rintro s ⟨rfl, rfl, rfl, rfl, hs, rfl, rfl⟩
  refine ⟨_, run_abb ht hx hw hno hr, rfl, rfl, rfl, rfl, hs, rfl, ?_⟩
  show countPassed s.passed t w' 2 = s.passed 2
  rcases h2 with h2 | h2
  · cases w' <;> first | rfl | exact Function.update_of_ne h2.symm _ _
  · cases w' <;> first | rfl | exact absurd rfl h2

/-- Worker `2` comes out of `abb`. -/
theorem leads_abb_two (hx : x 2 = .abb w) (hw : w ≠ .ret)
    (hno : ∀ u, u ≠ 2 → ∀ g, x u ≠ .abb (.asleep g)) (hr : b.runs w k = some (b', .ret)) :
    Leads (At x b b2 f h p) (At (Function.update x 2 .checkShutdown) b' b2 f h (p + 1)) := by
  rintro s ⟨rfl, rfl, rfl, rfl, hs, rfl, rfl⟩
  refine ⟨_, run_abb (by decide) hx hw hno hr, rfl, rfl, rfl, rfl, hs, rfl, ?_⟩
  show Function.update s.passed 2 (s.passed 2 + 1) 2 = _
  rw [Function.update_self]

theorem leads_abb2 (ht : t < 3) (hx : x t = .abb2 w) (hw : w ≠ .ret)
    (hno : ∀ u, u ≠ t → ∀ g, x u ≠ .abb2 (.asleep g)) (hr : b2.runs w k = some (b2', w')) :
    Leads (At x b b2 f h p) (At (Function.update x t (.afterAbb2 t w')) b b2' f h p) := by
  rintro s ⟨rfl, rfl, rfl, rfl, hs, rfl, rfl⟩
  exact ⟨_, run_abb2 ht hx hw hno hr, rfl, rfl, rfl, rfl, hs, rfl, rfl⟩

theorem leads_submit {n : ℕ} (h2 : 2 ≤ n) (hn : n ≤ 3) (hx : x 0 = .idle) :
    Leads (At x b b2 f h p) (At (Function.update x 0 (.abb .start)) b
      { b2 with total := reinitCount n, awaited := reinitCount n } (reinitFlag b.generation n)
        (h + 1) p) := by
  rintro s ⟨rfl, rfl, rfl, rfl, hs, rfl, rfl⟩
  exact ⟨_, run_submit h2 hn hx, rfl, rfl, rfl, rfl, hs, by simp, rfl⟩

theorem leads_part (ht : t < 3) (hx : x t = .checkShutdown)
    (hp : takesPart b.generation f t = true) :
    Leads (At x b b2 f h p) (At (Function.update x t (.abb2 .start)) b b2 f h p) := by
  rintro s ⟨rfl, rfl, rfl, rfl, hs, rfl, rfl⟩
  exact ⟨_, run_part ht hx hs hp, rfl, rfl, rfl, rfl, hs, rfl, rfl⟩

theorem leads_skip (ht : t < 3) (hx : x t = .checkShutdown)
    (hp : takesPart b.generation f t = false) :
    Leads (At x b b2 f h p) (At (Function.update x t (.back t)) b b2 f h p) := by
  rintro s ⟨rfl, rfl, rfl, rfl, hs, rfl, rfl⟩
  exact ⟨_, run_skip ht hx hs hp, rfl, rfl, rfl, rfl, hs, rfl, rfl⟩

theorem leads_loadState (ht : t < 3) (hx : x t = .checkShutdown) :
    Leads (At x b b2 f h p) (At (Function.update x t (.loadFlag b.generation)) b b2 f h p) := by
  rintro s ⟨rfl, rfl, rfl, rfl, hs, rfl, rfl⟩
  exact ⟨_, run_loadState ht hx hs, rfl, rfl, rfl, rfl, hs, rfl, rfl⟩

/-- No thread of a gang of three sleeps at `abb`. -/
theorem awake_abb {x0 x1 x2 : Pc} (h0 : ∀ g, x0 ≠ .abb (.asleep g))
    (h1 : ∀ g, x1 ≠ .abb (.asleep g)) (h2 : ∀ g, x2 ≠ .abb (.asleep g)) (u : ℕ) (g : U32) :
    pcs x0 x1 x2 u ≠ .abb (.asleep g) := by
  match u with
  | 0 => exact h0 g
  | 1 => exact h1 g
  | 2 => exact h2 g
  | _ + 3 => simp [pcs]

theorem awake_abb2 {x0 x1 x2 : Pc} (h0 : ∀ g, x0 ≠ .abb2 (.asleep g))
    (h1 : ∀ g, x1 ≠ .abb2 (.asleep g)) (h2 : ∀ g, x2 ≠ .abb2 (.asleep g)) (u : ℕ) (g : U32) :
    pcs x0 x1 x2 u ≠ .abb2 (.asleep g) := by
  match u with
  | 0 => exact h0 g
  | 1 => exact h1 g
  | 2 => exact h2 g
  | _ + 3 => simp [pcs]

/-- A barrier that spins. -/
def bar (total g awaited : U32) : AbBarrier := ⟨total, g, awaited, true⟩

theorem bar_generation (total g awaited : U32) : (bar total g awaited).generation = g := rfl

theorem bar_arrive {total g awaited awaited' : U32} (hg : Aligned g) (h : awaited - 1 = awaited')
    (h0 : awaited' ≠ 0) :
    (bar total g awaited).runs .start 2 = some (bar total g awaited', .loadAwaited g) := by
  subst h
  exact (bar total g awaited).runs_arrive hg h0

theorem bar_close {total g : U32} (h : 1 < total) :
    (bar total g 1).runs .start 8 = some (bar total (g + BAR_INCR) total, .ret) :=
  (bar total g 1).runs_close (show (1 : U32) - 1 = 0 by decide) h

theorem bar_leave {total g awaited : U32} (h : ¬ BAR_OVERFLOW < awaited) :
    (bar total (g + BAR_INCR) awaited).runs (.loadAwaited g) 3 = some
    (bar total (g + BAR_INCR) awaited, .ret) :=
  AbBarrier.runs_leave rfl h (add_incr_ne g)

/-- **A round of two parts** of a gang of three, up to where worker `2` has come out of `abb` and
has not read the flag. -/
theorem leads_round {g g2 tot2 aw2 : U32} (hg : Aligned g) (hg2 : Aligned g2) :
    Leads (At (pcs .idle (.abb .start) (.abb .start)) (bar 3 g 3) (bar tot2 g2 aw2) f h p)
      (At (pcs .idle (.abb .start) .checkShutdown) (bar 3 (g + BAR_INCR) 3)
        (bar 2 (g2 + BAR_INCR) 2)
        (reinitFlag g 2) (h + 1) (p + 1)) := by
  have htake : ∀ t < 2, takesPart (g + BAR_INCR) (reinitFlag g 2) t = true := fun t ht =>
    (takesPart_own (by decide)).mpr ht
  -- what the threads do at `abb`: two arrive, the third closes the round, and the two leave
  have a0 : (bar 3 g 3).runs .start 2 = some (bar 3 g 2, .loadAwaited g) :=
    bar_arrive hg (by decide) (by decide)
  have a1 : (bar 3 g 2).runs .start 2 = some (bar 3 g 1, .loadAwaited g) :=
    bar_arrive hg (by decide) (by decide)
  have a2 : (bar 3 g 1).runs .start 8 = some (bar 3 (g + BAR_INCR) 3, .ret) := bar_close (by decide)
  have al : (bar 3 (g + BAR_INCR) 3).runs (.loadAwaited g) 3 =
      some (bar 3 (g + BAR_INCR) 3, .ret) :=
    bar_leave (by decide)
  -- and the two at `abb2`
  have b0 : (bar 2 g2 2).runs .start 2 = some (bar 2 g2 1, .loadAwaited g2) :=
    bar_arrive hg2 (by decide) (by decide)
  have b1 : (bar 2 g2 1).runs .start 8 = some (bar 2 (g2 + BAR_INCR) 2, .ret) :=
    bar_close (by decide)
  have bl : (bar 2 (g2 + BAR_INCR) 2).runs (.loadAwaited g2) 3 =
      some (bar 2 (g2 + BAR_INCR) 2, .ret) :=
    bar_leave (by decide)
  refine (leads_submit (n := 2) le_rfl (by decide) rfl).trans ?_
  rw [update_pcs_zero]
  refine (leads_abb (t := 0) (by decide) rfl (by simp)
    (fun u _ => awake_abb (by simp) (by simp) (by simp) u) a0
    (.inl (by decide))).trans ?_
  rw [update_pcs_zero]
  refine (leads_abb (t := 1) (by decide) rfl (by simp)
    (fun u _ => awake_abb (by simp [Pc.afterAbb]) (by simp) (by simp) u) a1
    (.inl (by decide))).trans ?_
  rw [update_pcs_one]
  refine (leads_abb_two rfl (by simp) (fun u _ => awake_abb (by simp [Pc.afterAbb])
    (by simp [Pc.afterAbb])
    (by simp) u) a2).trans ?_
  rw [update_pcs_two]
  refine (leads_abb (t := 0) (by decide) rfl (by simp) (fun u _ => awake_abb (by simp [Pc.afterAbb])
    (by simp [Pc.afterAbb]) (by simp) u) al (.inl (by decide))).trans ?_
  rw [update_pcs_zero]
  refine (leads_abb (t := 1) (by decide) rfl (by simp) (fun u _ => awake_abb (by simp [Pc.afterAbb])
    (by simp [Pc.afterAbb]) (by simp) u) al (.inl (by decide))).trans ?_
  rw [update_pcs_one]
  refine (leads_part (t := 0) (by decide) rfl
    (by rw [bar_generation]; exact htake 0 (by decide))).trans ?_
  rw [update_pcs_zero]
  refine (leads_part (t := 1) (by decide) rfl
    (by rw [bar_generation]; exact htake 1 (by decide))).trans ?_
  rw [update_pcs_one]
  refine (leads_abb2 (t := 0) (by decide) rfl (by simp)
    (fun u _ => awake_abb2 (by simp) (by simp) (by simp) u)
    b0).trans ?_
  rw [update_pcs_zero]
  refine (leads_abb2 (t := 1) (by decide) rfl (by simp)
    (fun u _ => awake_abb2 (by simp [Pc.afterAbb2]) (by simp)
    (by simp) u) b1).trans ?_
  rw [update_pcs_one]
  have := leads_abb2 (t := 0) (b := bar 3 (g + BAR_INCR) 3) (f := reinitFlag g 2)
    (h := h + 1) (p := p + 1)
    (x := pcs (.abb2 (.loadAwaited g2)) (.abb .start) .checkShutdown) (by decide) rfl (by simp)
    (fun u _ => awake_abb2 (by simp) (by simp) (by simp) u) bl
  rw [update_pcs_zero] at this
  exact this

/-- Worker `2`, which does not take part, goes back to `abb`. -/
theorem leads_back {g : U32} (b2 : AbBarrier) :
    Leads (At (pcs .idle (.abb .start) .checkShutdown) (bar 3 (g + BAR_INCR) 3) b2
      (reinitFlag g 2) h p)
      (At (pcs .idle (.abb .start) (.abb .start)) (bar 3 (g + BAR_INCR) 3) b2
        (reinitFlag g 2) h p) := by
  have hout : takesPart (bar 3 (g + BAR_INCR) 3).generation (reinitFlag g 2) 2 = false := by
    rw [bar_generation, Bool.eq_false_iff, Ne, takesPart_own (by decide)]
    decide
  have hskip : Leads (At (pcs .idle (.abb .start) .checkShutdown) (bar 3 (g + BAR_INCR) 3) b2
      (reinitFlag g 2) h p) _ :=
    leads_skip (t := 2) (by decide) rfl hout
  rw [update_pcs_two] at hskip
  exact hskip

theorem ofNat_add_incr (k : ℕ) :
    BitVec.ofNat 32 (512 * k) + BAR_INCR = BitVec.ofNat 32 (512 * (k + 1)) := by
  rw [show BAR_INCR = BitVec.ofNat 32 512 from rfl, ← BitVec.ofNat_add]
  rfl

theorem aligned_ofNat (k : ℕ) : Aligned (BitVec.ofNat 32 (512 * k)) := by
  rw [Aligned, BitVec.toNat_ofNat]
  omega

/-- After any number of rounds of two parts the gang can be at rest. -/
theorem exists_rest (k : ℕ) :
    ∃ s, (system 3 0).Reach (fun _ a => a ≠ .destroy) s ∧ ∃ total awaited f,
    At (pcs .idle (.abb .start) (.abb .start)) (bar 3 (BitVec.ofNat 32 (512 * k)) 3)
      (bar total (BitVec.ofNat 32 (512 * k)) awaited) f k k s := by
  induction k with
  | zero =>
    refine ⟨start 3 0, .init rfl, 3, 3, 0, ?_, rfl, rfl, rfl, rfl, rfl, rfl⟩
    funext u
    match u with
    | 0 | 1 | 2 => rfl
    | _ + 3 => simp [start, pcs]
  | succ k ih =>
    obtain ⟨s, hr, total, awaited, f, hs⟩ := ih
    obtain ⟨s', hrun, hs'⟩ :=
      ((leads_round (aligned_ofNat k) (aligned_ofNat k)).trans (leads_back _)) s hs
    rw [ofNat_add_incr] at hs'
    exact ⟨s', hrun.reach hr, 2, 2, _, hs'⟩

/-- Worker `2`, late from a round of two, is about to read the flag of a round of three, and goes
back to `abb` first. -/
theorem stale_flag_recognised_late : ∃ s,
    (system 3 0).Reach (fun s a => a ≠ .destroy ∧ Timely s a) s ∧
    s.history.length = 2 ∧ s.passed 2 = 1 ∧ s.phase = .published ∧ s.pc 2 = .loadFlag 512 ∧
    skips 512 s.flag 2 = true := by
  obtain ⟨s₀, hr, total, awaited, f, hs₀⟩ := exists_rest 0
  obtain ⟨s₁, hrun₁, hs₁⟩ := leads_round (aligned_ofNat 0) (aligned_ofNat 0) s₀ hs₀
  obtain ⟨s₂, hrun₂, hs₂⟩ := leads_submit (n := 3) (by decide) le_rfl rfl s₁ hs₁
  rw [update_pcs_zero] at hs₂
  obtain ⟨s, hrun, hs⟩ := leads_loadState (t := 2) (by decide) rfl s₂ hs₂
  rw [update_pcs_two] at hs
  have hpc : s.pc 2 = .loadFlag 512 := by rw [hs.pc]; rfl
  have hphase : s.phase = .published := by
    rw [State.phase, hs.pc]
    rfl
  have hreach := timely_reach (by decide) (by decide) (hrun.reach (hrun₂.reach (hrun₁.reach hr)))
    (by rw [NotWrapped, hs.history]; decide)
  exact ⟨s, hreach, hs.history, hs.passed, hphase, hpc,
    (stale_flag_recognised (by decide) (by decide) hreach).goes_back 2 (by decide) (by decide) 512
      hpc hphase⟩

/-- **A late worker misreads the flag** of the round that takes the generation round: it runs its
part of a round whose `abb` it has not passed, and waits at `abb2` while main waits for it at
`abb`. -/
theorem stale_flag_misread : ∃ s, (system 3 0).Reach (fun _ a => a ≠ .destroy) s ∧
    s.history.length = 8388608 ∧ s.passed 2 = 8388607 ∧ s.pc 2 = .abb2 .start ∧
    s.pc 0 = .abb .start ∧
    ¬ StaleOk 3 s := by
  obtain ⟨s, hr, total, awaited, f, hs⟩ := exists_rest 8388606
  have hlast := leads_round (aligned_ofNat 8388606) (aligned_ofNat 8388606) s hs
  obtain ⟨s₁, hrun₁, hs₁⟩ := hlast
  -- main submits a round of three, whose generation is `0`
  obtain ⟨s₂, hrun₂, hs₂⟩ := leads_submit (n := 3) (by decide) le_rfl rfl s₁ hs₁
  rw [update_pcs_zero] at hs₂
  have hmis : takesPart (BitVec.ofNat 32 (512 * 8388606) + BAR_INCR)
      (reinitFlag (BitVec.ofNat 32 (512 * 8388606) + BAR_INCR) 3) 2 = true := by decide
  obtain ⟨s₃, hrun₃, hs₃⟩ :=
    leads_part (t := 2) (by decide) rfl (by rw [bar_generation]; exact hmis) s₂ hs₂
  rw [update_pcs_two] at hs₃
  have hpc2 : s₃.pc 2 = .abb2 .start := by rw [hs₃.pc]; rfl
  have hpc0 : s₃.pc 0 = .abb .start := by rw [hs₃.pc]; rfl
  refine ⟨s₃, hrun₃.reach (hrun₂.reach (hrun₁.reach hr)), hs₃.history, hs₃.passed, hpc2, hpc0,
    fun hok => ?_⟩
  rcases hok.not_apart 2 _ _ hpc2 hpc0 with hl | hl <;> cases hl

end Wrap

end NetworkDemo.Gang
