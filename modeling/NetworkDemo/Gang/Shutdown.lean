import NetworkDemo.Gang.Destructor
import NetworkDemo.Gang.Submit
import Mathlib.Algebra.Order.BigOperators.Group.Finset

/-!
# Shutting the gang down

Whether `~Gang` comes to an end, whatever the threads do, is decided by where the
workers are when it is called.

* `shutdown_ends_iff` — it always ends exactly when the gang has two threads, or
  every worker has arrived at `abb`, so that main closes the round alone.
* `shutdown_hangs` — a gang of three whose late worker comes between main's two
  decrements: the worker makes `awaited` zero, and finds `total` to be one when it
  comes to wake the sleepers; main finds `awaited` overflown and leaves its loop.
-/

namespace NetworkDemo.Gang

open Foundations Sync

/-- The step does not destroy the gang, and publishes no round that takes the generation round its
32 bits. -/
def Unwrapped (s : State) (a : Act) : Prop :=
  a ≠ .destroy ∧ ∀ n f, s.pc 0 = .storeFlag n f → a = .thread 0 →
    s.abb.generation.toNat + 512 < 4294967296

section Shutdown

variable {num : ℕ} {flag : U32} {s s' : State} {a : Act} {t l : ℕ} {x y : Pc} {w w' : WaitPc}
  {g g2 : U32} {bar bar' : AbBarrier}

/-! ### Between submits -/

theorem honest_of_unwrapped (h : GangInv num s) (ha : Unwrapped s a) : Honest num s a := by
  refine ⟨ha.1, fun n f hpc hat t _ _ _ => ?_⟩
  have hm := h.core.main
  rw [hpc] at hm
  obtain ⟨-, -, rfl⟩ := hm
  exact takesPart_stale h.core.abbInv.aligned (ha.2 n _ hpc hat)

/-- A run of a gang of at most 255 threads keeps to it until `2 ^ 23` rounds have been submitted. -/
theorem unwrapped_reach (h2 : 2 ≤ num) (hn : num ≤ 255)
    (h : (system num flag).Reach (fun _ a => a ≠ .destroy) s) (hw : NotWrapped s) :
    (system num flag).Reach Unwrapped s := by
  refine h.strengthen (fun s a s' hs hB => hB.of_step hs)
    (fun s a s' hr ha hs hB => ⟨ha, fun n f hpc hat => ?_⟩) hw
  subst hat
  have hhonest : (system num flag).Reach (Honest num) s :=
    hr.strengthen (B := fun _ => True) (fun _ _ _ _ h => h)
      (fun _ _ _ hr ha _ _ => honest_of_unwrapped (gangInv_reach h2 (by omega) hr) ha) trivial
  exact generation_lt_of_notWrapped h2 hn hhonest hpc hs hB

theorem honest_reach_of_unwrapped (h2 : 2 ≤ num) (hn : num ≤ 10000000)
    (h : (system num flag).Reach Unwrapped s) : (system num flag).Reach (Honest num) s :=
  h.strengthen (B := fun _ => True) (fun _ _ _ _ h => h)
    (fun _ _ _ hr ha _ _ => honest_of_unwrapped (gangInv_reach h2 hn hr) ha) trivial

@[simp] theorem lags_othersAbb : (x.othersAbb w).lags g = x.lags g := by
  cases x <;> simp [Pc.othersAbb, Pc.lags]

@[simp] theorem lags_othersAbb2 : (x.othersAbb2 w).lags g = x.lags g := by
  cases x <;> rfl

theorem phaseOf_abb_ne_over : phaseOf g g2 (.abb w) ≠ .over := by
  show (if w.leaving g = true then Phase.running else .published) ≠ .over
  split_ifs <;> decide

/-- The worker of a gang of two is not behind once a round is over: it took part. -/
def CaughtUp (s : State) : Prop := s.phase = .over → (s.pc 1).lags s.abb.generation = false

/-- In a gang of two the worker takes part in every round. -/
theorem GangInv.one_takesPart (h : GangInv 2 s) (hp : s.phase = .running) :
    takesPart s.abb.generation s.flag 1 = true := by
  obtain ⟨_, h2, -⟩ := h.count_eq (by decide) (by rw [hp]; decide)
  exact (h.takesPart_running (by decide) hp 1).mpr (by omega)

/-- Main takes a step. -/
theorem CaughtUp.mainStep (h : CaughtUp s) (hI : GangInv 2 s)
    (hs : s.threadStep 2 0 = some s') : CaughtUp s' := by
  intro hover
  have hm := hI.core.main
  -- the worker stays where it is, so the round was over before
  have hkeep : ∀ x, s'.pc = Function.update s.pc 0 x → s'.abb.generation = s.abb.generation →
      s.phase = .over → (s'.pc 1).lags s'.abb.generation = false := fun x hpc hg hp => by
    rw [hpc, hg, Function.update_of_ne (by decide)]
    exact h hp
  unfold State.threadStep at hs
  cases hpc : s.pc 0 with
  | abb w =>
    rw [hpc] at hs
    obtain ⟨⟨bar', w'⟩, hb, rfl⟩ := Option.map_eq_some_iff.mp hs
    rcases (hI.core.abbStep le_rfl (by decide) hpc hb).2 with ⟨-, -, hph⟩ | ⟨-, -, -, hp', -⟩
    · rw [hpc] at hph
      exact absurd (hph.symm.trans hover) phaseOf_abb_ne_over
    · cases hp'.symm.trans hover
  | abb2 w =>
    rw [hpc] at hs
    obtain ⟨⟨bar', w'⟩, hb, rfl⟩ := Option.map_eq_some_iff.mp hs
    show (moveAbb2 s.pc 0 w w' 1).lags s.abb.generation = false
    rw [moveAbb2_of_ne (by decide), lags_othersAbb2]
    rcases (hI.core.abb2Step (by decide) hpc hb).2 with ⟨-, hph⟩ | ⟨-, hp, -, hall⟩
    · exact h (hph.symm.trans hover)
    · obtain ⟨p, hp1⟩ := hall 1 (Finset.mem_filter.mpr ⟨by decide, hI.one_takesPart hp⟩)
      rw [hp1]
      rfl
  | loadFlag state =>
    rw [hpc] at hs hm
    obtain rfl := Option.some.inj hs
    have htake := hI.main_takesPart (by decide) (by rw [State.phase, hpc]; rfl)
    rw [takesPart, ← show state = s.abb.generation from hm] at htake
    rw [State.phase, State.goto, show skips state s.flag 0 = false by simpa using htake] at hover
    cases hover
  | checkShutdown =>
    rw [hpc] at hs
    obtain rfl := Option.some.inj hs
    rw [hI.alive] at hover
    cases hover
  | loadState | callTasks =>
    rw [hpc] at hs
    obtain rfl := Option.some.inj hs
    cases hover
  | inTasks =>
    rw [hpc] at hs
    obtain rfl := Option.some.inj hs
    have hstart : phaseOf s.abb.generation s.abb2.generation (.abb2 .start) = .running := by
      simp [phaseOf, WaitPc.leaving, WaitPc.waking, WaitPc.saved]
    cases hstart.symm.trans hover
  | storeFlag | storeTotal =>
    rw [hpc] at hs
    obtain rfl := Option.some.inj hs
    cases hover
  | storeAwaited =>
    rw [hpc] at hs
    obtain rfl := Option.some.inj hs
    exact absurd hover phaseOf_abb_ne_over
  | resetTasks | inlineTasks | reinitLoad =>
    rw [hpc] at hs
    obtain rfl := Option.some.inj hs
    exact hkeep _ rfl rfl (by rw [State.phase, hpc]; rfl)
  | idle => rw [hpc] at hs; cases hs
  | _ => rw [hpc] at hm; exact absurd hm id

/-- The worker takes a step. -/
theorem CaughtUp.workerStep (h : CaughtUp s) (hI : GangInv 2 s)
    (hs : s.threadStep 2 1 = some s') : CaughtUp s' := by
  intro hover
  have hw := hI.core.workers 1 (by decide) (by decide)
  unfold State.threadStep at hs
  cases hpc : s.pc 1 with
  | abb w =>
    rw [hpc] at hs
    obtain ⟨⟨bar', w'⟩, hb, rfl⟩ := Option.map_eq_some_iff.mp hs
    rcases (hI.core.abbStep le_rfl (by decide) hpc hb).2 with ⟨hg, hst, hph⟩ | ⟨-, -, -, hp', -⟩
    · have hl := h (hph.symm.trans hover)
      rw [hpc] at hl
      show (moveAbb s.pc 1 w w' 1).lags bar'.generation = false
      rw [moveAbb_self, hg]
      rcases hst with ⟨hr, hl'⟩ | ⟨-, hl'⟩
      · rw [afterAbb_of_inCall hr]
        exact hl'.trans hl
      · rw [show w.leaving s.abb.generation = false from hl] at hl'
        cases hl'
    · cases hp'.symm.trans hover
  | abb2 w =>
    rw [hpc] at hs
    obtain ⟨⟨bar', w'⟩, hb, rfl⟩ := Option.map_eq_some_iff.mp hs
    show (moveAbb2 s.pc 1 w w' 1).lags s.abb.generation = false
    rw [moveAbb2_self]
    cases w' <;> rfl
  | checkShutdown | loadState | loadFlag =>
    rw [hpc] at hs
    obtain rfl := Option.some.inj hs
    have hl := h ((phase_goto_worker (by decide)).symm.trans hover)
    rw [hpc] at hl
    cases hl
  | callTasks =>
    rw [hpc] at hs hw
    obtain rfl := Option.some.inj hs
    have hsame : (s.called 1).phase = s.phase :=
      phase_goto_worker (s := s) (x := .inTasks) Nat.one_ne_zero
    cases hw.1.symm.trans (hsame.symm.trans hover)
  | inTasks =>
    rw [hpc] at hs hw
    obtain rfl := Option.some.inj hs
    have hp := (phase_goto_worker (by decide)).symm.trans hover
    cases hw.1.symm.trans hp
  | _ => rw [hpc] at hw; exact absurd hw id

theorem CaughtUp.step (h : CaughtUp s) (hI : GangInv 2 s) (ha : a ≠ .destroy)
    (hs : step 2 s a = some s') : CaughtUp s' := by
  cases a with
  | thread t =>
    simp only [Gang.step] at hs
    split_ifs at hs with ht
    obtain rfl | rfl : t = 0 ∨ t = 1 := by omega
    · exact h.mainStep hI hs
    · exact h.workerStep hI hs
  | submit n =>
    simp only [Gang.step] at hs
    split_ifs at hs with hi
    · obtain rfl := Option.some.inj hs
      exact h
    · obtain rfl := Option.some.inj hs
      exact fun _ => h (by rw [State.phase, State.isIdle_iff.mp hi.1]; rfl)
  | destroy => exact absurd rfl ha

theorem caughtUp_reach (h : (system 2 flag).Reach (Honest 2) s) : CaughtUp s := by
  refine h.invariant (fun s hi _ => ?_) fun s a s' hr hI ha hs =>
    hI.step (gangInv_reach le_rfl (by decide) hr) ha.1 hs
  obtain rfl : s = start 2 flag := hi
  rfl

/-! ### Who is missing at `abb` -/

/-- The threads that have not arrived in the round. -/
def missing (num : ℕ) (s : State) : Finset ℕ :=
  (Finset.range num).filter fun t => (s.pc t).abbPos.arrived s.abb.generation = false

theorem mem_missing :
    t ∈ missing num s ↔ t < num ∧ (s.pc t).abbPos.arrived s.abb.generation = false := by
  rw [missing, Finset.mem_filter, Finset.mem_range]

/-- Between submits the round of `abb` is open. -/
theorem GangInv.abb_open (h : GangInv num s) (h2 : 2 ≤ num) (hpc : s.pc 0 = .idle) :
    BarOpen s.abb (Finset.range num) fun u => (s.pc u).abbPos :=
  h.core.abbInv.phase.resolve_right fun ⟨v, hcl⟩ => by
    have harr := hcl.all 0 (Finset.mem_range.mpr (by omega))
    rw [hpc] at harr
    cases harr

/-- Between submits `awaited` is how many are missing. -/
theorem GangInv.awaited_eq (h : GangInv num s) (h2 : 2 ≤ num) (hpc : s.pc 0 = .idle) :
    s.abb.awaited.toNat = (missing num s).card := by
  have hcount := (h.abb_open h2 hpc).count
  have hall := Finset.card_filter_add_card_filter_not (s := Finset.range num)
    fun t => (s.pc t).abbPos.arrived s.abb.generation = true
  have hnot : ((Finset.range num).filter fun t =>
      ¬ (s.pc t).abbPos.arrived s.abb.generation = true) = missing num s :=
    Finset.filter_congr fun t _ => by rw [Bool.not_eq_true]
  rw [hnot, Finset.card_range] at hall
  rw [h.core.abbTotal] at hcount
  change s.abb.awaited.toNat + ((Finset.range num).filter fun t =>
    (s.pc t).abbPos.arrived s.abb.generation = true).card = num at hcount
  omega

/-- `awaited` is one when every worker has arrived. -/
theorem GangInv.awaited_eq_one (h : GangInv num s) (h2 : 2 ≤ num) (hpc : s.pc 0 = .idle) :
    s.abb.awaited = 1 ↔
      ∀ t, t ≠ 0 → t < num → (s.pc t).abbPos.arrived s.abb.generation = true := by
  have hmain : 0 ∈ missing num s := mem_missing.mpr ⟨by omega, by rw [hpc]; rfl⟩
  have hone : s.abb.awaited = 1 ↔ (missing num s).card = 1 := by
    rw [← h.awaited_eq h2 hpc]
    exact ⟨fun h1 => by rw [h1]; rfl, fun h1 => BitVec.eq_of_toNat_eq h1⟩
  rw [hone, Finset.card_eq_one]
  constructor
  · rintro ⟨m, hm⟩ t h0 ht
    by_contra hno
    rw [hm, Finset.mem_singleton] at hmain
    have hmem : t ∈ missing num s := mem_missing.mpr ⟨ht, by simpa using hno⟩
    rw [hm, Finset.mem_singleton] at hmem
    exact h0 (hmem.trans hmain.symm)
  · intro hall
    refine ⟨0, Finset.eq_singleton_iff_unique_mem.mpr ⟨hmain, fun t hmem => ?_⟩⟩
    obtain ⟨ht, hno⟩ := mem_missing.mp hmem
    by_contra h0
    rw [hall t h0 ht] at hno
    cases hno

/-! ### The destructor is called -/

/-- A worker that has arrived waits, and main will release it. -/
theorem GangInv.leaver_arrived (h : GangInv num s) (h2 : 2 ≤ num) (hpc : s.pc 0 = .idle)
    (ha : s.abb.awaited = 1) (harr : (s.pc t).abbPos.arrived s.abb.generation = true) :
    Leaver num s.abb s.abb2.generation .dtorShutdown (s.pc t) := by
  have hs := (WaitPc.saved_of_arrived harr).resolve_left fun hl => by
    have hno := (h.abb_open h2 hpc).noLast t
    rw [show (s.pc t).abbPos.last = true from hl] at hno
    cases hno
  cases hx : s.pc t with
  | abb w =>
    rw [hx] at hs
    exact .waiting hs ha
  | _ => rw [hx] at hs; cases hs

/-- The only worker, when it has not arrived, is on its way. -/
theorem GangInv.leaver_coming (h : GangInv 2 s) (hc : CaughtUp s) (hpc : s.pc 0 = .idle)
    (harr : (s.pc 1).abbPos.arrived s.abb.generation = false) :
    Leaver 2 s.abb s.abb2.generation .dtorShutdown (s.pc 1) := by
  have hp : s.phase = .over := by rw [State.phase, hpc]; rfl
  have hlag := hc hp
  have hw := h.core.workers 1 (by decide) (by decide)
  rw [show phaseOf _ _ _ = Phase.over from hp] at hw
  have hmiss : missing 2 s = {0, 1} := by
    ext t
    rw [mem_missing, Finset.mem_insert, Finset.mem_singleton]
    constructor
    · rintro ⟨ht, -⟩
      omega
    · rintro (rfl | rfl)
      · exact ⟨by decide, by rw [hpc]; rfl⟩
      · exact ⟨by decide, harr⟩
  have ha : s.abb.awaited = 2 := by
    refine BitVec.eq_of_toNat_eq ((h.awaited_eq le_rfl hpc).trans ?_)
    rw [hmiss]
    rfl
  have hpos := h.core.abbInv.posOk 1
  have hal := h.core.abbInv.aligned
  cases hx : s.pc 1 with
  | abb w =>
    rw [hx] at hw harr hlag
    have hent : w.entering = true := by
      rcases WaitPc.kinds s.abb.generation w with hk | hk | hk | hk
      · rw [hk] at hw
        cases hw.1
      · exact hk
      · rw [show w.arrived s.abb.generation = false from harr] at hk
        cases hk
      · rw [show w.leaving s.abb.generation = false from hlag] at hk
        cases hk
    refine .coming rfl hent ha (fun _ => hal) fun _ r hr => ?_
    simp only [hx, Pc.abb.inj hr, Pc.abbPos] at hpos
    exact hpos
  | abb2 w =>
    rw [hx] at hw
    have hl : w.leaving s.abb2.generation = true := by
      by_contra hl
      have h2 := hw.2
      rw [if_neg hl] at h2
      cases h2.1
    refine .coming rfl ⟨hl, fun g hg => ?_⟩ ha (fun _ => hal) fun _ r hr => by cases hr
    -- who sleeps there has been left behind, and nobody is there to wake it
    have hne : g ≠ s.abb2.generation := by
      simpa [hg, WaitPc.leaving, WaitPc.waking, WaitPc.saved] using hl
    obtain ⟨v, hv⟩ := h.core.abb2Ok.sleep 1 g (by rw [hx, hg]; rfl) hne
    rcases Nat.lt_or_ge v 2 with hlt | hge
    · obtain rfl | rfl : v = 0 ∨ v = 1 := by omega
      · rw [hpc] at hv
        cases hv
      · rw [hx, hg] at hv
        cases hv
    · rw [h.core.outside v hge] at hv
      cases hv
  | checkShutdown | loadState | loadFlag => rw [hx] at hlag; cases hlag
  | callTasks | inTasks => rw [hx] at hw; cases hw.1
  | _ => rw [hx] at hw; exact absurd hw id

/-- When every worker has arrived, or there is only one, the destructor's invariant holds. -/
theorem GangInv.destroyed (h : GangInv num s) (h2 : 2 ≤ num) (hpc : s.pc 0 = .idle)
    (hcase : num = 2 ∧ CaughtUp s ∨ s.abb.awaited = 1) :
    DtorInv num (s.goto 0 .dtorShutdown) where
  main := trivial
  workers t h0 ht := by
    show Leaver num s.abb s.abb2.generation (Function.update s.pc 0 .dtorShutdown 0)
      (Function.update s.pc 0 .dtorShutdown t)
    rw [Function.update_self, Function.update_of_ne h0]
    rcases hcase with ⟨rfl, hc⟩ | ha
    · obtain rfl : t = 1 := by omega
      cases harr : (s.pc 1).abbPos.arrived s.abb.generation with
      | true =>
        refine h.leaver_arrived h2 hpc ((h.awaited_eq_one h2 hpc).mpr fun t h0 ht => ?_) harr
        obtain rfl : t = 1 := by omega
        exact harr
      | false => exact h.leaver_coming hc hpc harr
    · exact h.leaver_arrived h2 hpc ha ((h.awaited_eq_one h2 hpc).mp ha t h0 ht)
  outside t ht := by
    show Function.update s.pc 0 .dtorShutdown t = .exited
    rw [Function.update_of_ne (by omega), h.core.outside t ht]

/-! ### A worker that comes late

With two workers or more, one of which has not arrived, the others can be let run until they sleep
at `abb`, and the late one until it is about to arrive. The rank of a position says how long that
takes. -/

/-- How many steps a thread still takes in the wait at a barrier of generation `g`; `base` counts
those it takes after it has left. -/
def waitRank (g : U32) (base : ℕ) : WaitPc → ℕ
  | .start => abSpinCountVar + 5
  | .decrement _ => abSpinCountVar + 4
  | .loadAwaited s => if s = g then abSpinCountVar + 3 else base + 3
  | .spin s i => if s = g then abSpinCountVar - i + 2 else base + 2
  | .futexWait s => if s = g then 1 else base + 2
  | .asleep s => if s = g then 0 else base + 2
  | .reload s => if s = g then abSpinCountVar + 3 else base + 1
  | .testTotal => base + 2
  | .wake => base + 1
  | _ => 0

/-- How many steps a worker still takes until it sleeps. -/
def Pc.rank (g g2 : U32) : Pc → ℕ
  | .abb w => waitRank g (abSpinCountVar + 8) w
  | .checkShutdown => abSpinCountVar + 8
  | .loadState => abSpinCountVar + 7
  | .loadFlag _ => abSpinCountVar + 6
  | .abb2 w => waitRank g2 (abSpinCountVar + 5) w
  | _ => 0

/-- About to wake the sleepers of a barrier. -/
def Pc.wakes (x : Pc) : Bool := x.abbPos.waking || x.abb2Pos.waking

theorem waitRank_le (base : ℕ) (h : base ≤ abSpinCountVar + 8) :
    waitRank g base w ≤ abSpinCountVar + 11 := by
  cases w <;> (simp only [waitRank]; grind)

theorem rank_le : x.rank g g2 ≤ abSpinCountVar + 11 := by
  cases x with
  | abb w => exact waitRank_le _ le_rfl
  | abb2 w => exact waitRank_le _ (by omega)
  | _ =>
    simp only [Pc.rank]
    omega

/-- A thread that neither arrives last nor has returned comes nearer to its sleep, or leaves. -/
theorem waitRank_step (base : ℕ) (hal : Aligned bar.generation) (hpos : bar.PosOk w)
    (hl : w.last = false) (h1 : w.arriving = true → bar.awaited - 1 ≠ 0)
    (hov : w.leaving bar.generation = false → ¬ BAR_OVERFLOW < bar.awaited)
    (hs : bar.step w = some (bar', w')) :
    (w' = .ret ∧ base < waitRank bar.generation base w ∨
      w'.returned = false ∧ waitRank bar.generation base w' < waitRank bar.generation base w) ∧
      (w'.waking = true → w.waking = true) := by
  -- to begin to wait again
  have hturn : ∀ s, (bar.waitTurn s).returned = false ∧ (bar.waitTurn s).waking = false ∧
      waitRank bar.generation base (bar.waitTurn s) ≤
        if s = bar.generation then abSpinCountVar + 2 else base + 2 := fun s => by
    unfold AbBarrier.waitTurn
    split_ifs <;> refine ⟨rfl, rfl, ?_⟩ <;> simp only [waitRank] <;> split_ifs <;> omega
  cases w with
  | start =>
    obtain ⟨-, rfl⟩ := Prod.mk.inj (Option.some.inj hs)
    exact ⟨.inr ⟨rfl, by simp only [waitRank]; omega⟩, fun h => by cases h⟩
  | decrement r =>
    obtain rfl : r = bar.generation := hpos
    obtain ⟨-, rfl⟩ := Prod.mk.inj (Option.some.inj hs)
    rw [if_neg (h1 rfl), hal.waitEnd]
    exact ⟨.inr ⟨rfl, by simp only [waitRank, if_true]; omega⟩, fun h => by cases h⟩
  | loadAwaited s =>
    obtain ⟨-, rfl⟩ := Prod.mk.inj (Option.some.inj hs)
    obtain ⟨hret, hwak, hrank⟩ := hturn s
    by_cases hg : s = bar.generation
    · rw [if_pos hg] at hrank
      rw [if_neg (hov (by simp [WaitPc.leaving, WaitPc.waking, WaitPc.saved, hg]))]
      refine ⟨.inr ⟨hret, ?_⟩, fun h => by rw [hwak] at h; cases h⟩
      rw [show waitRank bar.generation base (.loadAwaited s) = abSpinCountVar + 3 from if_pos hg]
      omega
    · rw [if_neg hg] at hrank
      rw [show waitRank bar.generation base (.loadAwaited s) = base + 3 from if_neg hg]
      split_ifs
      · exact ⟨.inl ⟨rfl, by omega⟩, fun h => by cases h⟩
      · exact ⟨.inr ⟨hret, by omega⟩, fun h => by rw [hwak] at h; cases h⟩
  | spin s i =>
    obtain ⟨-, rfl⟩ := Prod.mk.inj (Option.some.inj hs)
    by_cases hg : s = bar.generation
    · rw [if_neg (not_not.mpr hg.symm)]
      split_ifs with hi
      · exact ⟨.inr ⟨rfl, by simp only [waitRank, if_pos hg]; omega⟩, fun h => by cases h⟩
      · exact ⟨.inr ⟨rfl, by simp only [waitRank, if_pos hg]; omega⟩, fun h => by cases h⟩
    · rw [if_pos (Ne.symm hg)]
      exact ⟨.inr ⟨rfl, by simp only [waitRank, if_neg hg]; omega⟩, fun h => by cases h⟩
  | futexWait s =>
    obtain ⟨-, rfl⟩ := Prod.mk.inj (Option.some.inj hs)
    by_cases hg : s = bar.generation
    · rw [if_pos hg.symm]
      exact ⟨.inr ⟨rfl, by simp only [waitRank, if_pos hg]; omega⟩, fun h => by cases h⟩
    · rw [if_neg (Ne.symm hg)]
      exact ⟨.inr ⟨rfl, by simp only [waitRank, if_neg hg]; omega⟩, fun h => by cases h⟩
  | asleep s => cases hs
  | reload s =>
    obtain ⟨-, rfl⟩ := Prod.mk.inj (Option.some.inj hs)
    obtain ⟨hret, hwak, hrank⟩ := hturn s
    by_cases hg : s = bar.generation
    · rw [if_pos hg] at hrank
      rw [if_pos hg.symm]
      refine ⟨.inr ⟨hret, ?_⟩, fun h => by rw [hwak] at h; cases h⟩
      rw [show waitRank bar.generation base (.reload s) = abSpinCountVar + 3 from if_pos hg]
      omega
    · rw [if_neg (Ne.symm hg)]
      exact ⟨.inl ⟨rfl, by simp only [waitRank, if_neg hg]; omega⟩, fun h => by cases h⟩
  | testTotal =>
    obtain ⟨-, rfl⟩ := Prod.mk.inj (Option.some.inj hs)
    split_ifs
    · exact ⟨.inr ⟨rfl, by simp only [waitRank]; omega⟩, fun _ => rfl⟩
    · exact ⟨.inl ⟨rfl, by simp only [waitRank]; omega⟩, fun h => by cases h⟩
  | wake =>
    obtain ⟨-, rfl⟩ := Prod.mk.inj (Option.some.inj hs)
    exact ⟨.inl ⟨rfl, by simp only [waitRank]; omega⟩, fun h => by cases h⟩
  | ret => cases hs
  | _ => cases hl

/-! ### Letting the workers run -/

/-- Main is between submits and worker `l` has not arrived at `abb`. -/
structure Lull (num l : ℕ) (s : State) : Prop where
  inv : GangInv num s
  idle : s.pc 0 = .idle
  late : (s.pc l).abbPos.arrived s.abb.generation = false

/-- How many steps the workers still take: each of those about to wake the sleepers may set all the
others back. -/
def potential (num : ℕ) (g g2 : U32) (pc : ℕ → Pc) : ℕ :=
  countThreads (Finset.range num) Pc.wakes pc * (num * (abSpinCountVar + 11) + 1) +
    ∑ t ∈ Finset.range num, (pc t).rank g g2

theorem sum_rank_le (pc : ℕ → Pc) :
    ∑ t ∈ Finset.range num, (pc t).rank g g2 ≤ num * (abSpinCountVar + 11) := by
  refine (Finset.sum_le_card_nsmul _ _ _ fun t _ => rank_le).trans ?_
  rw [Finset.card_range, nsmul_eq_mul, Nat.cast_id]

/-- One thread comes nearer to its sleep. -/
theorem potential_update {pc : ℕ → Pc} (ht : t < num) (hr : x.rank g g2 < (pc t).rank g g2)
    (hw : x.wakes = true → (pc t).wakes = true) :
    potential num g g2 (Function.update pc t x) < potential num g g2 pc := by
  have hsum : ∑ u ∈ Finset.range num, (Function.update pc t x u).rank g g2 <
      ∑ u ∈ Finset.range num, (pc u).rank g g2 := by
    refine Finset.sum_lt_sum (fun u _ => ?_) ⟨t, Finset.mem_range.mpr ht, ?_⟩
    · by_cases hu : u = t
      · rw [hu, Function.update_self]
        exact hr.le
      · rw [Function.update_of_ne hu]
    · rwa [Function.update_self]
  have hcount : countThreads (Finset.range num) Pc.wakes (Function.update pc t x) ≤
      countThreads (Finset.range num) Pc.wakes pc := by
    refine Finset.card_le_card fun u hu => ?_
    obtain ⟨hmem, hwk⟩ := Finset.mem_filter.mp hu
    refine Finset.mem_filter.mpr ⟨hmem, ?_⟩
    by_cases hut : u = t
    · rw [hut, Function.update_self] at hwk
      rw [hut]
      exact hw hwk
    · rwa [Function.update_of_ne hut] at hwk
  exact add_lt_add_of_le_of_lt (Nat.mul_le_mul_right _ hcount) hsum

/-- One thread has woken the sleepers. -/
theorem potential_woken {pc pc' : ℕ → Pc} (ht : t < num) (hold : (pc t).wakes = true)
    (hnew : (pc' t).wakes = false) (hrest : ∀ u, u ≠ t → (pc' u).wakes = (pc u).wakes) :
    potential num g g2 pc' < potential num g g2 pc := by
  have hgain : countThreads (Finset.range num) Pc.wakes pc =
      countThreads (Finset.range num) Pc.wakes pc' + 1 :=
    countThreads_gain (Finset.mem_range.mpr ht) hnew hold fun u hu => (hrest u hu).symm
  have hle : ∑ u ∈ Finset.range num, (pc' u).rank g g2 ≤ num * (abSpinCountVar + 11) :=
    sum_rank_le pc'
  unfold potential
  rw [hgain, Nat.succ_mul]
  omega

/-- The destructor having been called makes no difference to the step of a worker. -/
theorem threadStep_beside {ph : Phase} {r : Bool} (hw : WorkerOk ph g g2 r (s.pc t)) (h0 : t ≠ 0)
    (hs : s.threadStep num t = some s') :
    (s.goto 0 .dtorShutdown).threadStep num t = some (s'.goto 0 .dtorShutdown) := by
  have hpc' : (s.goto 0 .dtorShutdown).pc t = s.pc t := Function.update_of_ne h0 _ _
  have hcomm : ∀ x, (s.goto 0 .dtorShutdown).goto t x = (s.goto t x).goto 0 .dtorShutdown :=
    fun x => by simp only [State.goto, Function.update_comm h0]
  unfold State.threadStep at hs ⊢
  rw [hpc']
  cases hpc : s.pc t with
  | abb w =>
    rw [hpc] at hs
    obtain ⟨⟨bar', w'⟩, hb, rfl⟩ := Option.map_eq_some_iff.mp hs
    have hmove : moveAbb (Function.update s.pc 0 .dtorShutdown) t w w' =
        Function.update (moveAbb s.pc t w w') 0 .dtorShutdown := by
      funext u
      by_cases hu : u = 0
      · rw [hu, moveAbb_of_ne h0.symm, Function.update_self, Function.update_self]
        rfl
      · rw [Function.update_of_ne hu]
        unfold moveAbb
        rw [Function.update_of_ne hu]
    refine Option.map_eq_some_iff.mpr ⟨(bar', w'), hb, ?_⟩
    show ({ s.movedAbb t w bar' w' with
      pc := moveAbb (Function.update s.pc 0 .dtorShutdown) t w w' } : State) = _
    rw [hmove]
    rfl
  | abb2 w =>
    rw [hpc] at hs
    obtain ⟨⟨bar', w'⟩, hb, rfl⟩ := Option.map_eq_some_iff.mp hs
    have hmove : moveAbb2 (Function.update s.pc 0 .dtorShutdown) t w w' =
        Function.update (moveAbb2 s.pc t w w') 0 .dtorShutdown := by
      funext u
      by_cases hu : u = 0
      · rw [hu, moveAbb2_of_ne h0.symm, Function.update_self, Function.update_self]
        rfl
      · rw [Function.update_of_ne hu]
        unfold moveAbb2
        rw [Function.update_of_ne hu]
    refine Option.map_eq_some_iff.mpr ⟨(bar', w'), hb, ?_⟩
    show ({ s.movedAbb2 t w bar' w' with
      pc := moveAbb2 (Function.update s.pc 0 .dtorShutdown) t w w' } : State) = _
    rw [hmove]
    rfl
  | checkShutdown | loadState | loadFlag | inTasks =>
    rw [hpc] at hs
    obtain rfl := Option.some.inj hs
    exact congrArg some (hcomm _)
  | callTasks =>
    rw [hpc] at hs
    obtain rfl := Option.some.inj hs
    refine congrArg some ?_
    unfold State.called
    rw [hcomm]
    rfl
  | _ => rw [hpc] at hw; exact absurd hw id

/-- A worker takes a step at `abb`. -/
theorem Lull.stepAbb (h : Lull num l s) (h2 : 2 ≤ num) (h0 : t ≠ 0) (ht : t < num)
    (hlate : t = l → (s.pc l).abbPos.entering = false) (hpc : s.pc t = .abb w)
    (hb : s.abb.step w = some (bar', w')) :
    bar'.generation = s.abb.generation ∧
      (moveAbb s.pc t w w' l).abbPos.arrived s.abb.generation = false ∧
      potential num s.abb.generation s.abb2.generation (moveAbb s.pc t w w') <
        potential num s.abb.generation s.abb2.generation s.pc := by
  have hc := h.inv.core
  obtain ⟨hg, hst⟩ : bar'.generation = s.abb.generation ∧ Stays s.abb.generation w w' := by
    rcases (hc.abbStep h2 ht hpc hb).2 with ⟨hg, hst, -⟩ | ⟨-, -, hp, -⟩
    · exact ⟨hg, hst⟩
    · rw [h.idle] at hp
      cases hp
  have hpos := hc.abbInv.posOk t
  simp only [hpc, Pc.abbPos] at hpos
  have hlast := (h.inv.abb_open h2 h.idle).noLast t
  simp only [hpc, Pc.abbPos] at hlast
  have h1 : w.arriving = true → s.abb.awaited - 1 ≠ 0 := fun hd hz => by
    have harr := (h.inv.awaited_eq_one h2 h.idle).mp (by bv_omega) t h0 ht
    rw [hpc] at harr
    cases w <;> first | cases hd; done | cases harr
  obtain ⟨hrank, hwk⟩ := waitRank_step (abSpinCountVar + 8) hc.abbInv.aligned hpos hlast h1
    (fun _ => hc.abbInv.not_overflow) hb
  have hr : (Pc.afterAbb w').rank s.abb.generation s.abb2.generation <
      (s.pc t).rank s.abb.generation s.abb2.generation := by
    rw [hpc]
    rcases hrank with ⟨rfl, hlt⟩ | ⟨hret, hlt⟩
    · exact hlt
    · rw [afterAbb_of_inCall hret]
      exact hlt
  refine ⟨hg, ?_, ?_⟩
  · by_cases hlt : l = t
    · -- it has neither arrived nor entered, so it is leaving
      subst hlt
      have hno := h.late
      have hent := hlate rfl
      rw [hpc] at hno hent
      rw [moveAbb_self, abbPos_afterAbb]
      rcases hst with ⟨-, hl⟩ | ⟨rfl, -⟩
      · rcases WaitPc.kinds s.abb.generation w with hk | hk | hk | hk
        · rw [hk] at hb
          cases hb
        · rw [show w.entering = false from hent] at hk
          cases hk
        · rw [show w.arrived s.abb.generation = false from hno] at hk
          cases hk
        · exact (WaitPc.leaving_not_arrived (hl.trans hk)).1
      · rfl
    · rw [moveAbb_of_ne hlt, abbPos_othersAbb, WaitPc.arrived_others]
      exact h.late
  · by_cases hwake : w = .wake
    · subst hwake
      obtain ⟨-, rfl⟩ := Prod.mk.inj (Option.some.inj hb)
      refine potential_woken ht (by rw [hpc]; rfl) (by rw [moveAbb_self]; rfl) fun u hu => ?_
      rw [moveAbb_of_ne hu, Pc.wakes, abbPos_othersAbb, abb2Pos_othersAbb, WaitPc.waking_others]
      rfl
    · rw [moveAbb_of_ne_wake hwake]
      refine potential_update ht hr fun hx => ?_
      rw [Pc.wakes, abbPos_afterAbb, abb2Pos_afterAbb, Bool.or_eq_true] at hx
      rw [hpc, Pc.wakes, Bool.or_eq_true]
      exact .inl (hwk (hx.resolve_right fun hx => by cases hx))

/-- A worker takes a step at `abb2`. -/
theorem Lull.stepAbb2 (h : Lull num l s) (h0 : t ≠ 0) (ht : t < num) (hpc : s.pc t = .abb2 w)
    (hb : s.abb2.step w = some (bar', w')) :
    bar' = s.abb2 ∧ (moveAbb2 s.pc t w w' l).abbPos.arrived s.abb.generation = false ∧
      potential num s.abb.generation s.abb2.generation (moveAbb2 s.pc t w w') <
        potential num s.abb.generation s.abb2.generation s.pc := by
  have hc := h.inv.core
  have hl : w.leaving s.abb2.generation = true :=
    hc.abb2_leaving (by rw [h.idle]; exact fun hp => by cases hp) hpc
  obtain ⟨rfl, -⟩ := AbBarrier.step_leaving hl hb
  have hpos := hc.abb2Ok.posOk t
  simp only [hpc, Pc.abb2Pos] at hpos
  have hkinds := WaitPc.leaving_not_arrived hl
  have hlast : w.last = false := by
    have harr := hkinds.1
    rw [WaitPc.arrived, Bool.or_eq_false_iff] at harr
    exact harr.1
  have h1 : w.arriving = true → s.abb2.awaited - 1 ≠ 0 := fun hd => by
    have hent := hkinds.2.1
    cases w <;> first | cases hd; done | cases hent
  obtain ⟨hrank, hwk⟩ := waitRank_step (abSpinCountVar + 5) hc.abb2Ok.aligned hpos hlast h1
    (fun hno => absurd hl (by rw [hno]; decide)) hb
  have hafter : Pc.afterAbb2 t w' = .abb .start ∧ w' = .ret ∨ Pc.afterAbb2 t w' = .abb2 w' := by
    cases w' <;> first | exact .inl ⟨if_neg h0, rfl⟩ | exact .inr rfl
  have hr : (Pc.afterAbb2 t w').rank s.abb.generation s.abb2.generation <
      (s.pc t).rank s.abb.generation s.abb2.generation := by
    rw [hpc]
    rcases hrank with ⟨rfl, hlt⟩ | ⟨hret, hlt⟩
    · rw [show Pc.afterAbb2 t .ret = .abb .start from if_neg h0]
      exact hlt
    · rw [afterAbb2_of_inCall hret]
      exact hlt
  refine ⟨rfl, ?_, ?_⟩
  · by_cases hlt : l = t
    · rw [hlt, moveAbb2_self]
      rcases hafter with ⟨he, -⟩ | he <;> rw [he] <;> rfl
    · rw [moveAbb2_of_ne hlt, abbPos_othersAbb2]
      exact h.late
  · by_cases hwake : w = .wake
    · subst hwake
      obtain ⟨-, rfl⟩ := Prod.mk.inj (Option.some.inj hb)
      refine potential_woken ht (by rw [hpc]; rfl) ?_ fun u hu => ?_
      · rw [moveAbb2_self, show Pc.afterAbb2 t .ret = .abb .start from if_neg h0]
        rfl
      · rw [moveAbb2_of_ne hu, Pc.wakes, abbPos_othersAbb2, abb2Pos_othersAbb2,
          WaitPc.waking_others]
        rfl
    · have hmove : moveAbb2 s.pc t w w' = Function.update s.pc t (.afterAbb2 t w') := by
        funext u
        by_cases hu : u = t
        · rw [hu, moveAbb2_self, Function.update_self]
        · rw [moveAbb2_of_ne hu, othersAbb2_of_ne_wake hwake, Function.update_of_ne hu]
      rw [hmove]
      refine potential_update ht hr fun hx => ?_
      rcases hafter with ⟨he, -⟩ | he
      · rw [he] at hx
        cases hx
      · rw [he] at hx
        rw [hpc]
        exact hwk hx

/-- What the step of a worker does in a lull: nobody closes a round, and the worker comes nearer to
its sleep. -/
theorem Lull.step (h : Lull num l s) (h2 : 2 ≤ num) (h0 : t ≠ 0) (ht : t < num)
    (hlate : t = l → (s.pc l).abbPos.entering = false) (hs : s.threadStep num t = some s') :
    Lull num l s' ∧ potential num s'.abb.generation s'.abb2.generation s'.pc <
      potential num s.abb.generation s.abb2.generation s.pc := by
  have hI' := h.inv.workerStep h2 h0 ht hs
  have hp : s.phase = .over := by rw [State.phase, h.idle]; rfl
  have hw := h.inv.core.workers t h0 ht
  rw [show phaseOf _ _ _ = Phase.over from hp] at hw
  -- a worker that moves outside the barriers, or to the door of `abb`
  have hgoto : ∀ x, s' = s.goto t x → (s.pc t).wakes = x.wakes →
      x.abbPos.arrived s.abb.generation = false →
      x.rank s.abb.generation s.abb2.generation <
        (s.pc t).rank s.abb.generation s.abb2.generation →
      Lull num l s' ∧ potential num s'.abb.generation s'.abb2.generation s'.pc <
        potential num s.abb.generation s.abb2.generation s.pc := by
    rintro x rfl hwk harr hr
    refine ⟨⟨hI', (Function.update_of_ne h0.symm _ _).trans h.idle, ?_⟩,
      potential_update ht hr fun hx => hwk.trans hx⟩
    show (Function.update s.pc t x l).abbPos.arrived s.abb.generation = false
    by_cases hlt : l = t
    · rw [hlt, Function.update_self]
      exact harr
    · rw [Function.update_of_ne hlt]
      exact h.late
  unfold State.threadStep at hs
  cases hpc : s.pc t with
  | abb w =>
    rw [hpc] at hs
    obtain ⟨⟨bar', w'⟩, hb, rfl⟩ := Option.map_eq_some_iff.mp hs
    obtain ⟨hg, hl, hpot⟩ := h.stepAbb h2 h0 ht hlate hpc hb
    refine ⟨⟨hI', ?_, ?_⟩, ?_⟩
    · show moveAbb s.pc t w w' 0 = .idle
      rw [moveAbb_of_ne h0.symm, h.idle]
      rfl
    · show (moveAbb s.pc t w w' l).abbPos.arrived bar'.generation = false
      rw [hg]
      exact hl
    · show potential num bar'.generation s.abb2.generation (moveAbb s.pc t w w') < _
      rw [hg]
      exact hpot
  | abb2 w =>
    rw [hpc] at hs
    obtain ⟨⟨bar', w'⟩, hb, rfl⟩ := Option.map_eq_some_iff.mp hs
    obtain ⟨rfl, hl, hpot⟩ := h.stepAbb2 h0 ht hpc hb
    refine ⟨⟨hI', ?_, hl⟩, hpot⟩
    show moveAbb2 s.pc t w w' 0 = .idle
    rw [moveAbb2_of_ne h0.symm, h.idle]
    rfl
  | checkShutdown =>
    rw [hpc] at hs
    obtain rfl := Option.some.inj hs
    exact hgoto .loadState (by rw [h.inv.alive]; rfl) (by rw [hpc]; rfl) rfl
      (by rw [hpc]; exact Nat.lt_succ_self _)
  | loadState =>
    rw [hpc] at hs
    obtain rfl := Option.some.inj hs
    exact hgoto _ rfl (by rw [hpc]; rfl) rfl (by rw [hpc]; exact Nat.lt_succ_self _)
  | loadFlag state =>
    rw [hpc] at hs hw
    obtain ⟨rfl, hno⟩ := hw
    have hskip : skips s.abb.generation s.flag t = true := by
      simpa [takesPart] using hno.resolve_left (by decide)
    obtain rfl := Option.some.inj hs
    exact hgoto (.abb .start) (by rw [hskip, if_pos rfl, Pc.back, if_neg h0]) (by rw [hpc]; rfl) rfl
      (by rw [hpc]; exact Nat.lt_succ_self _)
  | callTasks | inTasks => rw [hpc] at hw; cases hw.1
  | _ => rw [hpc] at hw; exact absurd hw id

/-- When no worker but the late one can go on, they all sleep in the round that is open, and the
late one is about to arrive. -/
theorem Lull.settled (h : Lull num l s) (hl : l ≠ 0) (hln : l < num)
    (hstuck : ∀ t, t ≠ 0 → t < num → (t = l → (s.pc l).abbPos.entering = false) →
      s.threadStep num t = none) :
    (∀ t, t ≠ 0 → t ≠ l → t < num → s.pc t = .abb (.asleep s.abb.generation)) ∧
      (s.pc l).abbPos.entering = true := by
  have hc := h.inv.core
  have hasleep : ∀ t, t ≠ 0 → t < num → (t = l → (s.pc l).abbPos.entering = false) →
      (∃ g, s.pc t = .abb (.asleep g)) ∨ ∃ g, s.pc t = .abb2 (.asleep g) := fun t h0 ht hlt => by
    rcases h.inv.stuck ht (hstuck t h0 ht hlt) with hg | hg | ⟨h0', -⟩
    · exact .inl hg
    · exact .inr hg
    · exact absurd h0' h0
  -- so nobody is about to wake the sleepers of either barrier
  have hcalm : ∀ u, (s.pc u).abbPos.waking = false ∧ (s.pc u).abb2Pos.waking = false := fun u => by
    rcases Nat.lt_or_ge u num with hu | hu
    · by_cases h0 : u = 0
      · rw [h0, h.idle]
        exact ⟨rfl, rfl⟩
      by_cases hent : u = l → (s.pc l).abbPos.entering = false
      · rcases hasleep u h0 hu hent with ⟨g, hg⟩ | ⟨g, hg⟩ <;> rw [hg] <;> exact ⟨rfl, rfl⟩
      · obtain ⟨rfl, hent⟩ := Classical.not_imp.mp hent
        cases hx : s.pc u with
        | abb w =>
          rw [hx] at hent
          refine ⟨?_, rfl⟩
          cases w <;> first | rfl | exact absurd rfl hent
        | _ => rw [hx] at hent; exact absurd rfl hent
    · rw [hc.outside u hu]
      exact ⟨rfl, rfl⟩
  have hsleeps : ∀ t, t ≠ 0 → t < num → (t = l → (s.pc l).abbPos.entering = false) →
      s.pc t = .abb (.asleep s.abb.generation) := fun t h0 ht hlt => by
    rcases hasleep t h0 ht hlt with ⟨g, hg⟩ | ⟨g, hg⟩
    · have hcur := hc.abbInv.toBarOk.asleep_current (fun v => (hcalm v).1) (u := t) (s := g)
        (by rw [hg]; rfl)
      rw [hg, hcur]
    · have hcur := hc.abb2Ok.asleep_current (fun v => (hcalm v).2) (u := t) (s := g)
        (by rw [hg]; rfl)
      have hlv := hc.abb2_leaving (by rw [h.idle]; exact fun hp => by cases hp) hg
      simp [hcur, WaitPc.leaving, WaitPc.waking, WaitPc.saved] at hlv
  have hent : (s.pc l).abbPos.entering = true := by
    by_contra hno
    have hlate := h.late
    rw [hsleeps l hl hln fun _ => by simpa using hno] at hlate
    simp [Pc.abbPos, WaitPc.arrived, WaitPc.saved] at hlate
  exact ⟨fun t h0 hlt ht => hsleeps t h0 ht fun e => absurd e hlt, hent⟩

/-- **The workers can be let run** until all of them sleep at `abb`, but for the late one. -/
theorem Lull.settles (h : Lull num l s) (h2 : 2 ≤ num) (hl : l ≠ 0) (hln : l < num) :
    ∃ s', Run num (s.goto 0 .dtorShutdown) (s'.goto 0 .dtorShutdown) ∧ Lull num l s' ∧
      (∀ t, t ≠ 0 → t ≠ l → t < num → s'.pc t = .abb (.asleep s'.abb.generation)) ∧
      (s'.pc l).abbPos.entering = true := by
  induction hk : potential num s.abb.generation s.abb2.generation s.pc using
    Nat.strong_induction_on generalizing s with
  | _ k ih =>
    by_cases hmove : ∃ t s', t ≠ 0 ∧ t < num ∧ (t = l → (s.pc l).abbPos.entering = false) ∧
        s.threadStep num t = some s'
    · obtain ⟨t, s₁, h0, ht, hlt, hs⟩ := hmove
      obtain ⟨h₁, hpot⟩ := h.step h2 h0 ht hlt hs
      obtain ⟨s', hrun, hs'⟩ := ih _ (hk ▸ hpot) h₁ rfl
      exact ⟨s', (Run.thread ht (threadStep_beside (h.inv.core.workers t h0 ht) h0 hs)).trans hrun,
        hs'⟩
    · refine ⟨s, .refl _, h, h.settled hl hln fun t h0 ht hlt => ?_⟩
      by_contra hne
      obtain ⟨s₁, hs₁⟩ := Option.ne_none_iff_exists'.mp hne
      exact hmove ⟨t, s₁, h0, ht, hlt, hs₁⟩

/-! ### The hang -/

/-- Main, past its stores, is at `x`, the late worker `l` is at `y`, `awaited` is `a`, and all the
others sleep at `abb`. -/
structure Hanging (num l : ℕ) (a : U32) (x y : Pc) (s : State) : Prop where
  awaited : s.abb.awaited = a
  total : s.abb.total = 1
  shutdown : s.shutdown = true
  main : s.pc 0 = x
  late : s.pc l = y
  asleep : ∀ t, t ≠ 0 → t ≠ l → t < num → ∃ g, s.pc t = .abb (.asleep g)

variable {a' b b' : U32}

/-- Main takes a step. -/
theorem Hanging.mainGoes (h : Hanging num l b x y s) (hl : l ≠ 0) (h0 : 0 < num) {x' : Pc}
    (hs : s.threadStep num 0 = some s') (hpc : s'.pc = Function.update s.pc 0 x')
    (hb : s'.abb.awaited = b') (htot : s'.abb.total = s.abb.total)
    (hsh : s'.shutdown = s.shutdown) : ∃ s₁, Run num s s₁ ∧ Hanging num l b' x' y s₁ := by
  refine ⟨s', .thread h0 hs, hb, htot.trans h.total, hsh.trans h.shutdown, ?_, ?_, ?_⟩
  · rw [hpc, Function.update_self]
  · rw [hpc, Function.update_of_ne hl, h.late]
  · intro t ht0 htl ht
    rw [hpc, Function.update_of_ne ht0]
    exact h.asleep t ht0 htl ht

/-- The late worker takes a step at `abb`. -/
theorem Hanging.lateGoes (h : Hanging num l b x (.abb w) s) (hl : l ≠ 0) (hln : l < num)
    (hw : w ≠ .wake) (hs : s.abb.step w = some (bar', w')) (htot : bar'.total = s.abb.total) :
    ∃ s₁, Run num s s₁ ∧ Hanging num l bar'.awaited x (.afterAbb w') s₁ := by
  have hstep : s.threadStep num l = some (s.movedAbb l w bar' w') := by
    rw [State.threadStep, h.late]
    exact Option.map_eq_some_iff.mpr ⟨(bar', w'), hs, rfl⟩
  have hpc : (s.movedAbb l w bar' w').pc = Function.update s.pc l (.afterAbb w') :=
    moveAbb_of_ne_wake hw
  refine ⟨_, .thread hln hstep, rfl, htot.trans h.total, h.shutdown, ?_, ?_, ?_⟩
  · rw [hpc, Function.update_of_ne hl.symm, h.main]
  · rw [hpc, Function.update_self]
  · intro t ht0 htl ht
    rw [hpc, Function.update_of_ne htl]
    exact h.asleep t ht0 htl ht

/-- The late worker closes the round, wakes nobody and ends. -/
theorem Hanging.lateEnds (h : Hanging num l b x (.abb .loadTotal) s) (hl : l ≠ 0) (hln : l < num) :
    ∃ b' s', Run num s s' ∧ Hanging num l b' x .exited s' := by
  obtain ⟨s₁, r₁, h₁⟩ := h.lateGoes hl hln (by simp) rfl rfl
  obtain ⟨s₂, r₂, h₂⟩ := h₁.lateGoes hl hln (by simp) rfl rfl
  obtain ⟨s₃, r₃, h₃⟩ := h₂.lateGoes hl hln (by simp) rfl rfl
  obtain ⟨s₄, r₄, h₄⟩ := h₃.lateGoes hl hln (by simp) rfl rfl
  have htest : s₄.abb.step .testTotal = some (s₄.abb, .ret) := by
    rw [AbBarrier.step, h₄.total]
    rfl
  obtain ⟨s₅, r₅, h₅⟩ := h₄.lateGoes hl hln (by simp) htest rfl
  have hend : s₅.threadStep num l = some (s₅.goto l .exited) := by
    rw [State.threadStep, h₅.late]
    exact congrArg some (by rw [h₅.shutdown]; rfl)
  refine ⟨_, _, r₁.trans (r₂.trans (r₃.trans (r₄.trans (r₅.trans (.thread hln hend))))),
    h₅.awaited, h₅.total, h₅.shutdown, ?_, ?_, ?_⟩
  · exact (Function.update_of_ne hl.symm _ _).trans h₅.main
  · exact Function.update_self ..
  · intro t ht0 htl ht
    obtain ⟨g, hg⟩ := h₅.asleep t ht0 htl ht
    exact ⟨g, (Function.update_of_ne htl _ _).trans hg⟩

/-- A run of the destructor in which main has left its loop, the late worker has ended and another
sleeps for good. -/
theorem Hanging.stuck (h : Hanging num l b (.join 1) .exited s) (hl : l ≠ 0) (h3 : 3 ≤ num) :
    ∃ s', Run num s s' ∧ ¬ ShutdownOk num s' := by
  -- main waits for a worker that is not the late one
  obtain ⟨s', k, hrun, hk, hk0, hkl, h'⟩ : ∃ s' k, Run num s s' ∧ k < num ∧ k ≠ 0 ∧ k ≠ l ∧
      Hanging num l b (.join k) .exited s' := by
    by_cases hl1 : l = 1
    · subst hl1
      have hjoin : s.threadStep num 0 = some (s.goto 0 (.join 2)) := by
        rw [State.threadStep, h.main]
        simp only [if_pos (show 1 < num by omega), h.late]
        rfl
      obtain ⟨s', hrun, h'⟩ := h.mainGoes hl (by omega) hjoin rfl h.awaited rfl rfl
      exact ⟨s', 2, hrun, by omega, by decide, by decide, h'⟩
    · exact ⟨s, 1, .refl _, by omega, by decide, Ne.symm hl1, h⟩
  obtain ⟨g, hg⟩ := h'.asleep k hk0 hkl hk
  refine ⟨s', hrun, fun hok => ?_⟩
  have hstuck : Stuck num s' := fun t ht => by
    by_cases h0 : t = 0
    · rw [h0, State.threadStep, h'.main]
      simp only [if_pos hk, hg]
      rfl
    · by_cases htl : t = l
      · rw [htl, State.threadStep, h'.late]
      · obtain ⟨g', hg'⟩ := h'.asleep t h0 htl ht
        rw [State.threadStep, hg']
        rfl
  have hex := (hok.ended hstuck).2 k hk0 hk
  rw [hg] at hex
  cases hex

/-- Main has decremented `awaited` once when the late worker makes it zero. -/
theorem Hanging.hangs {r : U32} (h : Hanging num l 2 (.dtorLoad 0) (.abb (.decrement r)) s)
    (hl : l ≠ 0) (hln : l < num) (h3 : 3 ≤ num) : ∃ s', Run num s s' ∧ ¬ ShutdownOk num s' := by
  have h0 : 0 < num := by omega
  have hload : s.threadStep num 0 =
      some (s.goto 0 (.dtorDecrement 0 (s.abb.generation &&& -BAR_INCR))) := by
    rw [State.threadStep, h.main]
  obtain ⟨s₁, r₁, h₁⟩ := h.mainGoes hl h0 hload rfl h.awaited rfl rfl
  have hdec : s₁.threadStep num 0 =
      some { s₁.goto 0 (.dtorCheck 0) with abb := { s₁.abb with awaited := 1 } } := by
    rw [State.threadStep, h₁.main]
    simp only [h₁.awaited, show (2 : U32) - 1 = 1 from rfl, if_neg (show (1 : U32) ≠ 0 by decide),
      (aligned_and_neg_incr _).and_last, ne_eq, not_true_eq_false, if_false]
  obtain ⟨s₂, r₂, h₂⟩ := h₁.mainGoes hl h0 hdec rfl rfl rfl rfl
  have hcheck : s₂.threadStep num 0 = some (s₂.goto 0 (.dtorLoad 1)) := by
    rw [State.threadStep, h₂.main]
    simp only [h₂.awaited, if_neg (show ¬ BAR_OVERFLOW < (1 : U32) by decide), State.dtorTurn,
      if_pos (show 0 + 1 < num by omega)]
  obtain ⟨s₃, r₃, h₃⟩ := h₂.mainGoes hl h0 hcheck rfl h₂.awaited rfl rfl
  have hload' : s₃.threadStep num 0 =
      some (s₃.goto 0 (.dtorDecrement 1 (s₃.abb.generation &&& -BAR_INCR))) := by
    rw [State.threadStep, h₃.main]
  obtain ⟨s₄, r₄, h₄⟩ := h₃.mainGoes hl h0 hload' rfl h₃.awaited rfl rfl
  -- the late worker is last
  have harrive : s₄.abb.step (.decrement r) =
      some ({ s₄.abb with awaited := 0 }, .loadTotal) := by
    simp only [AbBarrier.step, h₄.awaited, show (1 : U32) - 1 = 0 from rfl, if_true,
      waitEnd_or_last]
  obtain ⟨s₅, r₅, h₅⟩ := h₄.lateGoes hl hln (by simp) harrive rfl
  -- main decrements again
  have hdec' : s₅.threadStep num 0 =
      some { s₅.goto 0 (.dtorCheck 1) with abb := { s₅.abb with awaited := -1 } } := by
    rw [State.threadStep, h₅.main]
    simp only [h₅.awaited, show (0 : U32) - 1 = -1 from rfl,
      if_neg (show (-1 : U32) ≠ 0 by decide), (aligned_and_neg_incr _).and_last, ne_eq,
      not_true_eq_false, if_false]
  obtain ⟨s₆, r₆, h₆⟩ := h₅.mainGoes hl h0 hdec' rfl rfl rfl rfl
  have hover : s₆.threadStep num 0 = some (s₆.goto 0 (.join 1)) := by
    rw [State.threadStep, h₆.main]
    simp only [h₆.awaited, if_pos (show BAR_OVERFLOW < (-1 : U32) by decide)]
  obtain ⟨s₇, r₇, h₇⟩ := h₆.mainGoes hl h0 hover rfl h₆.awaited rfl rfl
  obtain ⟨b', s₈, r₈, h₈⟩ := h₇.lateEnds hl hln
  obtain ⟨s₉, r₉, h₉⟩ := h₈.stuck hl h3
  exact ⟨s₉, r₁.trans (r₂.trans (r₃.trans (r₄.trans (r₅.trans (r₆.trans (r₇.trans
    (r₈.trans r₉))))))), h₉⟩

/-- **With a worker still to arrive and another one beside it, the destructor can hang.** -/
theorem GangInv.hangs (h : GangInv num s) (h3 : 3 ≤ num) (hpc : s.pc 0 = .idle)
    (ha : s.abb.awaited ≠ 1) :
    ∃ as s', exec (Gang.step num) s (.destroy :: as) = some s' ∧ ¬ ShutdownOk num s' := by
  have h2 : 2 ≤ num := by omega
  obtain ⟨l, hl, hln, hlate⟩ : ∃ l, l ≠ 0 ∧ l < num ∧
      (s.pc l).abbPos.arrived s.abb.generation = false := by
    by_contra hno
    refine ha ((h.awaited_eq_one h2 hpc).mpr fun t h0 ht => ?_)
    by_contra harr
    exact hno ⟨t, h0, ht, by simpa using harr⟩
  obtain ⟨s₁, r₁, h₁, hasleep, hent⟩ := Lull.settles ⟨h, hpc, hlate⟩ h2 hl hln
  -- main and the late worker are missing
  have hmiss : missing num s₁ = {0, l} := by
    ext t
    rw [mem_missing, Finset.mem_insert, Finset.mem_singleton]
    constructor
    · rintro ⟨ht, hno⟩
      by_contra hor
      rw [not_or] at hor
      rw [hasleep t hor.1 hor.2 ht] at hno
      simp [Pc.abbPos, WaitPc.arrived, WaitPc.saved] at hno
    · rintro (rfl | rfl)
      · exact ⟨by omega, by rw [h₁.idle]; rfl⟩
      · exact ⟨hln, h₁.late⟩
  have hawaited : s₁.abb.awaited = 2 := by
    refine BitVec.eq_of_toNat_eq ((h₁.inv.awaited_eq h2 h₁.idle).trans ?_)
    rw [hmiss, Finset.card_pair (Ne.symm hl)]
    rfl
  -- main stores `shutdown` and `total`
  obtain ⟨s₂, r₂, h₂⟩ : ∃ s₂, Run num (s₁.goto 0 .dtorShutdown) s₂ ∧
      Hanging num l 2 (.dtorLoad 0) (s₁.pc l) s₂ := by
    have h0 : 0 < num := by omega
    have hsh : (s₁.goto 0 .dtorShutdown).threadStep num 0 =
        some { s₁.goto 0 .dtorTotal with shutdown := true } := by
      rw [State.threadStep, State.pc_goto]
      simp only [State.goto_goto]
    have htot : ({ s₁.goto 0 .dtorTotal with shutdown := true } : State).threadStep num 0 =
        some { s₁.goto 0 (.dtorLoad 0) with
          shutdown := true, abb := { s₁.abb with total := 1 } } := by
      rw [State.threadStep, show ({ s₁.goto 0 .dtorTotal with shutdown := true } : State).pc 0 =
        .dtorTotal from State.pc_goto s₁ 0 .dtorTotal]
      simp only [State.dtorTurn, if_pos h0, State.goto, Function.update_idem]
    refine ⟨_, (Run.thread h0 hsh).trans (.thread h0 htot), hawaited, rfl, rfl,
      State.pc_goto s₁ 0 (.dtorLoad 0), Function.update_of_ne hl _ _, fun t ht0 htl ht => ?_⟩
    exact ⟨_, (Function.update_of_ne ht0 _ _).trans (hasleep t ht0 htl ht)⟩
  have hend : ∃ s', Run num s₂ s' ∧ ¬ ShutdownOk num s' := by
    cases hx : s₁.pc l with
    | abb w =>
      rw [hx] at hent h₂
      cases w with
      | start =>
        obtain ⟨s₃, r₃, h₃⟩ := h₂.lateGoes hl hln (by simp) rfl rfl
        rw [h₂.awaited] at h₃
        obtain ⟨s', r', h'⟩ := h₃.hangs hl hln h3
        exact ⟨s', r₃.trans r', h'⟩
      | decrement r => exact h₂.hangs hl hln h3
      | _ => cases hent
    | _ => rw [hx] at hent; cases hent
  obtain ⟨s', r', h'⟩ := hend
  obtain ⟨as, -, hexec⟩ := r₁.trans (r₂.trans r')
  refine ⟨as, s', ?_, h'⟩
  rw [exec, Gang.step, if_pos (State.isIdle_iff.mpr hpc)]
  exact hexec

/-! ### When it ends -/

/-- **The destructor ends, whatever the threads do, exactly when there is only one worker or all of
them have arrived at `abb`** by the time it is called: no state is reached then in which no thread
can take a step and a worker has not been joined, nor one in which a worker waits and nobody is
left to release it. -/
theorem shutdown_ends_iff (h2 : 2 ≤ num) (hn : num ≤ 10000000)
    (h : (system num flag).Reach Unwrapped s) (hidle : s.isIdle = true) :
    (∀ as s', exec (step num) s (.destroy :: as) = some s' → ShutdownOk num s') ↔
      num = 2 ∨ s.abb.awaited = 1 := by
  have hpc := State.isIdle_iff.mp hidle
  have hhonest := honest_reach_of_unwrapped h2 hn h
  have hI := gangInv_reach h2 hn hhonest
  constructor
  · intro hok
    by_contra hno
    rw [not_or] at hno
    obtain ⟨as, s', hs, hbad⟩ := hI.hangs (by omega) hpc hno.2
    exact hbad (hok as s' hs)
  · intro hcase as s' hs
    rw [exec, step, if_pos hidle] at hs
    have hD : DtorInv num (s.goto 0 .dtorShutdown) := by
      refine hI.destroyed h2 hpc (hcase.imp_left fun h2 => ?_)
      subst h2
      exact ⟨rfl, caughtUp_reach hhonest⟩
    exact (hD.exec h2 hs).shutdownOk h2

end Shutdown

section Three

/-- Both workers of three arrive. -/
def arrivingRun : List Act := List.replicate 2 (.thread 1) ++ List.replicate 2 (.thread 2)

/-- The destructor: main closes the round, the workers leave their loop and are joined. -/
def endingRun : List Act :=
  List.replicate 9 (.thread 0) ++ List.replicate 4 (.thread 1) ++ List.replicate 4 (.thread 2) ++
    List.replicate 3 (.thread 0)

/-- A gang of three whose workers have arrived is destroyed, and main comes to the end. -/
theorem shutdown_ends_iff_three : ∃ s s', (system 3 0).Reach Unwrapped s ∧
    exec (step 3) s (.destroy :: endingRun) = some s' ∧ s'.pc 0 = .done ∧ ShutdownOk 3 s' := by
  obtain ⟨s, hs, hp⟩ := (Option.any_eq_true _ _).mp (by decide :
    (exec (step 3) (start 3 0) arrivingRun).any (fun s => s.isIdle && s.abb.awaited == 1 &&
      (exec (step 3) s (.destroy :: endingRun)).any fun s' =>
        match s'.pc 0 with
        | .done => true
        | _ => false) = true)
  simp only [Bool.and_eq_true, beq_iff_eq] at hp
  obtain ⟨⟨hidle, ha⟩, hend⟩ := hp
  obtain ⟨s', hs', hdone⟩ := (Option.any_eq_true _ _).mp hend
  have hr : (system 3 0).Reach Unwrapped s := by
    refine Lts.Reach.exec (fun _ _ _ h => h) (.init rfl) (fun s a ha => ?_) hs
    have hne : a ≠ .destroy ∧ a ≠ .thread 0 := by
      simp only [arrivingRun, List.replicate, List.cons_append, List.nil_append, List.mem_cons,
        List.not_mem_nil, or_false] at ha
      rcases ha with rfl | rfl | rfl | rfl <;> simp
    exact ⟨hne.1, fun _ _ _ h0 => absurd h0 hne.2⟩
  refine ⟨s, s', hr, hs', ?_, (shutdown_ends_iff (by decide) (by decide) hr hidle).mpr (.inr ha) _ _
    hs'⟩
  cases hpc : s'.pc 0 <;> rw [hpc] at hdone <;> first | rfl | cases hdone

/-- The destructor's steps to where nobody can take one: main has decremented `awaited` once when
worker `2` makes it zero, and makes it overflow. -/
def hangingRun : List Act :=
  .destroy :: List.replicate 6 (.thread 0) ++ List.replicate 2 (.thread 2) ++
    List.replicate 2 (.thread 0) ++ List.replicate 6 (.thread 2)

/-- **The destructor hangs**: worker `1` of three sleeps at `abb`, and the late worker `2`, who
closes the round, finds `total` to be one and wakes nobody, when main has left its loop. -/
theorem shutdown_hangs : ∃ s s', (system 3 0).Reach Unwrapped s ∧ s.pc 0 = .idle ∧
    s.pc 1 = .abb (.asleep 0) ∧ s.pc 2 = .abb .start ∧
    exec (step 3) s hangingRun = some s' ∧ ¬ ShutdownOk 3 s' := by
  -- worker `1` arrives and falls asleep
  have h1 : (start 3 0).abb.runs .start (2 + (abSpinCountVar + 2)) =
      some ({ (start 3 0).abb with awaited := 2 }, .asleep 0) := by
    rw [AbBarrier.runs_add 2 _ (AbBarrier.runs_arrive aligned_zero (by decide))]
    exact AbBarrier.runs_sleep rfl (by decide)
  have hr : (system 3 0).Reach (fun _ a => a ≠ .destroy)
      ((start 3 0).setAbb 1 { (start 3 0).abb with awaited := 2 } (.asleep 0)) := by
    refine (run_abb (w := .start) (by decide) rfl (by simp) (fun u _ g => ?_) h1).reach (.init rfl)
    simp only [start]
    split_ifs <;> simp
  obtain ⟨s', hs', hp⟩ := (Option.any_eq_true _ _).mp (by decide : (exec (step 3)
    ((start 3 0).setAbb 1 { (start 3 0).abb with awaited := 2 } (.asleep 0)) hangingRun).any
      (fun s => !(s.pc 1).isExited && (s.threadStep 3 0).isNone && (s.threadStep 3 1).isNone &&
        (s.threadStep 3 2).isNone) = true)
  simp only [Bool.and_eq_true, Bool.not_eq_true', Option.isNone_iff_eq_none] at hp
  obtain ⟨⟨⟨h1, hn0⟩, hn1⟩, hn2⟩ := hp
  refine ⟨_, s', unwrapped_reach (by decide) (by decide) hr (by unfold NotWrapped; decide), rfl,
    rfl, rfl, hs', fun hok => ?_⟩
  have hstuck : Stuck 3 s' := by
    intro t ht
    obtain rfl | rfl | rfl : t = 0 ∨ t = 1 ∨ t = 2 := by omega
    · exact hn0
    · exact hn1
    · exact hn2
  rw [(hok.ended hstuck).2 1 (by decide) (by decide)] at h1
  cases h1

end Three

end NetworkDemo.Gang
