import NetworkDemo.Gang.Invariant

/-!
# The record of a run

What the record of a run (`history`, `passed` and `log`) says about where the
threads are. A gang has *entered* the rounds published, less the one whose
`abb` has not advanced; each thread has come out of `abb` as often, or is about
to; and a call of `tasks->run` is in the log once the thread is past its entry.

`Recorded` is kept by every step of a gang whose invariant holds and whose rounds
have fewer than 256 parts.
-/

namespace NetworkDemo.Gang

open Foundations Sync

/-! ### The invariant -/

/-- In `tasks->run`, or past it and not yet out of the round. -/
def Pc.hasRun : Pc → Bool
  | .inTasks | .abb2 _ => true
  | _ => false

/-- How often a thread has called `tasks->run` in the latest round, if it takes part. -/
def callsDue : Phase → Pc → ℕ
  | .published, _ => 0
  | .running, x => if x.hasRun then 1 else 0
  | .over, _ => 1

namespace State

/-- How many rounds the threads have entered: those published, unless `abb` is still to advance. -/
def entered (s : State) : ℕ :=
  if s.phase = .published then s.history.length - 1 else s.history.length

/-- Whether thread `t` is leaving `abb`, as a number. -/
def leavingAbb (s : State) (t : ℕ) : ℕ := if (s.pc t).abbPos.leaving s.abb.generation then 1 else 0

/-- How often thread `id` has called `tasks->run` in a round. -/
def calls (s : State) (round id : ℕ) : ℕ := s.log.countP fun e => e.round = round ∧ e.id = id

end State

/-- **The record is true.** -/
structure Recorded (num : ℕ) (s : State) : Prop where
  /-- Each round entered has advanced the generation. -/
  gen : s.abb.generation.toNat = 512 * s.entered % 4294967296
  /-- Each thread has come out of `abb` once for each round entered, or is about to. -/
  passed : ∀ t < num, s.passed t + s.leavingAbb t = s.entered
  /-- A round that is not over is the latest published. -/
  current : s.phase ≠ .over → s.history.getLast? = some (s.flag.toNat % 256, s.tasks)
  sizes : ∀ p ∈ s.history, 2 ≤ p.1 ∧ p.1 ≤ num
  /-- A call is of a round published, on its object and of one of its parts. -/
  events : ∀ e ∈ s.log, ∃ n, 1 ≤ e.round ∧ s.history[e.round - 1]? = some (n, e.obj) ∧ e.id < n
  /-- Each part of a round is called once; in the latest, by its threads that are past the entry. -/
  counts : ∀ k n obj, s.history[k]? = some (n, obj) → ∀ id < n,
    s.calls (k + 1) id = if k + 1 = s.history.length then callsDue s.phase (s.pc id) else 1

section Record

variable {num : ℕ} {flag : U32} {s s' : State} {t : ℕ} {x : Pc}

@[simp] theorem hasRun_othersAbb {w : WaitPc} : (x.othersAbb w).hasRun = x.hasRun := by
  cases x <;> rfl

@[simp] theorem hasRun_othersAbb2 {w : WaitPc} : (x.othersAbb2 w).hasRun = x.hasRun := by
  cases x <;> rfl

theorem recorded_start (num : ℕ) (flag : U32) : Recorded num (start num flag) where
  gen := by simp [start, abBarrierInit, State.entered]
  passed t ht := by
    simp only [start, State.leavingAbb, State.entered, List.length_nil]
    split_ifs <;> simp_all [Pc.abbPos, WaitPc.leaving, WaitPc.waking, WaitPc.saved]
  current h := absurd rfl h
  sizes p hp := by cases hp
  events e he := by cases he
  counts k n obj h := by simp [start] at h

/-- A step that publishes nothing, calls nothing and stays in the phase. -/
theorem Recorded.quiet (h : Recorded num s) (hh : s'.history = s.history) (hl : s'.log = s.log)
    (hg : s'.abb.generation = s.abb.generation) (hp : s'.phase = s.phase)
    (hf : s.phase ≠ .over → s'.flag = s.flag ∧ s'.tasks = s.tasks)
    (hpass : ∀ t < num, s'.passed t + s'.leavingAbb t = s.passed t + s.leavingAbb t)
    (hrun : s.phase = .running → ∀ t, (s'.pc t).hasRun = (s.pc t).hasRun) : Recorded num s' := by
  have he : s'.entered = s.entered := by unfold State.entered; rw [hp, hh]
  refine
    { gen := by rw [hg, he]; exact h.gen
      passed := fun t ht => by rw [he, hpass t ht]; exact h.passed t ht
      current := fun hc => ?_
      sizes := by rw [hh]; exact h.sizes
      events := by rw [hh, hl]; exact h.events
      counts := fun k n obj hk id hid => ?_ }
  · rw [hp] at hc
    rw [hh, (hf hc).1, (hf hc).2]
    exact h.current hc
  · rw [hh] at hk ⊢
    have hdue : callsDue s'.phase (s'.pc id) = callsDue s.phase (s.pc id) := by
      rw [hp]
      cases hph : s.phase <;> simp only [callsDue]
      rw [hrun hph id]
    rw [hdue, ← h.counts k n obj hk id hid]
    unfold State.calls
    rw [hl]

theorem leavingAbb_of_outside (h : (s.pc t).abbPos = .ret ∨ (s.pc t).abbPos = .start) :
    s.leavingAbb t = 0 := by
  unfold State.leavingAbb
  rcases h with h | h <;> rw [h] <;> simp [WaitPc.leaving, WaitPc.waking, WaitPc.saved]

/-- A thread outside `abb` moves. -/
theorem Recorded.goto (h : Recorded num s) (ht : (s.pc t).abbPos = .ret)
    (hx : x.abbPos = .ret ∨ x.abbPos = .start) (hp : (s.goto t x).phase = s.phase)
    (hr : s.phase = .running → x.hasRun = (s.pc t).hasRun) : Recorded num (s.goto t x) := by
  refine h.quiet rfl rfl rfl hp (fun _ => ⟨rfl, rfl⟩) (fun u _ => ?_) fun hph u => ?_
  · by_cases hu : u = t
    · rw [hu, leavingAbb_of_outside (.inl ht), leavingAbb_of_outside (s := s.goto t x)
        (by simpa [State.goto] using hx)]
      rfl
    · simp [State.goto, State.leavingAbb, Function.update_of_ne hu]
  · by_cases hu : u = t
    · rw [hu]
      simpa [State.goto] using hr hph
    · simp [State.goto, Function.update_of_ne hu]

theorem phase_goto_worker (h0 : t ≠ 0) : (s.goto t x).phase = s.phase := by
  simp [State.phase, State.goto, Function.update_of_ne h0.symm]

theorem phase_goto_main : (s.goto 0 x).phase = phaseOf s.abb.generation s.abb2.generation x := by
  simp [State.phase, State.goto]

/-- A published round that is not over is one of fewer than 256 parts, and its flag says so. -/
theorem GangInv.count_eq (h : GangInv num s) (hn : num ≤ 255) (hp : s.phase ≠ .over) :
    ∃ g, 2 ≤ s.flag.toNat % 256 ∧
    s.flag.toNat % 256 ≤ num ∧ s.flag = reinitFlag g (s.flag.toNat % 256) ∧
    roundGen s.phase s.abb.generation = g + BAR_INCR ∧
    ((s.pc 0).setsUp = false → s.abb2.total.toNat = s.flag.toNat % 256) := by
  obtain ⟨n, g, h2, hle, hf, hg, ht⟩ := h.core.round hp
  have hm : s.flag.toNat % 256 = n := by
    rw [hf, toNat_reinitFlag_count]
    exact Nat.mod_eq_of_lt (by omega)
  rw [hm]
  exact ⟨g, h2, hle, hf, hg, ht⟩

/-- Who takes part in a running round. -/
theorem GangInv.takesPart_running (h : GangInv num s) (hn : num ≤ 255)
    (hp : s.phase = .running) (id : ℕ) :
    takesPart s.abb.generation s.flag id = true ↔ id < s.flag.toNat % 256 := by
  obtain ⟨g, -, hle, hf, hg, -⟩ := h.count_eq hn (by rw [hp]; decide)
  rw [hp] at hg
  rw [show s.abb.generation = g + BAR_INCR from hg]
  conv_lhs => rw [hf]
  exact takesPart_own (by omega)

/-! ### Steps in the barriers -/

theorem leavingAbb_movedAbb_of_ne {w w' : WaitPc} {bar : AbBarrier} {u : ℕ} (hu : u ≠ t) :
    (s.movedAbb t w bar w').leavingAbb u =
      if (s.pc u).abbPos.leaving bar.generation then 1 else 0 := by
  simp [State.leavingAbb, State.movedAbb, moveAbb_of_ne hu]

theorem passed_movedAbb_of_ne {w w' : WaitPc} {bar : AbBarrier} {u : ℕ} (hu : u ≠ t) :
    (s.movedAbb t w bar w').passed u = s.passed u := by
  cases w' <;> first | rfl | exact Function.update_of_ne hu _ _

theorem Recorded.movedAbb (h : Recorded num s) (hI : GangInv num s) (h2 : 2 ≤ num) {w w' : WaitPc}
    {bar : AbBarrier} (htn : t < num) (ht : s.pc t = .abb w) (hs : s.abb.step w = some (bar, w')) :
    Recorded num (s.movedAbb t w bar w') := by
  rcases (hI.core.abbStep h2 htn ht hs).2 with ⟨hg, hst, hph⟩ | ⟨hg, rfl, hp, hp', hall⟩
  · refine h.quiet rfl rfl hg hph (fun _ => ⟨rfl, rfl⟩) (fun u _ => ?_) fun _ u => ?_
    · by_cases hu : u = t
      · -- it comes out of `abb`, or it goes on and is leaving as before
        subst hu
        have hold : s.leavingAbb u = if w.leaving s.abb.generation then 1 else 0 := by
          simp [State.leavingAbb, ht, Pc.abbPos]
        have hnew : (s.movedAbb u w bar w').leavingAbb u = if w'.leaving s.abb.generation then 1
            else 0 := by
          simp [State.leavingAbb, State.movedAbb, moveAbb_self, abbPos_afterAbb, hg]
        rw [hold, hnew]
        rcases hst with ⟨hr, hl⟩ | ⟨rfl, hl⟩
        · rw [hl]
          cases w' <;> first | rfl | cases hr
        · simp [State.movedAbb, countPassed, hl]
      · rw [leavingAbb_movedAbb_of_ne hu, passed_movedAbb_of_ne hu, hg]
        rfl
    · show (moveAbb s.pc t w w' u).hasRun = _
      by_cases hu : u = t
      · rw [hu, moveAbb_self, ht]
        cases w' <;> rfl
      · rw [moveAbb_of_ne hu, hasRun_othersAbb]
  · -- `abb` advances: the latest round is entered
    have hp : s.phase = .published := hp
    have hcur := h.current (by rw [hp]; decide)
    have hlen : 1 ≤ s.history.length := by
      have : s.history ≠ [] := fun hnil => by rw [hnil] at hcur; cases hcur
      exact List.length_pos_iff.mpr this
    have hp' : (s.movedAbb t w bar .testTotal).phase = .running := hp'
    have he : s.entered = s.history.length - 1 := if_pos hp
    have he' : (s.movedAbb t w bar .testTotal).entered = s.history.length := by
      unfold State.entered
      rw [if_neg (by rw [hp']; decide)]
      rfl
    refine
      { gen := ?_
        passed := fun u hu => ?_
        current := fun _ => hcur
        sizes := h.sizes
        events := h.events
        counts := fun k n obj hk id hid => ?_ }
    · have := h.gen
      rw [he', show (s.movedAbb t w bar .testTotal).abb.generation =
        s.abb.generation + BAR_INCR from hg, toNat_add_incr, this, he]
      omega
    · obtain ⟨h1, h2⟩ := hall u hu
      have hold := h.passed u hu
      rw [he, State.leavingAbb, if_neg fun hl => by
        rw [(WaitPc.leaving_not_arrived hl).1] at h1
        cases h1] at hold
      have hnew : (s.movedAbb t w bar .testTotal).leavingAbb u = 1 := if_pos h2
      rw [he', hnew]
      show s.passed u + 1 = _
      omega
    · have hold := h.counts k n obj hk id hid
      rw [hp] at hold
      rw [hp']
      show s.calls (k + 1) id = if k + 1 = s.history.length then _ else 1
      rw [hold]
      split_ifs with hk1
      · -- the parts are those of the threads, and these are all at `abb`
        obtain ⟨hin, -⟩ := List.getElem?_eq_some_iff.mp hk
        have hidn : id < num := lt_of_lt_of_le hid (h.sizes _ (List.mem_of_getElem? hk)).2
        have he := (eq_abb_of_leaving (hall id hidn).2).1
        show 0 = callsDue .running (moveAbb s.pc t w .testTotal id)
        rw [he]
        rfl
      · rfl

/-- In a running round nobody is leaving `abb2`. -/
theorem Core.abb2_not_leaving {abb abb2 : AbBarrier} {flag : U32} {pc : ℕ → Pc}
    (h : Core num abb abb2 flag pc) (hp : phaseOf abb.generation abb2.generation (pc 0) = .running)
    {u : ℕ} {w : WaitPc} (hu : pc u = .abb2 w) :
    w.leaving abb2.generation = false := by
  by_contra hl
  have hl : w.leaving abb2.generation = true := by simpa using hl
  have hmem := Finset.mem_filter.mp (h.abb2_takesPart hp hu)
  by_cases h0 : u = 0
  · rw [← h0, hu, show phaseOf abb.generation abb2.generation (.abb2 w) = .over from if_pos hl]
      at hp
    cases hp
  · have hok := h.workers u h0 (Finset.mem_range.mp hmem.1)
    rw [hu] at hok
    have h2 := hok.2
    rw [if_pos hl] at h2
    exact h2 hp

theorem abbPos_back : (Pc.back t).abbPos = .ret ∨ (Pc.back t).abbPos = .start := by
  unfold Pc.back
  split
  · exact .inl rfl
  · exact .inr rfl

theorem leavingAbb_movedAbb2 {w w' : WaitPc} {bar : AbBarrier} (ht : s.pc t = .abb2 w) (u : ℕ) :
    (s.movedAbb2 t w bar w').leavingAbb u = s.leavingAbb u := by
  by_cases hu : u = t
  · have hret : s.leavingAbb t = 0 := leavingAbb_of_outside (.inl (by rw [ht]; rfl))
    rw [hu, hret]
    refine leavingAbb_of_outside ?_
    show (moveAbb2 s.pc t w w' t).abbPos = _ ∨ (moveAbb2 s.pc t w w' t).abbPos = _
    rw [moveAbb2_self]
    cases w' <;> first | exact .inl rfl | exact abbPos_back
  · simp [State.leavingAbb, State.movedAbb2, moveAbb2_of_ne hu]

theorem Recorded.movedAbb2 (h : Recorded num s) (hI : GangInv num s) (hn : num ≤ 255)
    {w w' : WaitPc} {bar : AbBarrier} (htn : t < num) (ht : s.pc t = .abb2 w)
    (hs : s.abb2.step w = some (bar, w')) :
    Recorded num (s.movedAbb2 t w bar w') := by
  rcases (hI.core.abb2Step htn ht hs).2 with ⟨hst, hph⟩ | ⟨rfl, hp, hp', hall⟩
  · refine h.quiet rfl rfl rfl hph (fun _ => ⟨rfl, rfl⟩)
      (fun u _ => by rw [leavingAbb_movedAbb2 ht]; rfl)
      fun hp u => ?_
    show (moveAbb2 s.pc t w w' u).hasRun = _
    by_cases hu : u = t
    · rw [hu, moveAbb2_self, ht]
      have hnl := hI.core.abb2_not_leaving hp ht
      rcases hst with ⟨hr, -⟩ | ⟨-, hl⟩
      · rw [afterAbb2_of_inCall hr]
        rfl
      · rw [hnl] at hl
        cases hl
    · rw [moveAbb2_of_ne hu, hasRun_othersAbb2]
  · -- `abb2` advances: every part has been called
    have hp : s.phase = .running := hp
    have hp' : (s.movedAbb2 t w bar .testTotal).phase = .over := hp'
    have he : (s.movedAbb2 t w bar .testTotal).entered = s.entered := by
      unfold State.entered
      rw [hp, hp']
      rfl
    refine
      { gen := by rw [he]; exact h.gen
        passed := fun u hu => by rw [he, leavingAbb_movedAbb2 ht]; exact h.passed u hu
        current := fun hc => absurd hp' hc
        sizes := h.sizes
        events := h.events
        counts := fun k n obj hk id hid => ?_ }
    have hold := h.counts k n obj hk id hid
    show s.calls (k + 1) id = if k + 1 = s.history.length then _ else 1
    rw [hold, hp, hp']
    split_ifs with hk1
    · have hlast := h.current (by rw [hp]; decide)
      rw [List.getLast?_eq_getElem?, ← hk1, Nat.add_sub_cancel] at hlast
      have hk : s.history[k]? = some (n, obj) := hk
      rw [hk] at hlast
      obtain ⟨rfl, rfl⟩ := Prod.mk.inj (Option.some.inj hlast)
      have hmem : id ∈ participants num s.abb.generation s.flag := Finset.mem_filter.mpr
        ⟨Finset.mem_range.mpr (lt_of_lt_of_le hid (h.sizes _ (List.mem_of_getElem? hk)).2),
          (hI.takesPart_running hn hp id).mpr hid⟩
      obtain ⟨p, hpc⟩ := hall id hmem
      show callsDue .running (s.pc id) = 1
      rw [hpc]
      rfl
    · rfl

/-! ### Calling and publishing -/

theorem calls_append (s : State) (e : RunEvent) (round id : ℕ) :
    (s.log ++ [e]).countP (fun e => e.round = round ∧ e.id = id) =
      s.calls round id + if e.round = round ∧ e.id = id then 1 else 0 := by
  rw [List.countP_append, List.countP_singleton]
  simp [State.calls]

/-- Who calls `tasks->run`, or is in it, is in the latest round, and takes part. -/
theorem Recorded.atCall (h : Recorded num s) (hI : GangInv num s) (hn : num ≤ 255) (htn : t < num)
    (ht : s.pc t = .callTasks ∨ s.pc t = .inTasks) :
    s.phase = .running ∧ s.passed t = s.history.length ∧
      s.history[s.history.length - 1]? = some (s.flag.toNat % 256, s.tasks) ∧
        t < s.flag.toNat % 256 := by
  have hrun : s.phase = .running ∧ takesPart s.abb.generation s.flag t = true := by
    by_cases h0 : t = 0
    · have hm := hI.core.main
      subst h0
      rcases ht with ht | ht <;> rw [ht] at hm <;> exact ⟨by rw [State.phase, ht]; rfl, hm⟩
    · have hw := hI.core.workers t h0 htn
      rcases ht with ht | ht <;> rw [ht] at hw <;> exact hw
  obtain ⟨hp, htake⟩ := hrun
  refine ⟨hp, ?_, ?_, (hI.takesPart_running hn hp t).mp htake⟩
  · have hent : s.entered = s.history.length := if_neg (by rw [hp]; decide)
    have := h.passed t htn
    rwa [leavingAbb_of_outside (.inl (by rcases ht with ht | ht <;> rw [ht] <;> rfl)), hent,
      Nat.add_zero] at this
  · rw [← List.getLast?_eq_getElem?]
    exact h.current (by rw [hp]; decide)

theorem Recorded.called (h : Recorded num s) (hI : GangInv num s) (hn : num ≤ 255) (htn : t < num)
    (ht : s.pc t = .callTasks) : Recorded num (s.called t) := by
  obtain ⟨hp, hpass, hlast, hid⟩ := h.atCall hI hn htn (.inl ht)
  have hlen : 1 ≤ s.history.length := by
    obtain ⟨hlt, -⟩ := List.getElem?_eq_some_iff.mp hlast
    omega
  have hp' : (s.called t).phase = .running := by
    rw [← hp]
    by_cases h0 : t = 0
    · subst h0
      refine (phase_goto_main (s := s) (x := .inTasks)).trans ?_
      rw [hp]
      rfl
    · exact phase_goto_worker (s := s) (x := .inTasks) h0
  have hent : (s.called t).entered = s.entered := by
    unfold State.entered
    rw [hp, hp']
    rfl
  have hpc : ∀ u, u ≠ t → (s.called t).pc u = s.pc u := fun u hu => Function.update_of_ne hu _ _
  have hpct : (s.called t).pc t = .inTasks := Function.update_self ..
  refine
    { gen := by rw [hent]; exact h.gen
      passed := fun u hu => ?_
      current := fun _ => h.current (by rw [hp]; decide)
      sizes := h.sizes
      events := fun e he => ?_
      counts := fun k n obj hk id hidn => ?_ }
  · rw [hent, ← h.passed u hu]
    by_cases hut : u = t
    · rw [hut, leavingAbb_of_outside (s := s) (.inl (by rw [ht]; rfl)),
        leavingAbb_of_outside (s := s.called t) (.inl (by rw [hpct]; rfl))]
      rfl
    · unfold State.leavingAbb
      rw [hpc u hut]
      rfl
  · rcases List.mem_append.mp he with he | he
    · exact h.events e he
    · rw [List.mem_singleton] at he
      subst he
      exact ⟨_, by show 1 ≤ s.passed t; omega, by rw [hpass]; exact hlast, hid⟩
  · have hold := h.counts k n obj hk id hidn
    show (s.log ++ [_]).countP _ = if k + 1 = s.history.length then _ else 1
    rw [calls_append, hold, hp, hp', hpass]
    by_cases hk1 : k + 1 = s.history.length
    · by_cases hit : id = t
      · rw [hit, hpct, ht]
        simp [hk1, callsDue, Pc.hasRun]
      · rw [hpc id hit]
        simp [hk1, Ne.symm hit]
    · simp [hk1, Ne.symm hk1]

theorem Recorded.published (h : Recorded num s) (hI : GangInv num s) (hn : num ≤ 255)
    {n : ℕ} {f : U32} (ht : s.pc 0 = .storeFlag n f) : Recorded num (s.published n f) := by
  have hm := hI.core.main
  rw [ht] at hm
  obtain ⟨hn2, hle, hf⟩ := hm
  have hp : s.phase = .over := by rw [State.phase, ht]; rfl
  have hp' : (s.published n f).phase = .published := by
    simp [State.phase, State.published, State.goto, phaseOf]
  have hlen : (s.published n f).history.length = s.history.length + 1 := by simp [State.published]
  have hent : (s.published n f).entered = s.entered := by
    unfold State.entered
    rw [hp, hp', hlen]
    rfl
  have hpc : ∀ u, u ≠ 0 → (s.published n f).pc u = s.pc u :=
    fun u hu => Function.update_of_ne hu _ _
  have hpct : (s.published n f).pc 0 = .storeTotal n := by simp [State.published, State.goto]
  -- the rounds before are as they were
  have hget : ∀ (k : ℕ) (p : ℕ × ℕ), s.history[k]? = some p →
      (s.published n f).history[k]? = some p := by
    intro k p hk
    obtain ⟨hlt, -⟩ := List.getElem?_eq_some_iff.mp hk
    exact (List.getElem?_append_left hlt).trans hk
  refine
    { gen := by rw [hent]; exact h.gen
      passed := fun u hu => ?_
      current := fun _ => ?_
      sizes := fun p hmem => ?_
      events := fun e he => ?_
      counts := fun k m obj hk id hidm => ?_ }
  · rw [hent, ← h.passed u hu]
    by_cases hu0 : u = 0
    · rw [hu0, leavingAbb_of_outside (s := s) (.inl (by rw [ht]; rfl)),
        leavingAbb_of_outside (s := s.published n f) (.inl (by rw [hpct]; rfl))]
      rfl
    · unfold State.leavingAbb
      rw [hpc u hu0]
      rfl
  · have hcount : f.toNat % 256 = n := by
      rw [hf, toNat_reinitFlag_count]
      exact Nat.mod_eq_of_lt (by omega)
    show (s.history ++ [(n, s.tasks)]).getLast? = some (f.toNat % 256, s.tasks)
    rw [hcount, List.getLast?_concat]
  · rcases List.mem_append.mp hmem with hmem | hmem
    · exact h.sizes p hmem
    · rw [List.mem_singleton.mp hmem]
      exact ⟨hn2, hle⟩
  · obtain ⟨m, h1, h2, h3⟩ := h.events e he
    exact ⟨m, h1, hget _ _ h2, h3⟩
  · rw [hlen, hp']
    rcases Nat.lt_or_ge k s.history.length with hk1 | hk1
    · have hk' : s.history[k]? = some (m, obj) := (List.getElem?_append_left hk1).symm.trans hk
      have hold := h.counts k m obj hk' id hidm
      rw [hp] at hold
      rw [if_neg (by omega)]
      show s.calls (k + 1) id = 1
      rw [hold]
      split_ifs <;> rfl
    · obtain ⟨hk2, -⟩ := List.getElem?_eq_some_iff.mp hk
      rw [hlen] at hk2
      have hk3 : k = s.history.length := by omega
      rw [if_pos (by omega)]
      -- no call is of a round that was not published
      show s.calls (k + 1) id = 0
      refine List.countP_eq_zero.mpr fun e he => ?_
      obtain ⟨m', h1, h2, -⟩ := h.events e he
      obtain ⟨hlt, -⟩ := List.getElem?_eq_some_iff.mp h2
      simp only [decide_eq_true_eq, not_and]
      omega

/-! ### Runs -/

variable {a : Act}

/-- In a running round main takes part. -/
theorem GangInv.main_takesPart (h : GangInv num s) (hn : num ≤ 255) (hp : s.phase = .running) :
    takesPart s.abb.generation s.flag 0 = true := by
  obtain ⟨_, h2, -⟩ := h.count_eq hn (by rw [hp]; decide)
  exact (h.takesPart_running hn hp 0).mpr (by omega)

/-- A thread takes a step. -/
theorem Recorded.threadStep (h : Recorded num s) (hI : GangInv num s) (h2 : 2 ≤ num)
    (hn : num ≤ 255) (htn : t < num) (hs : s.threadStep num t = some s') : Recorded num s' := by
  -- only main is in `submit`
  have hmain : ∀ x, s.pc t = x → (∀ ph g g2 r, ¬ WorkerOk ph g g2 r x) → t = 0 := fun x hx hno => by
    by_contra h0
    exact hno _ _ _ _ (hx ▸ hI.core.workers t h0 htn)
  -- a step that stays within the round
  have hgoto : ∀ x, (s.pc t).abbPos = .ret → (x.abbPos = .ret ∨ x.abbPos = .start) →
      (t = 0 → phaseOf s.abb.generation s.abb2.generation x = s.phase) →
      (s.phase = .running → x.hasRun = (s.pc t).hasRun) → Recorded num (s.goto t x) := by
    intro x hret hx hp hr
    refine h.goto hret hx ?_ hr
    by_cases h0 : t = 0
    · subst h0
      rw [phase_goto_main, hp rfl]
    · exact phase_goto_worker h0
  unfold State.threadStep at hs
  cases hpc : s.pc t with
  | abb w =>
    rw [hpc] at hs
    obtain ⟨⟨bar', w'⟩, hb, rfl⟩ := Option.map_eq_some_iff.mp hs
    exact h.movedAbb hI h2 htn hpc hb
  | abb2 w =>
    rw [hpc] at hs
    obtain ⟨⟨bar', w'⟩, hb, rfl⟩ := Option.map_eq_some_iff.mp hs
    exact h.movedAbb2 hI hn htn hpc hb
  | checkShutdown =>
    rw [hpc] at hs
    obtain rfl := Option.some.inj hs
    rw [hI.alive]
    exact hgoto _ (by rw [hpc]; rfl) (.inl rfl) (fun h0 => by rw [State.phase, ← h0, hpc]; rfl)
      fun _ => by rw [hpc]; rfl
  | loadState =>
    rw [hpc] at hs
    obtain rfl := Option.some.inj hs
    exact hgoto _ (by rw [hpc]; rfl) (.inl rfl) (fun h0 => by rw [State.phase, ← h0, hpc]; rfl)
      fun _ => by rw [hpc]; rfl
  | loadFlag state =>
    rw [hpc] at hs
    obtain rfl := Option.some.inj hs
    by_cases hr : skips state s.flag t = true
    · rw [if_pos hr]
      refine hgoto _ (by rw [hpc]; rfl) abbPos_back (fun h0 => ?_) fun _ => ?_
      · -- main never skips its own round
        subst h0
        have hm := hI.core.main
        rw [hpc] at hm
        have htake := hI.main_takesPart hn (by rw [State.phase, hpc]; rfl)
        rw [takesPart, ← show state = s.abb.generation from hm, hr] at htake
        cases htake
      · rw [hpc]
        unfold Pc.back
        split <;> rfl
    · rw [if_neg hr]
      exact hgoto _ (by rw [hpc]; rfl) (.inl rfl) (fun h0 => by rw [State.phase, ← h0, hpc]; rfl)
        fun _ => by
        rw [hpc]; rfl
  | callTasks =>
    rw [hpc] at hs
    obtain rfl := Option.some.inj hs
    exact h.called hI hn htn hpc
  | inTasks =>
    rw [hpc] at hs
    obtain rfl := Option.some.inj hs
    refine hgoto _ (by rw [hpc]; rfl) (.inl rfl) (fun h0 => ?_) fun _ => by rw [hpc]; rfl
    rw [State.phase, ← h0, hpc]
    simp [phaseOf, WaitPc.leaving, WaitPc.waking, WaitPc.saved]
  | resetTasks n =>
    obtain rfl := hmain _ hpc fun _ _ _ _ => id
    rw [hpc] at hs
    obtain rfl := Option.some.inj hs
    have hp : s.phase = .over := by rw [State.phase, hpc]; rfl
    have hx : ∀ x, (x = Pc.inlineTasks ∨ x = .reinitLoad n) →
        Recorded num { s.goto 0 x with tasks := s.tasks + 1 } := by
      rintro x hx
      have hq := hgoto x (by rw [hpc]; rfl) (by rcases hx with rfl | rfl <;> exact .inl rfl)
        (fun _ => by rw [hp]; rcases hx with rfl | rfl <;> rfl) fun hr => by rw [hp] at hr; cases hr
      have hp' : (s.goto 0 x).phase = .over := by
        rw [phase_goto_main]; rcases hx with rfl | rfl <;> rfl
      exact hq.quiet rfl rfl rfl rfl (fun hc => absurd hp' hc) (fun _ _ => rfl) fun _ _ => rfl
    refine hx _ ?_
    split
    · exact .inl rfl
    · exact .inr rfl
  | inlineTasks =>
    obtain rfl := hmain _ hpc fun _ _ _ _ => id
    rw [hpc] at hs
    obtain rfl := Option.some.inj hs
    exact hgoto _ (by rw [hpc]; rfl) (.inl rfl) (fun h0 => by rw [State.phase, hpc]; rfl) fun _ =>
      by rw [hpc]; rfl
  | reinitLoad n =>
    obtain rfl := hmain _ hpc fun _ _ _ _ => id
    rw [hpc] at hs
    obtain rfl := Option.some.inj hs
    exact hgoto _ (by rw [hpc]; rfl) (.inl rfl) (fun h0 => by rw [State.phase, hpc]; rfl) fun _ =>
      by rw [hpc]; rfl
  | storeFlag n f =>
    obtain rfl := hmain _ hpc fun _ _ _ _ => id
    rw [hpc] at hs
    obtain rfl := Option.some.inj hs
    exact h.published hI hn hpc
  | storeTotal n =>
    obtain rfl := hmain _ hpc fun _ _ _ _ => id
    rw [hpc] at hs
    obtain rfl := Option.some.inj hs
    have hq :=
      hgoto (.storeAwaited n) (by rw [hpc]; rfl) (.inl rfl) (fun _ => by rw [State.phase, hpc]; rfl)
      fun _ => by rw [hpc]; rfl
    exact hq.quiet rfl rfl rfl rfl (fun _ => ⟨rfl, rfl⟩) (fun _ _ => rfl) fun _ _ => rfl
  | storeAwaited n =>
    obtain rfl := hmain _ hpc fun _ _ _ _ => id
    rw [hpc] at hs
    obtain rfl := Option.some.inj hs
    have hq := hgoto (.abb .start) (by rw [hpc]; rfl) (.inr rfl) (fun _ => by
      rw [State.phase, hpc]
      simp [phaseOf, WaitPc.leaving, WaitPc.waking, WaitPc.saved]) fun _ => by rw [hpc]; rfl
    exact hq.quiet rfl rfl rfl rfl (fun _ => ⟨rfl, rfl⟩) (fun _ _ => rfl) fun _ _ => rfl
  | exited => rw [hpc] at hs; cases hs
  | idle => rw [hpc] at hs; cases hs
  | done => rw [hpc] at hs; cases hs
  | _ =>
    obtain rfl := hmain _ hpc fun _ _ _ _ => id
    have hm := hI.core.main
    rw [hpc] at hm
    exact absurd hm id

theorem Recorded.step (h : Recorded num s) (hI : GangInv num s) (h2 : 2 ≤ num) (hn : num ≤ 255)
    (ha : a ≠ .destroy) (hs : step num s a = some s') : Recorded num s' := by
  cases a with
  | thread t =>
    simp only [Gang.step] at hs
    split_ifs at hs with ht
    exact h.threadStep hI h2 hn ht hs
  | submit n =>
    simp only [Gang.step] at hs
    split_ifs at hs with hi hz
    · obtain rfl := Option.some.inj hs
      exact h
    · obtain rfl := Option.some.inj hs
      have hpc := State.isIdle_iff.mp hi.1
      exact h.goto (by rw [hpc]; rfl) (.inl rfl) (by rw [phase_goto_main, State.phase, hpc]; rfl)
        fun _ => by rw [hpc]; rfl
  | destroy => exact absurd rfl ha

/-- The record is true in every run of honest steps. -/
theorem recorded_reach (h2 : 2 ≤ num) (hn : num ≤ 255)
    (h : (system num flag).Reach (Honest num) s) :
    Recorded num s :=
  h.invariant (fun _ hi => hi ▸ recorded_start num flag) fun _ _ _ hr hI ha hs =>
    hI.step (gangInv_reach h2 (by omega) hr) h2 hn ha.1 hs

end Record

end NetworkDemo.Gang
