import NetworkDemo.Gang.FlagWord
import NetworkDemo.Sync.BarrierInvariant

/-!
# The invariant of the gang

A round goes through three phases, which show in where main is: *published*, from
the store of `flag` until `abb` advances; *running*, until `abb2` advances; and
*over*. `Core` relates every thread's position to the phase and to the flag word,
and says of both barriers that they satisfy the invariant of a barrier round:
`abb` with all threads, `abb2` with the participants the flag names.

A thread that has come out of `abb` and not yet read the flag is *behind* as long
as its round is not running. It must not take itself for a participant; in phase
*published* it reads the flag of a round it has not entered, and then nothing but
the comparison of the generations in `Gang::run` protects it. So `Core` is kept by
every step but one: the store of `flag` keeps it if no thread behind would take
part by the new flag (`NoneMisled`).

The destructor is left to `Gang.Shutdown`.
-/

namespace NetworkDemo.Gang

open Foundations Sync

/-! ### Phases -/

/-- The phase of the round. -/
inductive Phase where
  /-- `flag` is stored, `abb` has not advanced. -/
  | published
  /-- `abb` has advanced, `abb2` has not. -/
  | running
  /-- `abb2` has advanced, or nobody took part. -/
  | over
  deriving DecidableEq

/-- The phase, by where main is and the generations `g` of `abb` and `g2` of `abb2`. -/
def phaseOf (g g2 : U32) : Pc → Phase
  | .storeTotal _ | .storeAwaited _ => .published
  | .abb w => if w.leaving g then .running else .published
  | .checkShutdown | .loadState | .loadFlag _ | .callTasks | .inTasks => .running
  | .abb2 w => if w.leaving g2 then .over else .running
  | _ => .over

/-- Main is setting up `abb2`. -/
def Pc.setsUp : Pc → Bool
  | .storeTotal _ | .storeAwaited _ => true
  | _ => false

/-- Out of `abb`, the flag not yet read. -/
def Pc.lags (g : U32) : Pc → Bool
  | .abb w => w.leaving g
  | .checkShutdown | .loadState | .loadFlag _ => true
  | _ => false

/-- Where main can be; `total2` is `abb2.total`, and `r` says whether main takes part in the
round. -/
def MainOk (num : ℕ) (g flag total2 : U32) (r : Bool) : Pc → Prop
  | .abb w => w.returned = false
  | .abb2 w => w.returned = false ∧ r = true
  | .checkShutdown | .loadState | .idle | .inlineTasks => True
  | .loadFlag state => state = g
  | .callTasks | .inTasks => r = true
  | .resetTasks n => 1 ≤ n ∧ n ≤ num
  | .reinitLoad n => 2 ≤ n ∧ n ≤ num
  | .storeFlag n f => 2 ≤ n ∧ n ≤ num ∧ f = reinitFlag g n
  | .storeTotal n => 2 ≤ n ∧ n ≤ num ∧ flag = reinitFlag g n
  | .storeAwaited n => 2 ≤ n ∧ n ≤ num ∧ flag = reinitFlag g n ∧ total2 = reinitCount n
  | _ => False

/-- Where a worker can be; `r` says whether it would take part by the flag as it stands. -/
def WorkerOk (ph : Phase) (g g2 : U32) (r : Bool) : Pc → Prop
  | .abb w => w.returned = false ∧ if w.leaving g then ph = .running ∨
    r = false else ph = .running → r = false
  | .checkShutdown | .loadState => ph = .running ∨ r = false
  | .loadFlag state => state = g ∧ (ph = .running ∨ r = false)
  | .callTasks | .inTasks => ph = .running ∧ r = true
  | .abb2 w => w.returned = false ∧ if w.leaving g2 then ph ≠ .running else ph = .running ∧ r = true
  | _ => False

/-- The generation of the round the flag is about. -/
def roundGen (ph : Phase) (g : U32) : U32 := if ph = .published then g + BAR_INCR else g

/-- **The invariant**, of the barriers, the flag and the threads' positions. -/
structure Core (num : ℕ) (abb abb2 : AbBarrier) (flag : U32) (pc : ℕ → Pc) : Prop where
  main : MainOk num abb.generation flag abb2.total (takesPart abb.generation flag 0) (pc 0)
  workers : ∀ t, t ≠ 0 → t < num → WorkerOk (phaseOf abb.generation abb2.generation (pc 0))
    abb.generation
    abb2.generation (takesPart abb.generation flag t) (pc t)
  outside : ∀ t, num ≤ t → pc t = .exited
  /-- Every thread is in every round of `abb`. -/
  abbInv : BarInv num abb (Finset.range num) fun t => (pc t).abbPos
  abbTotal : abb.total.toNat = num
  abb2Ok : BarOk num abb2 fun t => (pc t).abb2Pos
  abb2Two : 1 < abb2.total
  /-- The participants are in the round of `abb2`. -/
  abb2Inv : (pc 0).setsUp = false → BarInv num abb2
    (participants num (roundGen (phaseOf abb.generation abb2.generation (pc 0)) abb.generation)
      flag)
    fun t => (pc t).abb2Pos
  /-- The flag and `abb2` are those of one round. -/
  round : phaseOf abb.generation abb2.generation (pc 0) ≠ .over → ∃ n g, 2 ≤ n ∧ n ≤ num ∧
    flag = reinitFlag g n ∧ roundGen (phaseOf abb.generation abb2.generation (pc 0))
      abb.generation = g + BAR_INCR ∧
    ((pc 0).setsUp = false → abb2.total.toNat = n)

/-! ### Waking changes nothing else -/

section Others

variable {g g2 flag : U32} {ph : Phase} {r : Bool} {num : ℕ} {w : WaitPc} {x : Pc}

@[simp] theorem abbPos_othersAbb : (x.othersAbb w).abbPos = w.others x.abbPos := by
  cases x <;> simp only [Pc.othersAbb, Pc.abbPos] <;> cases w <;> rfl

@[simp] theorem abb2Pos_othersAbb : (x.othersAbb w).abb2Pos = x.abb2Pos := by cases x <;> rfl

@[simp] theorem abbPos_othersAbb2 : (x.othersAbb2 w).abbPos = x.abbPos := by cases x <;> rfl

@[simp] theorem abb2Pos_othersAbb2 : (x.othersAbb2 w).abb2Pos = w.others x.abb2Pos := by
  cases x <;> simp only [Pc.othersAbb2, Pc.abb2Pos] <;> cases w <;> rfl

@[simp] theorem phaseOf_othersAbb : phaseOf g g2 (x.othersAbb w) = phaseOf g g2 x := by
  cases x <;> simp [Pc.othersAbb, phaseOf]

@[simp] theorem phaseOf_othersAbb2 : phaseOf g g2 (x.othersAbb2 w) = phaseOf g g2 x := by
  cases x <;> simp [Pc.othersAbb2, phaseOf]

@[simp] theorem setsUp_othersAbb : (x.othersAbb w).setsUp = x.setsUp := by cases x <;> rfl

@[simp] theorem setsUp_othersAbb2 : (x.othersAbb2 w).setsUp = x.setsUp := by cases x <;> rfl

@[simp] theorem mainOk_othersAbb :
    MainOk num g flag g2 r (x.othersAbb w) ↔ MainOk num g flag g2 r x := by
  cases x <;> simp [Pc.othersAbb, MainOk]

@[simp] theorem mainOk_othersAbb2 :
    MainOk num g flag g2 r (x.othersAbb2 w) ↔ MainOk num g flag g2 r x := by
  cases x <;> simp [Pc.othersAbb2, MainOk]

@[simp] theorem workerOk_othersAbb : WorkerOk ph g g2 r (x.othersAbb w) ↔ WorkerOk ph g g2 r x := by
  cases x <;> simp [Pc.othersAbb, WorkerOk]

@[simp] theorem workerOk_othersAbb2 :
    WorkerOk ph g g2 r (x.othersAbb2 w) ↔ WorkerOk ph g g2 r x := by
  cases x <;> simp [Pc.othersAbb2, WorkerOk]

theorem abbPos_afterAbb : (Pc.afterAbb w).abbPos = w := by cases w <;> rfl

theorem abb2Pos_afterAbb : (Pc.afterAbb w).abb2Pos = .ret := by cases w <;> rfl

theorem abb2Pos_back {t : ℕ} : (Pc.back t).abb2Pos = .ret := by
  unfold Pc.back
  split <;> rfl

theorem abb2Pos_afterAbb2 {t : ℕ} (h : w.returned = false) : (Pc.afterAbb2 t w).abb2Pos = w := by
  cases w <;> first | rfl | cases h

theorem afterAbb_of_inCall (h : w.returned = false) : Pc.afterAbb w = .abb w := by
  cases w <;> first | rfl | cases h

theorem afterAbb2_of_inCall {t : ℕ} (h : w.returned = false) : Pc.afterAbb2 t w = .abb2 w := by
  cases w <;> first | rfl | cases h

end Others

/-! ### The start -/

section Init

variable {num : ℕ} {flag : U32}

theorem toNat_ofNat_num (hn : num ≤ 10000000) : (BitVec.ofNat 32 num).toNat = num := by
  rw [BitVec.toNat_ofNat]
  exact Nat.mod_eq_of_lt (by omega)

theorem participants_card_le (g ret : U32) : (participants num g ret).card ≤ num :=
  (Finset.card_filter_le _ _).trans (Finset.card_range num).le

/-- A gang just constructed. -/
theorem core_start (h2 : 2 ≤ num) (hn : num ≤ 10000000) :
    Core num (start num flag).abb (start num flag).abb2 flag (start num flag).pc := by
  have hN := toNat_ofNat_num hn
  have h0 : BitVec.ofNat 32 num ≠ 0 := fun h0 => by
    have : (BitVec.ofNat 32 num).toNat = 0 := by rw [h0]; rfl
    omega
  have hinv : ∀ (T : Finset ℕ) (pos : ℕ → WaitPc), T.card ≤ (BitVec.ofNat 32 num).toNat →
      (∀ u, pos u = .ret ∨ pos u = .start ∧ u ∈ T ∧ u < num) →
      BarInv num (abBarrierInit (BitVec.ofNat 32 num) true) T pos := fun T pos hT hpos =>
    barInv_init hT (by rw [hN]; exact hn) h0 hpos
  have hpos2 : ∀ T : Finset ℕ, ∀ u, ((start num flag).pc u).abb2Pos = .ret ∨
      ((start num flag).pc u).abb2Pos = .start ∧ u ∈ T ∧ u < num := fun T u => by
    simp only [start]
    split_ifs <;> exact .inl rfl
  refine
    { main := trivial
      workers := fun t ht hlt => ?_
      outside := fun t ht => ?_
      abbInv := hinv _ _ (by simp [hN]) fun u => ?_
      abbTotal := hN
      abb2Ok := (hinv ∅ _ (by simp) (hpos2 ∅)).toBarOk
      abb2Two := ?_
      abb2Inv := fun _ => hinv _ _ ((participants_card_le _ _).trans hN.ge) (hpos2 _)
      round := fun h => absurd rfl h }
  · simp [start, ht, hlt, WorkerOk, phaseOf, WaitPc.returned, WaitPc.leaving, WaitPc.waking,
      WaitPc.saved]
  · have h0 : t ≠ 0 := by omega
    simp [start, h0, Nat.not_lt.mpr ht]
  · simp only [start]
    split_ifs with h1 h2
    · exact .inl rfl
    · exact .inr ⟨rfl, Finset.mem_range.mpr h2, h2⟩
    · exact .inl rfl
  · rw [BitVec.lt_def]
    show 1 < (BitVec.ofNat 32 num).toNat
    omega

end Init

/-! ### Positions and phases -/

section Positions

variable {num : ℕ} {g g2 : U32} {pc : ℕ → Pc} {t : ℕ} {w w' : WaitPc} {x : Pc}

theorem moveAbb_self : moveAbb pc t w w' t = .afterAbb w' := if_pos rfl

theorem moveAbb_of_ne {u : ℕ} (h : u ≠ t) : moveAbb pc t w w' u = (pc u).othersAbb w := if_neg h

theorem moveAbb2_self : moveAbb2 pc t w w' t = .afterAbb2 t w' := if_pos rfl

theorem moveAbb2_of_ne {u : ℕ} (h : u ≠ t) : moveAbb2 pc t w w' u = (pc u).othersAbb2 w := if_neg h

theorem abbPos_moveAbb (ht : pc t = .abb w) :
    (fun u => (moveAbb pc t w w' u).abbPos) = movePos (fun u => (pc u).abbPos) t w' := by
  funext u
  by_cases hu : u = t
  · rw [hu, moveAbb_self, movePos_self, abbPos_afterAbb]
  · rw [moveAbb_of_ne hu, movePos_of_ne hu, abbPos_othersAbb, ht]
    rfl

theorem abb2Pos_moveAbb (ht : pc t = .abb w) :
    (fun u => (moveAbb pc t w w' u).abb2Pos) = fun u => (pc u).abb2Pos := by
  funext u
  by_cases hu : u = t
  · rw [hu, moveAbb_self, abb2Pos_afterAbb, ht]
    rfl
  · rw [moveAbb_of_ne hu, abb2Pos_othersAbb]

theorem abb2Pos_moveAbb2 (ht : pc t = .abb2 w) :
    (fun u => (moveAbb2 pc t w w' u).abb2Pos) = movePos (fun u => (pc u).abb2Pos) t w' := by
  funext u
  by_cases hu : u = t
  · rw [hu, moveAbb2_self, movePos_self]
    by_cases hr : w'.returned = true
    · rw [WaitPc.returned_iff.mp hr]
      exact abb2Pos_back
    · exact abb2Pos_afterAbb2 (by simpa using hr)
  · rw [moveAbb2_of_ne hu, movePos_of_ne hu, abb2Pos_othersAbb2, ht]
    rfl

/-- A worker that leaves `abb2` enters `abb`. -/
theorem abbPos_moveAbb2 (ht : pc t = .abb2 w) :
    (fun u => (moveAbb2 pc t w w' u).abbPos) =
    (if w'.returned ∧ t ≠ 0 then movePos (fun u => (pc u).abbPos) t .start
      else fun u => (pc u).abbPos) := by
  have hr : (pc t).abbPos = .ret := by rw [ht]; rfl
  funext u
  by_cases hu : u = t
  · rw [hu, moveAbb2_self]
    split_ifs with h
    · rw [movePos_self, WaitPc.returned_iff.mp h.1]
      simp [Pc.afterAbb2, Pc.back, h.2, Pc.abbPos]
    · show (Pc.afterAbb2 t w').abbPos = (pc t).abbPos
      rw [hr]
      by_cases hr' : w'.returned = true
      · rw [WaitPc.returned_iff.mp hr', of_not_not fun h0 => h ⟨hr', h0⟩]
        rfl
      · rw [afterAbb2_of_inCall (by simpa using hr')]
        rfl
  · rw [moveAbb2_of_ne hu, abbPos_othersAbb2]
    split_ifs
    · rw [movePos_of_ne hu, hr]
      rfl
    · rfl

theorem setsUp_moveAbb (ht : pc t = .abb w) : (moveAbb pc t w w' 0).setsUp = (pc 0).setsUp := by
  by_cases h0 : 0 = t
  · rw [h0, moveAbb_self, ht]
    cases w' <;> rfl
  · rw [moveAbb_of_ne h0, setsUp_othersAbb]

theorem setsUp_moveAbb2 (ht : pc t = .abb2 w) : (moveAbb2 pc t w w' 0).setsUp = (pc 0).setsUp := by
  by_cases h0 : 0 = t
  · subst h0
    rw [moveAbb2_self, ht]
    cases w' <;> rfl
  · rw [moveAbb2_of_ne h0, setsUp_othersAbb2]

theorem phaseOf_of_arrived (h : x.abbPos.arrived g = true) : phaseOf g g2 x = .published := by
  cases x with
  | abb w =>
    refine if_neg fun hl => ?_
    have := (WaitPc.leaving_not_arrived hl).1
    rw [show w.arrived g = true from h] at this
    cases this
  | _ => simp [Pc.abbPos] at h

theorem phaseOf_of_leaving (h : x.abbPos.leaving g = true) : phaseOf g g2 x = .running := by
  cases x with
  | abb w => exact if_pos h
  | _ => simp [Pc.abbPos] at h

theorem eq_abb_of_leaving (h : x.abbPos.leaving g = true) :
    x = .abb x.abbPos ∧ x.abbPos.returned = false := by
  cases x with
  | abb w =>
    refine ⟨rfl, ?_⟩
    by_contra hr
    exact (WaitPc.leaving_not_arrived h).2.2 (WaitPc.returned_iff.mp (by simpa using hr))
  | _ => simp [Pc.abbPos] at h

theorem phaseOf_afterAbb (h : Stays g w w') :
    phaseOf g g2 (.afterAbb w') = phaseOf g g2 (.abb w) := by
  rcases h with ⟨hr, hl⟩ | ⟨rfl, hl⟩
  · rw [afterAbb_of_inCall hr]
    simp only [phaseOf, hl]
  · simp [Pc.afterAbb, phaseOf, hl]

theorem phaseOf_afterAbb2 (h : Stays g2 w w') :
    phaseOf g g2 (.afterAbb2 0 w') = phaseOf g g2 (.abb2 w) := by
  rcases h with ⟨hr, hl⟩ | ⟨rfl, hl⟩
  · rw [afterAbb2_of_inCall hr]
    simp only [phaseOf, hl]
  · simp [Pc.afterAbb2, Pc.back, phaseOf, hl]

theorem mainOk_afterAbb {flag : U32} {r : Bool} (h : Stays g w w') :
    MainOk num g flag g2 r (.afterAbb w') := by
  rcases h with ⟨hr, -⟩ | ⟨rfl, -⟩
  · rw [afterAbb_of_inCall hr]
    exact hr
  · trivial

theorem workerOk_afterAbb {ph : Phase} {r : Bool} (h : Stays g w w')
    (hok : WorkerOk ph g g2 r (.abb w)) :
    WorkerOk ph g g2 r (.afterAbb w') := by
  rcases h with ⟨hr, hl⟩ | ⟨rfl, hl⟩
  · rw [afterAbb_of_inCall hr]
    exact ⟨hr, by rw [hl]; exact hok.2⟩
  · have h2 := hok.2
    rw [if_pos hl] at h2
    exact h2

theorem mainOk_afterAbb2 {flag total2 : U32} {r : Bool} (h : Stays g2 w w')
    (hok : MainOk num g flag total2 r (.abb2 w)) :
    MainOk num g flag total2 r (.afterAbb2 0 w') := by
  rcases h with ⟨hr, -⟩ | ⟨rfl, -⟩
  · rw [afterAbb2_of_inCall hr]
    exact ⟨hr, hok.2⟩
  · trivial

theorem workerOk_afterAbb2 {ph : Phase} {r : Bool} (ht : t ≠ 0) (h : Stays g2 w w')
    (hok : WorkerOk ph g g2 r (.abb2 w)) : WorkerOk ph g g2 r (.afterAbb2 t w') := by
  rcases h with ⟨hr, hl⟩ | ⟨rfl, hl⟩
  · rw [afterAbb2_of_inCall hr]
    exact ⟨hr, by rw [hl]; exact hok.2⟩
  · have h2 := hok.2
    rw [if_pos hl] at h2
    simp [Pc.afterAbb2, Pc.back, ht, WorkerOk, WaitPc.returned, WaitPc.leaving, WaitPc.waking,
      WaitPc.saved, h2]

/-- Who did not take part in the round that was running has no part in its end. -/
theorem workerOk_over {g2' : U32} (h : WorkerOk .running g g2 false x) :
    WorkerOk .over g g2' false x := by
  cases x with
  | abb w => exact ⟨h.1, by split <;> simp⟩
  | checkShutdown => exact .inr rfl
  | loadState => exact .inr rfl
  | loadFlag s => exact ⟨h.1, .inr rfl⟩
  | callTasks => exact absurd h.2 (by decide)
  | inTasks => exact absurd h.2 (by decide)
  | abb2 w =>
    have h2 := h.2
    split_ifs at h2
    · exact absurd rfl h2
    · exact absurd h2.2 (by decide)
  | _ => exact h

end Positions

theorem movePos_ret {pos : ℕ → WaitPc} (h : pos t = .ret) : movePos pos t .ret = pos := by
  funext u
  by_cases hu : u = t
  · rw [hu, movePos_self, h]
  · rw [movePos_of_ne hu, h]
    rfl

/-! ### Steps at `abb` -/

section Step

variable {num : ℕ} {abb abb2 bar' : AbBarrier} {flag : U32} {pc : ℕ → Pc} {t : ℕ}
    {w w' : WaitPc} {x : Pc}

theorem Core.wakes (h : Core num abb abb2 flag pc) (h2 : 2 ≤ num) :
    Wakes abb fun u => (pc u).abbPos := by
  refine .inl ?_
  rw [BitVec.lt_def, h.abbTotal]
  exact h2

/-- What a step at `abb` does: `abb` advances, and everybody is about to leave it; or the phase
stays. -/
def AbbStep (num : ℕ) (abb abb2 bar' : AbBarrier) (pc pc' : ℕ → Pc) (w w' : WaitPc) : Prop :=
  bar'.generation = abb.generation ∧ Stays abb.generation w w' ∧
      phaseOf bar'.generation abb2.generation (pc' 0) =
        phaseOf abb.generation abb2.generation (pc 0) ∨
    bar'.generation = abb.generation + BAR_INCR ∧ w' = .testTotal ∧
      phaseOf abb.generation abb2.generation (pc 0) = .published ∧
      phaseOf bar'.generation abb2.generation (pc' 0) = .running ∧
      ∀ u < num, (pc u).abbPos.arrived abb.generation = true ∧
        (pc' u).abbPos.leaving bar'.generation = true

theorem Core.abbStep (h : Core num abb abb2 flag pc) (h2 : 2 ≤ num) (htn : t < num)
    (ht : pc t = .abb w) (hs : abb.step w = some (bar', w')) :
    Core num bar' abb2 flag (moveAbb pc t w w') ∧ AbbStep num abb abb2 bar' pc
      (moveAbb pc t w w') w w' := by
  have hw : (pc t).abbPos = w := by rw [ht]; rfl
  have hs' : abb.step (pc t).abbPos = some (bar', w') := by rw [hw]; exact hs
  have hout : ∀ u, u ∉ Finset.range num → (pc u).abbPos.saved = none := fun u hu => by
    simp [h.outside u (by simpa using hu), Pc.abbPos, WaitPc.saved]
  have hinv := h.abbInv.step htn (h.wakes h2) (fun _ => hout) hs'
  rw [← abbPos_moveAbb ht] at hinv
  have hsu : (moveAbb pc t w w' 0).setsUp = (pc 0).setsUp := setsUp_moveAbb ht
  have houts : ∀ u, num ≤ u → moveAbb pc t w w' u = .exited := fun u hu => by
    rw [moveAbb_of_ne (by omega), h.outside u hu]
    rfl
  rcases h.abbInv.step_stays hs' with ⟨hg, htot, hst⟩ | ⟨hw0, rfl, rfl⟩
  · -- the phase stays
    rw [hw] at hst
    have hph : phaseOf bar'.generation abb2.generation (moveAbb pc t w w' 0) =
        phaseOf abb.generation abb2.generation (pc 0) := by
      rw [hg]
      by_cases h0 : 0 = t
      · rw [h0, moveAbb_self, ht, phaseOf_afterAbb hst]
      · rw [moveAbb_of_ne h0, phaseOf_othersAbb]
    refine ⟨⟨?_, fun u hu hlt => ?_, houts, hinv, htot ▸ h.abbTotal, ?_, h.abb2Two, ?_, ?_⟩,
      .inl ⟨hg, hst, hph⟩⟩
    · rw [hg]
      by_cases h0 : 0 = t
      · rw [h0, moveAbb_self]
        exact mainOk_afterAbb hst
      · rw [moveAbb_of_ne h0, mainOk_othersAbb]
        exact h.main
    · rw [hph, hg]
      have hok := h.workers u hu hlt
      by_cases hut : u = t
      · rw [hut, moveAbb_self]
        rw [hut, ht] at hok
        exact workerOk_afterAbb hst hok
      · rw [moveAbb_of_ne hut, workerOk_othersAbb]
        exact hok
    · rw [abb2Pos_moveAbb ht]
      exact h.abb2Ok
    · rw [abb2Pos_moveAbb ht, hsu, hph, hg]
      exact h.abb2Inv
    · rw [hsu, hph, hg]
      exact h.round
  · -- `abb` advances: the round is running
    have hall : ∀ u < num, (pc u).abbPos.arrived abb.generation = true ∧
        (moveAbb pc t w .testTotal u).abbPos.leaving (abb.generation + BAR_INCR) = true := by
      intro u hu
      have h1 := (h.abbInv.advance htn hw0 hout).2 u (Finset.mem_range.mpr hu)
      rw [← abbPos_moveAbb ht] at h1
      exact h1
    have hp : phaseOf abb.generation abb2.generation (pc 0) = .published :=
      phaseOf_of_arrived (hall 0 (by omega)).1
    have hp' : phaseOf (abb.generation + BAR_INCR) abb2.generation (moveAbb pc t w .testTotal 0) =
        .running :=
      phaseOf_of_leaving (hall 0 (by omega)).2
    refine ⟨⟨?_, fun u hu hlt => ?_, houts, hinv, h.abbTotal, ?_, h.abb2Two, ?_, ?_⟩,
      .inr ⟨rfl, rfl, hp, hp', hall⟩⟩
    · obtain ⟨he, hr⟩ := eq_abb_of_leaving (hall 0 (by omega)).2
      rw [he]
      exact hr
    · obtain ⟨he, hr⟩ := eq_abb_of_leaving (hall u hlt).2
      rw [show phaseOf _ _ _ = _ from hp', he]
      exact ⟨hr, by rw [if_pos (hall u hlt).2]; exact .inl rfl⟩
    · rw [abb2Pos_moveAbb ht]
      exact h.abb2Ok
    · rw [abb2Pos_moveAbb ht, hsu, show phaseOf _ _ _ = _ from hp']
      have := h.abb2Inv
      rwa [hp] at this
    · intro _
      rw [hsu, show phaseOf _ _ _ = _ from hp']
      have := h.round
      rw [hp] at this
      exact this (by decide)

/-! ### Steps at `abb2` -/

/-- Outside the running phase nobody is in the round of `abb2`. -/
theorem Core.abb2_leaving (h : Core num abb abb2 flag pc)
    (hp : phaseOf abb.generation abb2.generation (pc 0) ≠ .running) {u : ℕ} {w : WaitPc}
    (hu : pc u = .abb2 w) :
    w.leaving abb2.generation = true := by
  by_contra hl
  by_cases h0 : u = 0
  · rw [h0] at hu
    rw [hu] at hp
    exact hp (if_neg hl)
  · have hlt : u < num := by
      by_contra hge
      rw [h.outside u (by omega)] at hu
      cases hu
    have hw := h.workers u h0 hlt
    rw [hu] at hw
    have h2 := hw.2
    rw [if_neg hl] at h2
    exact hp h2.1

/-- While the round is running, whoever is at `abb2` takes part. -/
theorem Core.abb2_takesPart (h : Core num abb abb2 flag pc)
    (hp : phaseOf abb.generation abb2.generation (pc 0) = .running) {u : ℕ} {w : WaitPc}
    (hu : pc u = .abb2 w) :
    u ∈ participants num abb.generation flag := by
  have hlt : u < num := by
    by_contra hge
    rw [h.outside u (by omega)] at hu
    cases hu
  refine Finset.mem_filter.mpr ⟨Finset.mem_range.mpr hlt, ?_⟩
  by_cases h0 : u = 0
  · have hm := h.main
    rw [← h0, hu] at hm
    exact hm.2
  · have hw := h.workers u h0 hlt
    rw [hp, hu] at hw
    have h2 := hw.2
    split_ifs at h2
    · exact absurd rfl h2
    · exact h2.2

/-- Whoever is at `abb2` and not leaving it is in the round that is running. -/
theorem Core.running_of_abb2 (h : Core num abb abb2 flag pc) {u : ℕ} {w : WaitPc}
    (hu : pc u = .abb2 w) (hl : w.leaving abb2.generation = false) :
    phaseOf abb.generation abb2.generation (pc 0) = .running := by
  by_contra hp
  rw [h.abb2_leaving hp hu] at hl
  cases hl

/-- What a step at `abb2` does: `abb2` advances, and every participant is about to leave it; or
the phase stays. -/
def Abb2Step (num : ℕ) (abb abb2 bar' : AbBarrier) (flag : U32) (pc pc' : ℕ → Pc) (w w' : WaitPc) :
    Prop :=
  Stays abb2.generation w w' ∧
      phaseOf abb.generation bar'.generation (pc' 0) =
        phaseOf abb.generation abb2.generation (pc 0) ∨
    w' = .testTotal ∧ phaseOf abb.generation abb2.generation (pc 0) = .running ∧
      phaseOf abb.generation bar'.generation (pc' 0) = .over ∧
      ∀ u ∈ participants num abb.generation flag, ∃ p, pc u = .abb2 p

theorem eq_abb2_of_arrived {g : U32} (h : x.abb2Pos.arrived g = true) : x = .abb2 x.abb2Pos := by
  cases x with
  | abb2 w => rfl
  | _ => simp [Pc.abb2Pos] at h

theorem eq_abb2_of_leaving {g : U32} (h : x.abb2Pos.leaving g = true) :
    x = .abb2 x.abb2Pos ∧ x.abb2Pos.returned = false := by
  cases x with
  | abb2 w =>
    refine ⟨rfl, ?_⟩
    by_contra hr
    exact (WaitPc.leaving_not_arrived h).2.2 (WaitPc.returned_iff.mp (by simpa using hr))
  | _ => simp [Pc.abb2Pos] at h

theorem Core.outside_moveAbb2 (h : Core num abb abb2 flag pc) (htn : t < num) {u : ℕ}
    (hu : num ≤ u) :
    moveAbb2 pc t w w' u = .exited := by
  rw [moveAbb2_of_ne (by omega), h.outside u hu]
  rfl

theorem Core.abbInv_moveAbb2 (h : Core num abb abb2 flag pc) (htn : t < num) (ht : pc t = .abb2 w) :
    BarInv num abb (Finset.range num) fun u => (moveAbb2 pc t w w' u).abbPos := by
  rw [abbPos_moveAbb2 ht]
  split_ifs
  · exact h.abbInv.enter htn (Finset.mem_range.mpr htn) (by rw [ht]; rfl)
  · exact h.abbInv

/-- What a step that does not advance `abb2` keeps. -/
theorem Core.abb2_stays (h : Core num abb abb2 flag pc) (htn : t < num) (ht : pc t = .abb2 w)
    (hg : bar'.generation = abb2.generation) (htot : bar'.total = abb2.total)
    (hst : Stays abb2.generation w w')
    (hok : BarOk num bar' fun u => (moveAbb2 pc t w w' u).abb2Pos)
    (hinv : (pc 0).setsUp = false → BarInv num bar' (participants num
      (roundGen (phaseOf abb.generation abb2.generation (pc 0)) abb.generation) flag) fun u =>
        (moveAbb2 pc t w w' u).abb2Pos) :
    Core num abb bar' flag (moveAbb2 pc t w w') ∧ Abb2Step num abb abb2 bar' flag pc
      (moveAbb2 pc t w w') w w' := by
  have hsu : (moveAbb2 pc t w w' 0).setsUp = (pc 0).setsUp := setsUp_moveAbb2 ht
  have hph : phaseOf abb.generation bar'.generation (moveAbb2 pc t w w' 0) =
      phaseOf abb.generation abb2.generation (pc 0) := by
    rw [hg]
    by_cases h0 : 0 = t
    · subst h0
      rw [moveAbb2_self, ht, phaseOf_afterAbb2 hst]
    · rw [moveAbb2_of_ne h0, phaseOf_othersAbb2]
  refine ⟨⟨?_, fun u hu hlt => ?_, fun u => h.outside_moveAbb2 htn, h.abbInv_moveAbb2 htn ht,
    h.abbTotal, hok, htot ▸ h.abb2Two,
    ?_, ?_⟩, .inl ⟨hst, hph⟩⟩
  · rw [htot]
    have hm := h.main
    by_cases h0 : 0 = t
    · subst h0
      rw [moveAbb2_self]
      rw [ht] at hm
      exact mainOk_afterAbb2 hst hm
    · rw [moveAbb2_of_ne h0, mainOk_othersAbb2]
      exact hm
  · rw [hph, hg]
    have hwk := h.workers u hu hlt
    by_cases hut : u = t
    · subst hut
      rw [moveAbb2_self]
      rw [ht] at hwk
      exact workerOk_afterAbb2 hu hst hwk
    · rw [moveAbb2_of_ne hut, workerOk_othersAbb2]
      exact hwk
  · rw [hsu, hph]
    exact hinv
  · rw [hsu, hph, htot]
    exact h.round

/-- When `abb2` advances, the round is over. -/
theorem Core.abb2_advances (h : Core num abb abb2 flag pc) (htn : t < num) (ht : pc t = .abb2 w)
    (hw0 : (pc t).abb2Pos = .storeGeneration abb2.generation)
    (hp : phaseOf abb.generation abb2.generation (pc 0) = .running)
    (hinv : BarInv num abb2 (participants num abb.generation flag) fun u => (pc u).abb2Pos)
    (hout : ∀ u, u ∉ participants num abb.generation flag → (pc u).abb2Pos.saved = none) :
    Core num abb { abb2 with generation := abb2.generation + BAR_INCR } flag
      (moveAbb2 pc t w .testTotal) ∧
      Abb2Step num abb abb2 { abb2 with generation := abb2.generation + BAR_INCR } flag pc
        (moveAbb2 pc t w .testTotal) w
        .testTotal := by
  have hsu : (moveAbb2 pc t w .testTotal 0).setsUp = (pc 0).setsUp := setsUp_moveAbb2 ht
  obtain ⟨hinv', hall⟩ := hinv.advance htn hw0 hout
  have hall' : ∀ u ∈ participants num abb.generation flag, pc u = .abb2 (pc u).abb2Pos ∧
      (moveAbb2 pc t w .testTotal u).abb2Pos.leaving (abb2.generation + BAR_INCR) = true := by
    intro u hu
    have h1 := hall u hu
    rw [← abb2Pos_moveAbb2 ht] at h1
    exact ⟨eq_abb2_of_arrived h1.1, h1.2⟩
  rw [← abb2Pos_moveAbb2 ht] at hinv'
  have h0 : 0 ∈ participants num abb.generation flag := by
    have := Finset.mem_filter.mp (h.abb2_takesPart hp ht)
    exact Finset.mem_filter.mpr ⟨Finset.mem_range.mpr (by omega),
      takesPart_of_le this.2 (Nat.zero_le t)⟩
  obtain ⟨he0, hr0⟩ := eq_abb2_of_leaving (hall' 0 h0).2
  have hp' : phaseOf abb.generation (abb2.generation + BAR_INCR) (moveAbb2 pc t w .testTotal 0) =
      .over := by
    rw [he0]
    exact if_pos (hall' 0 h0).2
  refine ⟨⟨?_, fun u hu hlt => ?_, fun u => h.outside_moveAbb2 htn, h.abbInv_moveAbb2 htn ht,
    h.abbTotal, hinv'.toBarOk, h.abb2Two,
    ?_, ?_⟩, .inr ⟨rfl, hp, hp', fun u hu => ⟨_, (hall' u hu).1⟩⟩⟩
  · rw [he0]
    exact ⟨hr0, (Finset.mem_filter.mp h0).2⟩
  · rw [show phaseOf _ _ _ = _ from hp']
    by_cases hu' : u ∈ participants num abb.generation flag
    · obtain ⟨he, hr⟩ := eq_abb2_of_leaving (hall' u hu').2
      rw [he]
      exact ⟨hr, by rw [if_pos (hall' u hu').2]; decide⟩
    · -- who does not take part is not at `abb2`, and would not take part later either
      have hr : takesPart abb.generation flag u = false := by
        by_contra hr
        exact hu' (Finset.mem_filter.mpr ⟨Finset.mem_range.mpr hlt, by simpa using hr⟩)
      have hut : u ≠ t := fun e => hu' (e ▸ h.abb2_takesPart hp ht)
      have hok := h.workers u hu hlt
      rw [hp, hr] at hok
      rw [moveAbb2_of_ne hut, workerOk_othersAbb2, hr]
      exact workerOk_over hok
  · rw [hsu, show phaseOf _ _ _ = _ from hp']
    exact fun _ => hinv'
  · exact fun hc => absurd hp' hc

theorem Core.abb2Step (h : Core num abb abb2 flag pc) (htn : t < num) (ht : pc t = .abb2 w)
    (hs : abb2.step w = some (bar', w')) :
    Core num abb bar' flag (moveAbb2 pc t w w') ∧ Abb2Step num abb abb2 bar' flag pc
      (moveAbb2 pc t w w') w w' := by
  have hw : (pc t).abb2Pos = w := by rw [ht]; rfl
  have hs' : abb2.step (pc t).abb2Pos = some (bar', w') := by rw [hw]; exact hs
  by_cases hset : (pc 0).setsUp = true
  · -- main is setting `abb2` up: only threads that leave it are there
    have hp : phaseOf abb.generation abb2.generation (pc 0) ≠ .running := by
      cases hm : pc 0 <;> rw [hm] at hset <;> simp [Pc.setsUp, phaseOf] at hset ⊢
    have hl := h.abb2_leaving hp ht
    obtain ⟨rfl, hst, hok⟩ := h.abb2Ok.leave htn (by rw [hw]; exact hl) (.inl h.abb2Two) hs'
    rw [hw] at hst
    rw [← abb2Pos_moveAbb2 ht] at hok
    exact h.abb2_stays htn ht rfl rfl hst hok fun hc => by rw [hset] at hc; cases hc
  · have hset' : (pc 0).setsUp = false := by simpa using hset
    have hinv := h.abb2Inv hset'
    -- who closes the round is in it, and then nobody outside it is at `abb2`
    have hout : phaseOf abb.generation abb2.generation (pc 0) = .running →
        ∀ u, u ∉ participants num
          (roundGen (phaseOf abb.generation abb2.generation (pc 0)) abb.generation) flag →
          (pc u).abb2Pos.saved = none := by
      intro hp u hu
      rw [hp] at hu
      cases hpc : pc u with
      | abb2 p => exact absurd (h.abb2_takesPart hp hpc) hu
      | _ => rfl
    have hrun : w.last = true → phaseOf abb.generation abb2.generation (pc 0) = .running := by
      intro hl
      refine h.running_of_abb2 ht ?_
      cases w <;> simp_all [WaitPc.last, WaitPc.leaving, WaitPc.waking, WaitPc.saved]
    have hinv' := hinv.step htn (.inl h.abb2Two) (fun hl => hout (hrun (by rwa [hw] at hl))) hs'
    rw [← abb2Pos_moveAbb2 ht] at hinv'
    rcases hinv.step_stays hs' with ⟨hg, htot, hst⟩ | ⟨hw0, rfl, rfl⟩
    · rw [hw] at hst
      exact h.abb2_stays htn ht hg htot hst hinv'.toBarOk fun _ => hinv'
    · have hp := hrun (by rw [← hw, hw0]; rfl)
      have hout' := hout hp
      rw [hp] at hinv hout'
      exact h.abb2_advances htn ht hw0 hp hinv hout'

/-! ### Steps outside the barriers -/

/-- A thread outside both barriers moves, possibly to the door of one. -/
theorem Core.move (h : Core num abb abb2 flag pc) (htn : t < num) (hret : (pc t).abbPos = .ret)
    (hret2 : (pc t).abb2Pos = .ret) (hx : x.abbPos = .ret ∨ x.abbPos = .start)
    (hx2 : x.abb2Pos = .ret ∨ x.abb2Pos = .start ∧ (pc 0).setsUp = false ∧ t ∈ participants num
      (roundGen (phaseOf abb.generation abb2.generation (pc 0)) abb.generation) flag) {ph : Phase}
    (hph : phaseOf abb.generation abb2.generation (Function.update pc t x 0) = ph)
    (hrg : roundGen ph abb.generation =
      roundGen (phaseOf abb.generation abb2.generation (pc 0)) abb.generation)
    (hov : ph ≠ .over → phaseOf abb.generation abb2.generation (pc 0) ≠ .over)
    (hsu : (Function.update pc t x 0).setsUp = (pc 0).setsUp)
    (hm : MainOk num abb.generation flag abb2.total (takesPart abb.generation flag 0)
      (Function.update pc t x 0))
    (hw : ∀ u, u ≠ 0 → u < num → WorkerOk ph abb.generation abb2.generation
      (takesPart abb.generation flag u)
      (Function.update pc t x u)) :
    Core num abb abb2 flag (Function.update pc t x) := by
  have hpos : (fun u => (Function.update pc t x u).abbPos) =
      movePos (fun u => (pc u).abbPos) t x.abbPos := by
    funext u
    by_cases hu : u = t
    · rw [hu, Function.update_self, movePos_self]
    · rw [Function.update_of_ne hu, movePos_of_ne hu, hret]
      rfl
  have hpos2 : (fun u => (Function.update pc t x u).abb2Pos) =
      movePos (fun u => (pc u).abb2Pos) t x.abb2Pos := by
    funext u
    by_cases hu : u = t
    · rw [hu, Function.update_self, movePos_self]
    · rw [Function.update_of_ne hu, movePos_of_ne hu, hret2]
      rfl
  refine
    { main := hm
      workers := fun u hu hlt => hph ▸ hw u hu hlt
      outside := fun u hu => by rw [Function.update_of_ne (by omega), h.outside u hu]
      abbInv := ?_
      abbTotal := h.abbTotal
      abb2Ok := ?_
      abb2Two := h.abb2Two
      abb2Inv := fun hs => ?_
      round := fun hp => ?_ }
  · rw [hpos]
    rcases hx with hx | hx <;> rw [hx]
    · rw [movePos_ret hret]
      exact h.abbInv
    · exact h.abbInv.enter htn (Finset.mem_range.mpr htn) hret
  · rw [hpos2]
    rcases hx2 with hx2 | ⟨hx2, hs, hmem⟩ <;> rw [hx2]
    · rw [movePos_ret hret2]
      exact h.abb2Ok
    · exact ((h.abb2Inv hs).enter htn hmem hret2).toBarOk
  · rw [hpos2, hph, hrg]
    rw [hsu] at hs
    rcases hx2 with hx2 | ⟨hx2, -, hmem⟩ <;> rw [hx2]
    · rw [movePos_ret hret2]
      exact h.abb2Inv hs
    · exact (h.abb2Inv hs).enter htn hmem hret2
  · rw [hph] at hp ⊢
    rw [hsu, hrg]
    exact h.round (hov hp)

/-- A worker outside both barriers moves. -/
theorem Core.workerMove (h : Core num abb abb2 flag pc) (htn : t < num) (h0 : t ≠ 0)
    (hret : (pc t).abbPos = .ret) (hret2 : (pc t).abb2Pos = .ret)
    (hx : x.abbPos = .ret ∨ x.abbPos = .start)
    (hx2 : x.abb2Pos = .ret ∨ x.abb2Pos = .start ∧ (pc 0).setsUp = false ∧ t ∈ participants num
      (roundGen (phaseOf abb.generation abb2.generation (pc 0)) abb.generation) flag)
    (hw : WorkerOk (phaseOf abb.generation abb2.generation (pc 0)) abb.generation abb2.generation
      (takesPart abb.generation flag t) x) :
    Core num abb abb2 flag (Function.update pc t x) := by
  have hm : Function.update pc t x 0 = pc 0 := Function.update_of_ne (Ne.symm h0) _ _
  refine h.move htn hret hret2 hx hx2 (by rw [hm]) rfl id (by rw [hm]) (by rw [hm]; exact h.main)
    fun u hu hlt => ?_
  by_cases hut : u = t
  · rw [hut, Function.update_self]
    exact hw
  · rw [Function.update_of_ne hut]
    exact h.workers u hu hlt

/-- Main, outside both barriers, moves within a phase. -/
theorem Core.mainMove (h : Core num abb abb2 flag pc) (htn : 0 < num)
    (hret : (pc 0).abbPos = .ret) (hret2 : (pc 0).abb2Pos = .ret)
    (hx : x.abbPos = .ret ∨ x.abbPos = .start)
    (hx2 : x.abb2Pos = .ret ∨ x.abb2Pos = .start ∧ (pc 0).setsUp = false ∧ 0 ∈ participants num
      (roundGen (phaseOf abb.generation abb2.generation (pc 0)) abb.generation) flag)
    (hph : phaseOf abb.generation abb2.generation x = phaseOf abb.generation abb2.generation (pc 0))
    (hsu : x.setsUp = (pc 0).setsUp)
    (hm : MainOk num abb.generation flag abb2.total (takesPart abb.generation flag 0) x) :
    Core num abb abb2 flag (Function.update pc 0 x) := by
  have hm' : Function.update pc 0 x 0 = x := Function.update_self ..
  refine h.move htn hret hret2 hx hx2 (by rw [hm']; exact hph) rfl id (by rw [hm', hsu])
    (by rw [hm']; exact hm)
    fun u hu hlt => ?_
  rw [Function.update_of_ne hu]
  exact h.workers u hu hlt

/-- Main reads in the flag that it does not take part: then nobody does. -/
theorem Core.mainSkips (h : Core num abb abb2 flag pc) (htn : 0 < num) {state : U32}
    (ht : pc 0 = .loadFlag state) (hr : takesPart abb.generation flag 0 = false) :
    Core num abb abb2 flag (Function.update pc 0 .idle) := by
  have hm' : Function.update pc 0 .idle 0 = .idle := Function.update_self ..
  have hp : phaseOf abb.generation abb2.generation (pc 0) = .running := by rw [ht]; rfl
  refine h.move htn (by rw [ht]; rfl) (by rw [ht]; rfl) (.inl rfl) (.inl rfl)
    (show phaseOf abb.generation abb2.generation _ = .over by rw [hm']; rfl)
    (by rw [hp]; rfl) (fun hc => absurd rfl hc) (by rw [hm', ht]; rfl) (by rw [hm']; trivial)
      fun u hu hlt => ?_
  have hru : takesPart abb.generation flag u = false := by
    by_contra hc
    rw [takesPart_of_le (by simpa using hc) (Nat.zero_le u)] at hr
    cases hr
  have hok := h.workers u hu hlt
  rw [hp, hru] at hok
  rw [Function.update_of_ne hu, hru]
  exact workerOk_over hok

/-! ### Setting up a round -/

/-- No thread that is behind would take part by the new flag. -/
def NoneMisled (num : ℕ) (g flag : U32) (pc : ℕ → Pc) : Prop :=
  ∀ t, t ≠ 0 → t < num → (pc t).lags g = true → takesPart g flag t = false

theorem workerOk_published {g g2 : U32} {r r' : Bool} (h : WorkerOk .over g g2 r x)
    (hr : x.lags g = true → r' = false) : WorkerOk .published g g2 r' x := by
  cases x with
  | abb w =>
    refine ⟨h.1, ?_⟩
    split_ifs with hl
    · exact .inr (hr hl)
    · exact fun hc => by cases hc
  | checkShutdown => exact .inr (hr rfl)
  | loadState => exact .inr (hr rfl)
  | loadFlag s => exact ⟨h.1, .inr (hr rfl)⟩
  | callTasks => exact absurd h.1 (by decide)
  | inTasks => exact absurd h.1 (by decide)
  | abb2 w =>
    refine ⟨h.1, ?_⟩
    have h2 := h.2
    split_ifs at h2 ⊢
    · decide
    · exact absurd h2.1 (by decide)
  | _ => exact h

/-- The positions in the barriers when main, outside both, moves to outside both. -/
theorem abbPos_update_main (hret : (pc 0).abbPos = .ret) (hx : x.abbPos = .ret) :
    (fun u => (Function.update pc 0 x u).abbPos) = fun u => (pc u).abbPos := by
  funext u
  by_cases hu : u = 0
  · rw [hu, Function.update_self, hret, hx]
  · rw [Function.update_of_ne hu]

theorem abb2Pos_update_main (hret : (pc 0).abb2Pos = .ret) (hx : x.abb2Pos = .ret) :
    (fun u => (Function.update pc 0 x u).abb2Pos) = fun u => (pc u).abb2Pos := by
  funext u
  by_cases hu : u = 0
  · rw [hu, Function.update_self, hret, hx]
  · rw [Function.update_of_ne hu]

/-- Main publishes the round. -/
theorem Core.storeFlag (h : Core num abb abb2 flag pc) {n : ℕ} {f : U32}
    (ht : pc 0 = .storeFlag n f) (hmis : NoneMisled num abb.generation f pc) :
    Core num abb abb2 f (Function.update pc 0 (.storeTotal n)) := by
  have hm' : Function.update pc 0 (.storeTotal n) 0 = .storeTotal n := Function.update_self ..
  have hm := h.main
  rw [ht] at hm
  have hp : phaseOf abb.generation abb2.generation (pc 0) = .over := by rw [ht]; rfl
  refine
    { main := by rw [hm']; exact hm
      workers := fun u hu hlt => ?_
      outside := fun u hu => by
        rw [Function.update_of_ne, h.outside u hu]
        rintro rfl
        rw [h.outside 0 hu] at ht
        cases ht
      abbInv := by rw [abbPos_update_main (by rw [ht]; rfl) rfl]; exact h.abbInv
      abbTotal := h.abbTotal
      abb2Ok := by rw [abb2Pos_update_main (by rw [ht]; rfl) rfl]; exact h.abb2Ok
      abb2Two := h.abb2Two
      abb2Inv := fun hs => by rw [hm'] at hs; cases hs
      round := fun _ => ⟨n, abb.generation, hm.1, hm.2.1, hm.2.2, by rw [hm']; rfl,
        fun hs => by rw [hm'] at hs; cases hs⟩ }
  have hok := h.workers u hu hlt
  rw [hp] at hok
  rw [hm', Function.update_of_ne hu]
  exact workerOk_published hok (hmis u hu hlt)

/-- While `abb2` is set up, only threads that leave it are there. -/
theorem Core.abb2Pos_setsUp (h : Core num abb abb2 flag pc) (hs : (pc 0).setsUp = true) (u : ℕ) :
    (pc u).abb2Pos = .ret ∨ (pc u).abb2Pos.leaving abb2.generation = true := by
  cases hu : pc u with
  | abb2 w =>
    refine .inr (h.abb2_leaving ?_ hu)
    cases hm : pc 0 <;> rw [hm] at hs <;> simp [Pc.setsUp, phaseOf] at hs ⊢
  | _ => exact .inl rfl

theorem toNat_reinitCount {n : ℕ} (hn : n ≤ num) (hnum : num ≤ 10000000) :
    (reinitCount n).toNat = n := by
  rw [reinitCount, toNat_ofNat_num (hn.trans hnum)]

theorem Core.num_le (h : Core num abb abb2 flag pc) : num ≤ 10000000 := by
  have := h.abbInv.total_le
  rwa [h.abbTotal] at this

/-- Main sets how many threads are to meet at `abb2`. -/
theorem Core.storeTotal (h : Core num abb abb2 flag pc) {n : ℕ} (ht : pc 0 = .storeTotal n) :
    Core num abb { abb2 with total := reinitCount n } flag
      (Function.update pc 0 (.storeAwaited n)) := by
  have hm' : Function.update pc 0 (.storeAwaited n) 0 = .storeAwaited n := Function.update_self ..
  have hm := h.main
  rw [ht] at hm
  have hp : phaseOf abb.generation abb2.generation (pc 0) = .published := by rw [ht]; rfl
  have hround := h.round (by rw [hp]; decide)
  have hwork := h.workers
  rw [hp] at hround hwork
  refine
    { main := by rw [hm']; exact ⟨hm.1, hm.2.1, hm.2.2, rfl⟩
      workers := fun u hu hlt => by rw [hm', Function.update_of_ne hu]; exact hwork u hu hlt
      outside := fun u hu => by
        rw [Function.update_of_ne, h.outside u hu]
        rintro rfl
        rw [h.outside 0 hu] at ht
        cases ht
      abbInv := by rw [abbPos_update_main (by rw [ht]; rfl) rfl]; exact h.abbInv
      abbTotal := h.abbTotal
      abb2Ok := ?_
      abb2Two := ?_
      abb2Inv := fun hs => by rw [hm'] at hs; cases hs
      round := fun _ => ?_ }
  · rw [abb2Pos_update_main (by rw [ht]; rfl) rfl]
    refine ⟨h.abb2Ok.aligned, fun u => ?_, h.abb2Ok.out, h.abb2Ok.sleep⟩
    refine AbBarrier.PosOk.congr_of_not_unreset ?_ ?_ (h.abb2Ok.posOk u)
    · rfl
    rcases h.abb2Pos_setsUp (by rw [ht]; rfl) u with hu | hu
    · rw [hu]
      rfl
    · exact WaitPc.leaving_not_unreset hu
  · have := toNat_reinitCount hm.2.1 h.num_le
    rw [BitVec.lt_def, this]
    exact hm.1
  · rw [hm']
    obtain ⟨n', g, h1, h2, h3, h4, -⟩ := hround
    exact ⟨n', g, h1, h2, h3, h4, fun hs => by cases hs⟩

/-- Main sets how many threads are missing at `abb2`, and goes on to `abb`: the round of `abb2` is
open, and nobody has arrived. -/
theorem Core.storeAwaited (h : Core num abb abb2 flag pc) {n : ℕ} (ht : pc 0 = .storeAwaited n) :
    Core num abb { abb2 with awaited := reinitCount n } flag
      (Function.update pc 0 (.abb .start)) := by
  have hm' : Function.update pc 0 (.abb .start) 0 = .abb .start := Function.update_self ..
  have hm := h.main
  rw [ht] at hm
  obtain ⟨hn2, hn, hflag, htot⟩ := hm
  have hcount := toNat_reinitCount hn h.num_le
  have h0 : 0 < num := by omega
  have hp : phaseOf abb.generation abb2.generation (pc 0) = .published := by rw [ht]; rfl
  have hp' : ∀ g g2 : U32, phaseOf g g2 (.abb .start) = .published := fun g g2 => by
    simp [phaseOf, WaitPc.leaving, WaitPc.waking, WaitPc.saved]
  have hwork := h.workers
  rw [hp] at hwork
  have hpos2 : (fun u => (Function.update pc 0 (.abb .start) u).abb2Pos) = fun u =>
      (pc u).abb2Pos :=
    abb2Pos_update_main (by rw [ht]; rfl) rfl
  have hpos : (fun u => (Function.update pc 0 (.abb .start) u).abbPos) =
      movePos (fun u => (pc u).abbPos) 0 .start := by
    funext u
    by_cases hu : u = 0
    · rw [hu, Function.update_self, movePos_self]
      rfl
    · rw [Function.update_of_ne hu, movePos_of_ne hu, ht]
      rfl
  have hgone : ∀ u, (pc u).abb2Pos.last = false ∧ (pc u).abb2Pos.arrived abb2.generation = false ∧
      (pc u).abb2Pos.entering = false := fun u => by
    rcases h.abb2Pos_setsUp (by rw [ht]; rfl) u with hu | hu
    · rw [hu]
      exact ⟨rfl, rfl, rfl⟩
    · obtain ⟨h1, h2, -⟩ := WaitPc.leaving_not_arrived hu
      refine ⟨?_, h1, h2⟩
      by_contra hl
      simp [WaitPc.arrived, hl] at h1
  have hok : BarOk num { abb2 with awaited := reinitCount n } fun u => (pc u).abb2Pos :=
    ⟨h.abb2Ok.aligned, fun u => (h.abb2Ok.posOk u).congr rfl rfl, h.abb2Ok.out, h.abb2Ok.sleep⟩
  refine
    { main := by rw [hm']; rfl
      workers := fun u hu hlt => by rw [hm', hp', Function.update_of_ne hu]; exact hwork u hu hlt
      outside := fun u hu => by rw [Function.update_of_ne (by omega), h.outside u hu]
      abbInv := by
        rw [hpos]
        exact h.abbInv.enter h0 (Finset.mem_range.mpr h0) (by rw [ht]; rfl)
      abbTotal := h.abbTotal
      abb2Ok := by rw [hpos2]; exact hok
      abb2Two := h.abb2Two
      abb2Inv := fun _ => ?_
      round := fun _ => ?_ }
  · rw [hpos2, hm', hp']
    refine { hok with
      card_le := ?_, total_le := ?_, mem := fun u hu => ?_,
      phase := .inl ⟨fun u => (hgone u).1, ?_, ?_⟩ }
    · show (participants num _ flag).card ≤ abb2.total.toNat
      rw [htot, hcount, hflag]
      calc (participants num _ (reinitFlag abb.generation n)).card
          ≤ (Finset.range n).card := Finset.card_le_card fun u hu =>
            Finset.mem_range.mpr (lt_of_takesPart (Finset.mem_filter.mp hu).2)
        _ = n := Finset.card_range n
    · show abb2.total.toNat ≤ 10000000
      rw [htot, hcount]
      exact hn.trans h.num_le
    · have := hgone u
      rw [this.2.2] at hu
      rcases hu with hu | hu
      · cases hu
      · rw [show (pc u).abb2Pos.arrived abb2.generation = true from hu] at this
        cases this.2.1
    · intro hc
      have : (reinitCount n).toNat = 0 := by rw [show reinitCount n = 0 from hc]; rfl
      omega
    · show (reinitCount n).toNat + countThreads _ (WaitPc.arrived abb2.generation) _ =
          abb2.total.toNat
      rw [countThreads_eq_zero fun u _ => (hgone u).2.1, htot, Nat.add_zero]
  · rw [hm', hp']
    exact ⟨n, abb.generation, hn2, hn, hflag, rfl, fun _ => by rw [htot, hcount]⟩

end Step

/-! ### Runs -/

section Runs

variable {num : ℕ} {flag : U32} {s s' : State} {a : Act}

/-- The phase the gang is in. -/
def State.phase (s : State) : Phase := phaseOf s.abb.generation s.abb2.generation (s.pc 0)

/-- The invariant of a gang that has not been destroyed. -/
structure GangInv (num : ℕ) (s : State) : Prop where
  alive : s.shutdown = false
  core : Core num s.abb s.abb2 s.flag s.pc

/-- The step does not destroy the gang, and publishes no flag that misleads a thread. -/
def Honest (num : ℕ) (s : State) (a : Act) : Prop :=
  a ≠ .destroy ∧ ∀ n f, s.pc 0 = .storeFlag n f → a = .thread 0 →
    NoneMisled num s.abb.generation f s.pc

theorem takesPart_iff_mem (hp : s.phase = .running) {t : ℕ} (ht : t < num) :
    t ∈ participants num
      (roundGen (phaseOf s.abb.generation s.abb2.generation (s.pc 0)) s.abb.generation) s.flag ↔
      takesPart s.abb.generation s.flag t = true := by
  rw [show phaseOf _ _ _ = Phase.running from hp]
  simp [participants, roundGen, ht]

/-- Main takes a step of its own. -/
theorem GangInv.mainStep (h : GangInv num s) (h2 : 2 ≤ num)
    (hmis : ∀ n f, s.pc 0 = .storeFlag n f → NoneMisled num s.abb.generation f s.pc)
    (hs : s.threadStep num 0 = some s') : GangInv num s' := by
  have h0 : 0 < num := by omega
  have hc := h.core
  have hm := hc.main
  unfold State.threadStep at hs
  cases hpc : s.pc 0 with
  | abb w =>
    rw [hpc] at hs
    obtain ⟨⟨bar', w'⟩, hb, rfl⟩ := Option.map_eq_some_iff.mp hs
    exact ⟨h.alive, (hc.abbStep h2 h0 hpc hb).1⟩
  | abb2 w =>
    rw [hpc] at hs
    obtain ⟨⟨bar', w'⟩, hb, rfl⟩ := Option.map_eq_some_iff.mp hs
    exact ⟨h.alive, (hc.abb2Step h0 hpc hb).1⟩
  | checkShutdown =>
    rw [hpc] at hs
    obtain rfl := Option.some.inj hs
    rw [h.alive]
    exact ⟨h.alive, hc.mainMove h0 (by rw [hpc]; rfl) (by rw [hpc]; rfl) (.inl rfl) (.inl rfl)
      (by rw [hpc]; rfl)
      (by rw [hpc]; rfl) trivial⟩
  | loadState =>
    rw [hpc] at hs
    obtain rfl := Option.some.inj hs
    exact ⟨h.alive, hc.mainMove h0 (by rw [hpc]; rfl) (by rw [hpc]; rfl) (.inl rfl) (.inl rfl)
      (by rw [hpc]; rfl)
      (by rw [hpc]; rfl) rfl⟩
  | loadFlag state =>
    rw [hpc] at hs hm
    obtain rfl := Option.some.inj hs
    obtain rfl : state = s.abb.generation := hm
    by_cases hr : takesPart s.abb.generation s.flag 0 = true
    · rw [show skips s.abb.generation s.flag 0 = false by simpa [takesPart] using hr]
      exact ⟨h.alive, hc.mainMove h0 (by rw [hpc]; rfl) (by rw [hpc]; rfl) (.inl rfl) (.inl rfl)
        (by rw [hpc]; rfl)
        (by rw [hpc]; rfl) hr⟩
    · rw [show skips s.abb.generation s.flag 0 = true by simpa [takesPart] using hr]
      exact ⟨h.alive, hc.mainSkips h0 hpc (by simpa using hr)⟩
  | callTasks =>
    rw [hpc] at hs hm
    obtain rfl := Option.some.inj hs
    exact ⟨h.alive, hc.mainMove h0 (by rw [hpc]; rfl) (by rw [hpc]; rfl) (.inl rfl) (.inl rfl)
      (by rw [hpc]; rfl)
      (by rw [hpc]; rfl) hm⟩
  | inTasks =>
    rw [hpc] at hs hm
    obtain rfl := Option.some.inj hs
    refine ⟨h.alive, hc.mainMove h0 (by rw [hpc]; rfl) (by rw [hpc]; rfl) (.inl rfl)
      (.inr ⟨rfl, by rw [hpc]; rfl, ?_⟩)
      ?_ (by rw [hpc]; rfl) ⟨rfl, hm⟩⟩
    · exact (takesPart_iff_mem (by rw [State.phase, hpc]; rfl) h0).mpr hm
    · rw [hpc]
      simp [phaseOf, WaitPc.leaving, WaitPc.waking, WaitPc.saved]
  | resetTasks n =>
    rw [hpc] at hs hm
    obtain rfl := Option.some.inj hs
    unfold State.reset
    by_cases h1 : n = 1
    · rw [if_pos h1]
      exact ⟨h.alive, hc.mainMove h0 (by rw [hpc]; rfl) (by rw [hpc]; rfl) (.inl rfl) (.inl rfl)
        (by rw [hpc]; rfl)
        (by rw [hpc]; rfl) trivial⟩
    · rw [if_neg h1]
      have hm' : 1 ≤ n ∧ n ≤ num := hm
      exact ⟨h.alive, hc.mainMove h0 (by rw [hpc]; rfl) (by rw [hpc]; rfl) (.inl rfl) (.inl rfl)
        (by rw [hpc]; rfl)
        (by rw [hpc]; rfl) (show 2 ≤ n ∧ n ≤ num by omega)⟩
  | inlineTasks =>
    rw [hpc] at hs
    obtain rfl := Option.some.inj hs
    exact ⟨h.alive, hc.mainMove h0 (by rw [hpc]; rfl) (by rw [hpc]; rfl) (.inl rfl) (.inl rfl)
      (by rw [hpc]; rfl)
      (by rw [hpc]; rfl) trivial⟩
  | reinitLoad n =>
    rw [hpc] at hs hm
    obtain rfl := Option.some.inj hs
    exact ⟨h.alive, hc.mainMove h0 (by rw [hpc]; rfl) (by rw [hpc]; rfl) (.inl rfl) (.inl rfl)
      (by rw [hpc]; rfl)
      (by rw [hpc]; rfl) ⟨hm.1, hm.2, rfl⟩⟩
  | storeFlag n f =>
    rw [hpc] at hs
    obtain rfl := Option.some.inj hs
    exact ⟨h.alive, hc.storeFlag hpc (hmis n f hpc)⟩
  | storeTotal n =>
    rw [hpc] at hs
    obtain rfl := Option.some.inj hs
    exact ⟨h.alive, hc.storeTotal hpc⟩
  | storeAwaited n =>
    rw [hpc] at hs
    obtain rfl := Option.some.inj hs
    exact ⟨h.alive, hc.storeAwaited hpc⟩
  | idle => rw [hpc] at hs; cases hs
  | _ => rw [hpc] at hm; exact absurd hm id

/-- A worker takes a step. -/
theorem GangInv.workerStep (h : GangInv num s) (h2 : 2 ≤ num) {t : ℕ} (h0 : t ≠ 0) (ht : t < num)
    (hs : s.threadStep num t = some s') : GangInv num s' := by
  have hc := h.core
  have hw := hc.workers t h0 ht
  unfold State.threadStep at hs
  cases hpc : s.pc t with
  | abb w =>
    rw [hpc] at hs
    obtain ⟨⟨bar', w'⟩, hb, rfl⟩ := Option.map_eq_some_iff.mp hs
    exact ⟨h.alive, (hc.abbStep h2 ht hpc hb).1⟩
  | abb2 w =>
    rw [hpc] at hs
    obtain ⟨⟨bar', w'⟩, hb, rfl⟩ := Option.map_eq_some_iff.mp hs
    exact ⟨h.alive, (hc.abb2Step ht hpc hb).1⟩
  | checkShutdown =>
    rw [hpc] at hs hw
    obtain rfl := Option.some.inj hs
    rw [h.alive]
    exact ⟨h.alive, hc.workerMove ht h0 (by rw [hpc]; rfl) (by rw [hpc]; rfl) (.inl rfl)
      (.inl rfl) hw⟩
  | loadState =>
    rw [hpc] at hs hw
    obtain rfl := Option.some.inj hs
    exact ⟨h.alive, hc.workerMove ht h0 (by rw [hpc]; rfl) (by rw [hpc]; rfl) (.inl rfl)
      (.inl rfl) ⟨rfl, hw⟩⟩
  | loadFlag state =>
    rw [hpc] at hs hw
    obtain rfl := Option.some.inj hs
    obtain ⟨rfl, hw⟩ := hw
    by_cases hr : takesPart s.abb.generation s.flag t = true
    · rw [show skips s.abb.generation s.flag t = false by simpa [takesPart] using hr]
      exact ⟨h.alive, hc.workerMove ht h0 (by rw [hpc]; rfl) (by rw [hpc]; rfl)
        (.inl rfl) (.inl rfl)
        ⟨hw.resolve_right (by rw [hr]; decide), hr⟩⟩
    · rw [show skips s.abb.generation s.flag t = true by simpa [takesPart] using hr]
      have hb : Pc.back t = .abb .start := if_neg h0
      refine ⟨h.alive, ?_⟩
      show Core num s.abb s.abb2 s.flag (Function.update s.pc t (Pc.back t))
      rw [hb]
      refine hc.workerMove ht h0 (by rw [hpc]; rfl) (by rw [hpc]; rfl) (.inr rfl)
        (.inl rfl) ⟨rfl, ?_⟩
      rw [if_neg (by simp [WaitPc.leaving, WaitPc.waking, WaitPc.saved])]
      exact fun _ => by simpa using hr
  | callTasks =>
    rw [hpc] at hs hw
    obtain rfl := Option.some.inj hs
    exact ⟨h.alive, hc.workerMove ht h0 (by rw [hpc]; rfl) (by rw [hpc]; rfl) (.inl rfl)
      (.inl rfl) hw⟩
  | inTasks =>
    rw [hpc] at hs hw
    obtain rfl := Option.some.inj hs
    refine ⟨h.alive, hc.workerMove ht h0 (by rw [hpc]; rfl) (by rw [hpc]; rfl) (.inl rfl)
      (.inr ⟨rfl, ?_, ?_⟩)
      ⟨rfl, ?_⟩⟩
    · have hp := hw.1
      cases hm : s.pc 0 <;> rw [hm] at hp <;> first | rfl | cases hp
    · exact (takesPart_iff_mem hw.1 ht).mpr hw.2
    · rw [if_neg (by simp [WaitPc.leaving, WaitPc.waking, WaitPc.saved])]
      exact hw
  | _ => rw [hpc] at hw; exact absurd hw id

/-- **The invariant is kept by every honest step.** -/
theorem GangInv.step (h : GangInv num s) (h2 : 2 ≤ num) (ha : Honest num s a)
    (hs : step num s a = some s') :
    GangInv num s' := by
  have h0 : 0 < num := by omega
  cases a with
  | thread t =>
    simp only [Gang.step] at hs
    split_ifs at hs with ht
    by_cases ht0 : t = 0
    · rw [ht0] at hs
      exact h.mainStep h2 (fun n f hf => ha.2 n f hf (by rw [ht0])) hs
    · exact h.workerStep h2 ht0 ht hs
  | submit n =>
    simp only [Gang.step] at hs
    split_ifs at hs with hi hn
    · obtain rfl := Option.some.inj hs
      exact h
    · obtain rfl := Option.some.inj hs
      have hpc := State.isIdle_iff.mp hi.1
      exact ⟨h.alive, h.core.mainMove h0 (by rw [hpc]; rfl) (by rw [hpc]; rfl) (.inl rfl) (.inl rfl)
        (by rw [hpc]; rfl) (by rw [hpc]; rfl) (show 1 ≤ n ∧ n ≤ num by omega)⟩
  | destroy => exact absurd rfl ha.1

/-- And so it holds in every run of honest steps. -/
theorem gangInv_reach (h2 : 2 ≤ num) (hn : num ≤ 10000000)
    (h : (system num flag).Reach (Honest num) s) :
    GangInv num s :=
  h.invariant (fun _ hi => hi ▸ ⟨rfl, core_start h2 hn⟩) fun _ _ _ _ hI ha hs => hI.step h2 ha hs

end Runs

end NetworkDemo.Gang
