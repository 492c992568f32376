import NetworkDemo.Foundations.Runs
import NetworkDemo.Sync.AbBarrier

/-!
# The invariant of a barrier round

What is true of a barrier and of the positions of its threads, whoever uses it. A
set `T` of threads takes part in the round; a thread outside `T` may still be
leaving an earlier one. `BarInv` says that either the round is open, and `awaited`
and the threads that have arrived add up to `total`, or every thread of `T` has
arrived and exactly one of them, the last, is about to advance the generation.

A thread that waits has saved the generation of its round, so it is known by
`saved` alone whether it has arrived in this round (`arrived`) or is leaving the
one before (`leaving`); this needs only the last two generations to differ, not
all of them, so it survives the wrap of the word. A sleeper that is leaving is
about to be woken (`sleep`).

`step_cases` says once what an access can do, and `BarInv.step` that the
invariant is kept.
-/

namespace NetworkDemo.Sync

open Foundations

/-! ### Kinds of positions -/

/-- The generation a waiting thread has saved. -/
def WaitPc.saved : WaitPc → Option U32
  | .loadAwaited s | .spin s _ | .futexWait s | .asleep s | .reload s => some s
  | _ => none

/-- In `ab_barrier_wait_start`. -/
def WaitPc.entering : WaitPc → Bool
  | .start | .decrement _ => true
  | _ => false

/-- About to decrement `awaited`. -/
def WaitPc.arriving : WaitPc → Bool
  | .decrement _ => true
  | _ => false

/-- Past the decrement and not yet back. -/
def WaitPc.past : WaitPc → Bool
  | .start | .decrement _ | .ret => false
  | _ => true

/-- Not in a call. -/
def WaitPc.returned : WaitPc → Bool
  | .ret => true
  | _ => false

/-- The last thread, the generation not yet advanced. -/
def WaitPc.last : WaitPc → Bool
  | .loadTotal | .storeAwaited _ | .loadGeneration | .storeGeneration _ => true
  | _ => false

/-- The last thread, `awaited` not yet reset. -/
def WaitPc.unreset : WaitPc → Bool
  | .loadTotal | .storeAwaited _ => true
  | _ => false

/-- The last thread, the generation advanced and the sleepers not yet woken. -/
def WaitPc.waking : WaitPc → Bool
  | .testTotal | .wake => true
  | _ => false

/-- Arrived in the round of generation `g`. -/
def WaitPc.arrived (g : U32) (w : WaitPc) : Bool := w.last || w.saved == some g

/-- Leaving the round before. -/
def WaitPc.leaving (g : U32) (w : WaitPc) : Bool :=
  w.waking || (w.saved.isSome && w.saved != some g)

/-- A thread is in exactly one part of the call, or not in it. -/
theorem WaitPc.kinds (g : U32) (w : WaitPc) :
    w = .ret ∨ w.entering = true ∨ w.arrived g = true ∨ w.leaving g = true := by
  cases w <;> simp [entering, arrived, leaving, last, saved, waking] <;> exact em _

theorem WaitPc.past_eq (w : WaitPc) : w.past = (!w.entering && !w.returned) := by cases w <;> rfl

theorem WaitPc.returned_iff {w : WaitPc} : w.returned = true ↔ w = .ret := by
  cases w <;> simp [returned]

theorem WaitPc.leaving_not_arrived {g : U32} {w : WaitPc} (h : w.leaving g = true) :
    w.arrived g = false ∧ w.entering = false ∧ w ≠ .ret := by
  cases w <;> simp_all [entering, arrived, leaving, last, saved, waking]

theorem WaitPc.leaving_not_unreset {g : U32} {w : WaitPc} (h : w.leaving g = true) :
    w.unreset = false := by
  cases w <;> simp_all [leaving, unreset, saved, waking]

theorem WaitPc.arrived_not_entering {g : U32} {w : WaitPc} (h : w.arrived g = true) :
    w.entering = false ∧ w.waking = false ∧ w ≠ .ret := by
  cases w <;> simp_all [entering, arrived, last, saved, waking]

@[simp] theorem WaitPc.ret_arrived (g : U32) : WaitPc.ret.arrived g = false := rfl

@[simp] theorem WaitPc.ret_leaving (g : U32) : WaitPc.ret.leaving g = false := rfl

theorem WaitPc.saved_of_arrived {g : U32} {w : WaitPc} (h : w.arrived g = true) :
    w.last = true ∨ w.saved = some g := by
  simpa [arrived] using h

/-- Who has saved the generation waits. -/
theorem WaitPc.of_saved {s : U32} {w : WaitPc} (h : w.saved = some s) :
    w.arriving = false ∧ w.returned = false ∧ w.entering = false ∧ w.last = false ∧
    w.unreset = false ∧ w.waking = false := by
  cases w <;> first | exact ⟨rfl, rfl, rfl, rfl, rfl, rfl⟩ | cases h

/-- Waking a sleeper changes neither what it saved nor its part of the call. -/
@[simp] theorem WaitPc.saved_others (w p : WaitPc) : (w.others p).saved = p.saved := by
  cases w <;> first | rfl | (cases p <;> rfl)

@[simp] theorem WaitPc.entering_others (w p : WaitPc) : (w.others p).entering = p.entering := by
  cases w <;> first | rfl | (cases p <;> rfl)

@[simp] theorem WaitPc.returned_others (w p : WaitPc) : (w.others p).returned = p.returned := by
  cases w <;> first | rfl | (cases p <;> rfl)

@[simp] theorem WaitPc.past_others (w p : WaitPc) : (w.others p).past = p.past := by
  simp [past_eq]

@[simp] theorem WaitPc.last_others (w p : WaitPc) : (w.others p).last = p.last := by
  cases w <;> first | rfl | (cases p <;> rfl)

@[simp] theorem WaitPc.unreset_others (w p : WaitPc) : (w.others p).unreset = p.unreset := by
  cases w <;> first | rfl | (cases p <;> rfl)

@[simp] theorem WaitPc.waking_others (w p : WaitPc) : (w.others p).waking = p.waking := by
  cases w <;> first | rfl | (cases p <;> rfl)

@[simp] theorem WaitPc.arrived_others (g : U32) (w p : WaitPc) :
    (w.others p).arrived g = p.arrived g := by
  simp [arrived]

@[simp] theorem WaitPc.leaving_others (g : U32) (w p : WaitPc) :
    (w.others p).leaving g = p.leaving g := by
  simp [leaving]

theorem WaitPc.others_eq_ret {w p : WaitPc} : w.others p = .ret ↔ p = .ret := by
  cases w <;> first | exact Iff.rfl | (cases p <;> simp [others, wakeUp])

/-- Nothing but a sleep ends up asleep. -/
theorem WaitPc.asleep_of_others {w p : WaitPc} {s : U32} (h : w.others p = .asleep s) :
    w ≠ .wake ∧ p = .asleep s := by
  cases w with
  | wake => cases p <;> simp [others, wakeUp] at h
  | _ => exact ⟨by simp, h⟩

/-! ### What an access can do -/

/-- What a thread remembers is true: of the barrier as it is, or, once it has waited long
enough, of the generation before. -/
def AbBarrier.PosOk (bar : AbBarrier) : WaitPc → Prop
  | .decrement r => r = bar.generation
  | .storeAwaited v => v = bar.total
  | .storeGeneration v => v = bar.generation
  | w => ∀ s, w.saved = some s → s = bar.generation ∨ s + BAR_INCR = bar.generation

theorem AbBarrier.PosOk.saved {bar : AbBarrier} {w : WaitPc} (h : bar.PosOk w) {s : U32}
    (hs : w.saved = some s) : s = bar.generation ∨ s + BAR_INCR = bar.generation := by
  cases w <;> first | exact h s hs | cases hs

theorem AbBarrier.posOk_of_saved {bar : AbBarrier} {w : WaitPc} {s : U32} (hs : w.saved = some s)
    (h : s = bar.generation ∨ s + BAR_INCR = bar.generation) : bar.PosOk w := by
  have hall : ∀ r, w.saved = some r → r = bar.generation ∨ r + BAR_INCR = bar.generation := by
    intro r hr
    rw [hs] at hr
    obtain rfl := Option.some.inj hr
    exact h
  cases w <;> first | exact hall | cases hs

/-- Who neither enters, nor waits, nor closes the round remembers nothing. -/
theorem AbBarrier.posOk_of_none {bar : AbBarrier} {w : WaitPc} (hs : w.saved = none)
    (he : w.entering = false) (hl : w.last = false) : bar.PosOk w := by
  have hall : ∀ r, w.saved = some r → r = bar.generation ∨ r + BAR_INCR = bar.generation := by
    intro r hr
    rw [hs] at hr
    cases hr
  cases w <;> first | exact hall | (cases he; done) | cases hl

theorem AbBarrier.posOk_others {bar : AbBarrier} {w p : WaitPc} (h : bar.PosOk p) :
    bar.PosOk (w.others p) := by
  cases w <;> first | exact h | (cases p <;> exact h)

/-- A barrier that differs only in `awaited` agrees with the same memories. -/
theorem AbBarrier.PosOk.congr {bar bar' : AbBarrier} (hg : bar'.generation = bar.generation)
    (ht : bar'.total = bar.total) {w : WaitPc} (h : bar.PosOk w) : bar'.PosOk w := by
  cases w <;> simp only [PosOk, hg, ht] at h ⊢ <;> exact h

/-- The total matters only to the thread that closes the round. -/
theorem AbBarrier.PosOk.congr_of_not_unreset {bar bar' : AbBarrier}
    (hg : bar'.generation = bar.generation) {w : WaitPc} (hu : w.unreset = false)
    (h : bar.PosOk w) : bar'.PosOk w := by
  cases w <;> simp only [PosOk, hg] at h ⊢ <;> first | exact h | cases hu

/-- An access that leaves the barrier as it is and the thread in the same part of the round. -/
structure Quiet (bar : AbBarrier) (w w' : WaitPc) : Prop where
  arriving : w.arriving = false
  inCall : w.returned = false
  entering : w'.entering = w.entering
  last : w'.last = w.last
  unreset : w'.unreset = w.unreset
  arrived : w'.arrived bar.generation = w.arrived bar.generation
  leaving : w'.leaving bar.generation = w.leaving bar.generation ∨ w' = .ret
  posOk : bar.PosOk w'
  asleep : ∀ s, w' = .asleep s → s = bar.generation
  waking : w.waking = true → w'.waking = true ∨ w = .wake ∨ ¬ 1 < bar.total

section Quiet

variable {bar : AbBarrier} {w w' : WaitPc} {s : U32}

/-- The thread goes on in the same part of the call. -/
theorem Quiet.of_same (harr : w.arriving = false) (hin : w.returned = false)
    (hent : w'.entering = w.entering) (hlast : w'.last = w.last) (hunr : w'.unreset = w.unreset)
    (hsav : w'.saved = w.saved) (hwak : w'.waking = w.waking) (hpos : bar.PosOk w')
    (hasleep : ∀ r, w' = .asleep r → r = bar.generation) : Quiet bar w w' where
  arriving := harr
  inCall := hin
  entering := hent
  last := hlast
  unreset := hunr
  arrived := by rw [WaitPc.arrived, WaitPc.arrived, hlast, hsav]
  leaving := .inl (by rw [WaitPc.leaving, WaitPc.leaving, hwak, hsav])
  posOk := hpos
  asleep := hasleep
  waking h := .inl (hwak.trans h)

/-- It goes on waiting. -/
theorem Quiet.waiting (hs : w.saved = some s) (hs' : w'.saved = some s) (hpos : bar.PosOk w)
    (hasleep : ∀ r, w' = .asleep r → r = bar.generation) : Quiet bar w w' := by
  obtain ⟨harr, hret, hent, hlast, hunr, hwak⟩ := WaitPc.of_saved hs
  obtain ⟨-, -, hent', hlast', hunr', hwak'⟩ := WaitPc.of_saved hs'
  exact .of_same harr hret (hent'.trans hent.symm) (hlast'.trans hlast.symm) (hunr'.trans hunr.symm)
    (hs'.trans hs.symm)
    (hwak'.trans hwak.symm) (AbBarrier.posOk_of_saved hs' (hpos.saved hs)) hasleep

/-- It has waited long enough. -/
theorem Quiet.waited (hs : w.saved = some s) (hne : s ≠ bar.generation) : Quiet bar w .ret := by
  obtain ⟨harr, hret, hent, hlast, hunr, hwak⟩ := WaitPc.of_saved hs
  have harrived : w.arrived bar.generation = false := by
    rw [WaitPc.arrived, hlast, hs, Bool.false_or]
    exact beq_eq_false_iff_ne.mpr fun e => hne (Option.some.inj e)
  exact
    { arriving := harr
      inCall := hret
      entering := hent.symm
      last := hlast.symm
      unreset := hunr.symm
      arrived := harrived.symm
      leaving := .inr rfl
      posOk := fun r hr => by cases hr
      asleep := fun r hr => by cases hr
      waking := fun h => by rw [hwak] at h; cases h }

/-- The last thread returns, the sleepers woken if there are any. -/
theorem Quiet.woken (hw : w.waking = true) (h : w = .wake ∨ ¬ 1 < bar.total) :
    Quiet bar w .ret := by
  have hrest : w.arriving = false ∧ w.returned = false ∧ w.entering = false ∧ w.last = false ∧
      w.unreset = false ∧
      w.arrived bar.generation = false := by
    cases w <;> first | exact ⟨rfl, rfl, rfl, rfl, rfl, rfl⟩ | cases hw
  obtain ⟨harr, hret, hent, hlast, hunr, harrived⟩ := hrest
  exact
    { arriving := harr
      inCall := hret
      entering := hent.symm
      last := hlast.symm
      unreset := hunr.symm
      arrived := harrived.symm
      leaving := .inr rfl
      posOk := fun r hr => by cases hr
      asleep := fun r hr => by cases hr
      waking := fun _ => .inr h }

theorem AbBarrier.quiet_waitTurn (hs : w.saved = some s) (hw : bar.PosOk w) :
    Quiet bar w (bar.waitTurn s) := by
  unfold waitTurn
  split_ifs <;> exact .waiting hs rfl hw fun r hr => by cases hr

end Quiet

/-- **What an access can do**: leave the barrier alone; arrive; and, for the last thread, reset
`awaited` and then advance the generation; or give up, when `awaited` has overflowed. -/
theorem AbBarrier.step_cases {bar bar' : AbBarrier} {w w' : WaitPc} (ha : Aligned bar.generation)
    (hw : bar.PosOk w) (h : bar.step w = some (bar', w')) :
    (bar' = bar ∧ Quiet bar w w') ∨
    (w = .decrement bar.generation ∧ bar' = { bar with awaited := bar.awaited - 1 } ∧
      w' = if bar.awaited - 1 = 0 then .loadTotal else .loadAwaited bar.generation) ∨
    (w = .storeAwaited bar.total ∧ bar' = { bar with awaited := bar.total } ∧
      w' = .loadGeneration) ∨
    (w = .storeGeneration bar.generation ∧
      bar' = { bar with generation := bar.generation + BAR_INCR } ∧ w' = .testTotal) ∨
    (∃ s, w = .loadAwaited s ∧ BAR_OVERFLOW < bar.awaited ∧ bar' = bar ∧ w' = .ret) := by
  cases w with
  | start =>
    simp only [step, Option.some.injEq, Prod.mk.injEq] at h
    obtain ⟨rfl, rfl⟩ := h
    exact .inl ⟨rfl, .of_same rfl rfl rfl rfl rfl rfl rfl ha.and_neg_incr fun r hr => by cases hr⟩
  | decrement r =>
    obtain rfl : r = bar.generation := hw
    simp only [step, Option.some.injEq, Prod.mk.injEq] at h
    obtain ⟨rfl, rfl⟩ := h
    refine .inr (.inl ⟨rfl, rfl, ?_⟩)
    split
    · exact waitEnd_or_last _
    · exact ha.waitEnd
  | loadTotal =>
    simp only [step, Option.some.injEq, Prod.mk.injEq] at h
    obtain ⟨rfl, rfl⟩ := h
    exact .inl ⟨rfl, .of_same rfl rfl rfl rfl rfl rfl rfl rfl fun r hr => by cases hr⟩
  | storeAwaited v =>
    obtain rfl : v = bar.total := hw
    simp only [step, Option.some.injEq, Prod.mk.injEq] at h
    obtain ⟨rfl, rfl⟩ := h
    exact .inr (.inr (.inl ⟨rfl, rfl, rfl⟩))
  | loadGeneration =>
    simp only [step, Option.some.injEq, Prod.mk.injEq] at h
    obtain ⟨rfl, rfl⟩ := h
    exact .inl ⟨rfl, .of_same rfl rfl rfl rfl rfl rfl rfl rfl fun r hr => by cases hr⟩
  | storeGeneration v =>
    obtain rfl : v = bar.generation := hw
    simp only [step, Option.some.injEq, Prod.mk.injEq] at h
    obtain ⟨rfl, rfl⟩ := h
    exact .inr (.inr (.inr (.inl ⟨rfl, rfl, rfl⟩)))
  | testTotal =>
    simp only [step, Option.some.injEq, Prod.mk.injEq] at h
    obtain ⟨rfl, rfl⟩ := h
    refine .inl ⟨rfl, ?_⟩
    split_ifs with ht
    · exact .of_same rfl rfl rfl rfl rfl rfl rfl (fun r hr => by cases hr) fun r hr => by cases hr
    · exact .woken rfl (.inr ht)
  | wake =>
    simp only [step, Option.some.injEq, Prod.mk.injEq] at h
    obtain ⟨rfl, rfl⟩ := h
    exact .inl ⟨rfl, .woken rfl (.inl rfl)⟩
  | loadAwaited s =>
    simp only [step, Option.some.injEq, Prod.mk.injEq] at h
    obtain ⟨rfl, rfl⟩ := h
    by_cases hov : BAR_OVERFLOW < bar.awaited
    · exact .inr (.inr (.inr (.inr ⟨s, rfl, hov, rfl, if_pos hov⟩)))
    · rw [if_neg hov]
      exact .inl ⟨rfl, quiet_waitTurn rfl hw⟩
  | spin s i =>
    simp only [step, Option.some.injEq, Prod.mk.injEq] at h
    obtain ⟨rfl, rfl⟩ := h
    refine .inl ⟨rfl, ?_⟩
    split_ifs <;> exact .waiting rfl rfl hw fun r hr => by cases hr
  | futexWait s =>
    simp only [step, Option.some.injEq, Prod.mk.injEq] at h
    obtain ⟨rfl, rfl⟩ := h
    refine .inl ⟨rfl, ?_⟩
    split_ifs with hg
    · exact .waiting rfl rfl hw fun r hr => (WaitPc.asleep.inj hr).symm.trans hg.symm
    · exact .waiting rfl rfl hw fun r hr => by cases hr
  | asleep s => simp [step] at h
  | reload s =>
    simp only [step, Option.some.injEq, Prod.mk.injEq] at h
    obtain ⟨rfl, rfl⟩ := h
    refine .inl ⟨rfl, ?_⟩
    split_ifs with hg
    · exact quiet_waitTurn rfl hw
    · exact .waited rfl fun e => hg e.symm
  | ret => simp [step] at h

/-- What a move does not change of the thread that makes it, it changes of no thread. -/
theorem movePos_congr {β : Type} {f : WaitPc → β} (hf : ∀ w p : WaitPc, f (w.others p) = f p)
    {pos : ℕ → WaitPc} {t : ℕ} {w' : WaitPc} (ht : f w' = f (pos t)) (u : ℕ) :
    f (movePos pos t w' u) = f (pos u) := by
  by_cases hu : u = t
  · rw [hu, movePos_self, ht]
  · rw [movePos_of_ne hu, hf]

/-! ### The invariant -/

/-- What holds of a barrier and of the positions of its threads, those below `N`, whoever takes
part in the round. -/
structure BarOk (N : ℕ) (bar : AbBarrier) (pos : ℕ → WaitPc) : Prop where
  /-- The low bits of the generation are clear. -/
  aligned : Aligned bar.generation
  /-- What the threads remember is true. -/
  posOk : ∀ u, bar.PosOk (pos u)
  /-- Only threads are in the barrier. -/
  out : ∀ u, N ≤ u → pos u = .ret
  /-- A sleeper whose round is over is about to be woken. -/
  sleep : ∀ u s, pos u = .asleep s → s ≠ bar.generation → ∃ v, (pos v).waking = true

/-- The round is open: `awaited` counts the arrivals still missing. -/
structure BarOpen (bar : AbBarrier) (T : Finset ℕ) (pos : ℕ → WaitPc) : Prop where
  noLast : ∀ u, (pos u).last = false
  awaited_ne : bar.awaited ≠ 0
  count : bar.awaited.toNat + countThreads T (WaitPc.arrived bar.generation) pos = bar.total.toNat

/-- Every thread of the round has arrived, and thread `t`, the last, is closing it. -/
structure BarClosing (bar : AbBarrier) (T : Finset ℕ) (pos : ℕ → WaitPc) (t : ℕ) : Prop where
  last : (pos t).last = true
  unique : ∀ u, (pos u).last = true → u = t
  all : ∀ u ∈ T, (pos u).arrived bar.generation = true
  full : T.card = bar.total.toNat
  awaited : bar.awaited = if (pos t).unreset then 0 else bar.total

/-- **The invariant of a round** in which the threads of `T` take part. -/
structure BarInv (N : ℕ) (bar : AbBarrier) (T : Finset ℕ) (pos : ℕ → WaitPc) : Prop
    extends BarOk N bar pos where
  card_le : T.card ≤ bar.total.toNat
  total_le : bar.total.toNat ≤ 10000000
  /-- Only a thread of the round enters or has arrived. -/
  mem : ∀ u, (pos u).entering = true ∨ (pos u).arrived bar.generation = true → u ∈ T
  phase : BarOpen bar T pos ∨ ∃ t, BarClosing bar T pos t

section Step

variable {N : ℕ} {bar bar' : AbBarrier} {T : Finset ℕ} {pos : ℕ → WaitPc} {t : ℕ} {w' : WaitPc}

/-- `awaited` never overflows in a round. -/
theorem BarInv.not_overflow (h : BarInv N bar T pos) : ¬ BAR_OVERFLOW < bar.awaited := by
  have ht := h.total_le
  rw [BitVec.lt_def, show BAR_OVERFLOW.toNat = 10000000 from rfl]
  rcases h.phase with ho | ⟨t, hc⟩
  · have := ho.count
    omega
  · rw [hc.awaited]
    split
    · exact Nat.not_lt_zero _
    · omega

/-- `futex_wake` is skipped only when it would wake nobody. -/
def Wakes (bar : AbBarrier) (pos : ℕ → WaitPc) : Prop := 1 < bar.total ∨ ∀ u s, pos u ≠ .asleep s

/-- Sleepers stay covered when a thread moves and the generation does not. -/
theorem BarOk.sleep_move (h : BarOk N bar pos) (hg : bar'.generation = bar.generation)
    (has : ∀ s, w' = .asleep s → s = bar.generation)
    (hwk : (pos t).waking = true → w'.waking = true ∨ pos t = .wake ∨ ∀ u s, pos u ≠ .asleep s)
    (u : ℕ) (s : U32) (hu : movePos pos t w' u = .asleep s) (hs : s ≠ bar'.generation) :
    ∃ v, (movePos pos t w' v).waking = true := by
  rw [hg] at hs
  by_cases hut : u = t
  · rw [hut, movePos_self] at hu
    exact absurd (has s hu) hs
  rw [movePos_of_ne hut] at hu
  obtain ⟨hne, hp⟩ := WaitPc.asleep_of_others hu
  obtain ⟨v, hv⟩ := h.sleep u s hp hs
  by_cases hvt : v = t
  · subst hvt
    rcases hwk hv with hw | hw | hw
    · exact ⟨v, by rwa [movePos_self]⟩
    · exact absurd hw hne
    · exact absurd hp (hw u s)
  · exact ⟨v, by rwa [movePos_of_ne hvt, WaitPc.waking_others]⟩

theorem BarOk.out_move (h : BarOk N bar pos) (ht : t < N) (u : ℕ) (hu : N ≤ u) :
    movePos pos t w' u = .ret := by
  rw [movePos_of_ne (by omega), h.out u hu, WaitPc.others_eq_ret]

/-- A quiet access keeps what holds of the positions. -/
theorem BarOk.quiet (h : BarOk N bar pos) (ht : t < N) (hq : Quiet bar (pos t) w')
    (h1 : Wakes bar pos) :
    BarOk N bar (movePos pos t w') where
  aligned := h.aligned
  posOk u := by
    by_cases hu : u = t
    · rw [hu, movePos_self]; exact hq.posOk
    · rw [movePos_of_ne hu]; exact AbBarrier.posOk_others (h.posOk u)
  out := h.out_move ht
  sleep := by
    refine h.sleep_move rfl hq.asleep fun hw => ?_
    rcases hq.waking hw with hw | hw | hw
    · exact .inl hw
    · exact .inr (.inl hw)
    · exact .inr (.inr (h1.resolve_left hw))

/-- A quiet access keeps the invariant. -/
theorem BarInv.quiet (h : BarInv N bar T pos) (ht : t < N) (hq : Quiet bar (pos t) w')
    (h1 : Wakes bar pos) :
    BarInv N bar T (movePos pos t w') := by
  have harr := movePos_congr (WaitPc.arrived_others bar.generation) hq.arrived
  have hlast := movePos_congr WaitPc.last_others hq.last
  refine { h.toBarOk.quiet ht hq h1 with
    card_le := h.card_le, total_le := h.total_le, mem := ?_, phase := ?_ }
  · intro u hu
    rw [harr, movePos_congr WaitPc.entering_others hq.entering] at hu
    exact h.mem u hu
  · rcases h.phase with ho | ⟨v, hc⟩
    · exact .inl ⟨fun u => by rw [hlast, ho.noLast], ho.awaited_ne,
        by rw [countThreads_congr fun u _ => harr u, ho.count]⟩
    · exact .inr ⟨v, by rw [hlast, hc.last], fun u hu => hc.unique u (by rwa [hlast] at hu),
        fun u hu => by rw [harr, hc.all u hu], hc.full,
        by rw [movePos_congr WaitPc.unreset_others hq.unreset, hc.awaited]⟩

/-- A thread arrives: it is counted, and closes the round if it is the last. -/
theorem BarInv.decrement (h : BarInv N bar T pos) (ht : t < N)
    (hw : pos t = .decrement bar.generation)
    (hw' : w' = if bar.awaited - 1 = 0 then .loadTotal else .loadAwaited bar.generation) :
    BarInv N { bar with awaited := bar.awaited - 1 } T (movePos pos t w') := by
  have htT : t ∈ T := h.mem t (.inl (by rw [hw]; rfl))
  have hold : (pos t).arrived bar.generation = false := by rw [hw]; rfl
  have hnew : w'.arrived bar.generation = true := by
    rw [hw']; split <;> simp [WaitPc.arrived, WaitPc.last, WaitPc.saved]
  have hent : w'.entering = false ∧ w'.waking = false ∧ ∀ s, w' ≠ .asleep s := by
    rw [hw']; split <;> simp [WaitPc.entering, WaitPc.waking]
  have hrest : ∀ u, u ≠ t → (movePos pos t w' u).arrived bar.generation =
      (pos u).arrived bar.generation :=
    fun u hu => by rw [movePos_of_ne hu, WaitPc.arrived_others]
  have ho : BarOpen bar T pos := h.phase.resolve_right fun ⟨v, hc⟩ => by
    rw [hc.all t htT] at hold
    cases hold
  have hcount :=
    countThreads_gain (g := movePos pos t w') htT hold (by rw [movePos_self]; exact hnew) hrest
  have hle := countThreads_le (T := T) (p := WaitPc.arrived bar.generation) (movePos pos t w')
  have hpos : 0 < bar.awaited.toNat := by
    have := ho.awaited_ne
    by_contra h0
    exact this (BitVec.eq_of_toNat_eq (by simpa using h0))
  have hsub : (bar.awaited - 1).toNat = bar.awaited.toNat - 1 := by bv_omega
  have hcard := h.card_le
  have hsum := ho.count
  refine
    { aligned := h.aligned, posOk := ?_, out := h.out_move ht, sleep := ?_, card_le := hcard,
      total_le := h.total_le, mem := ?_, phase := ?_ }
  · intro u
    refine AbBarrier.PosOk.congr (rfl : _ = bar.generation) rfl ?_
    by_cases hu : u = t
    · rw [hu, movePos_self, hw']
      split <;> simp [AbBarrier.PosOk, WaitPc.saved]
    · rw [movePos_of_ne hu]
      exact AbBarrier.posOk_others (h.posOk u)
  · refine h.sleep_move rfl (fun s hs => absurd hs (hent.2.2 s)) fun hwk => ?_
    rw [hw] at hwk
    cases hwk
  · intro u hu
    by_cases hut : u = t
    · rwa [hut]
    · rw [hrest u hut, movePos_of_ne hut, WaitPc.entering_others] at hu
      exact h.mem u hu
  · by_cases h0 : bar.awaited - 1 = 0
    · -- the last: everybody in `T` has arrived, and `T` is as large as `total`
      have h1 : (bar.awaited - 1).toNat = 0 := by rw [h0]; rfl
      rw [if_pos h0] at hw'
      refine .inr ⟨t, by rw [movePos_self, hw']; rfl, ?_, ?_, ?_,
        by rw [movePos_self, hw']; exact h0⟩
      · intro u hu
        by_contra hut
        rw [movePos_of_ne hut, WaitPc.last_others, ho.noLast] at hu
        cases hu
      · refine countThreads_eq_card_iff.mp (le_antisymm hle ?_)
        show T.card ≤ countThreads T (WaitPc.arrived bar.generation) (movePos pos t w')
        omega
      · show T.card = bar.total.toNat
        omega
    · rw [if_neg h0] at hw'
      refine .inl ⟨fun u => ?_, h0, ?_⟩
      · by_cases hut : u = t
        · rw [hut, movePos_self, hw']; rfl
        · rw [movePos_of_ne hut, WaitPc.last_others, ho.noLast]
      · show (bar.awaited - 1).toNat + countThreads T (WaitPc.arrived bar.generation)
            (movePos pos t w') =
          bar.total.toNat
        omega

/-- The last thread resets `awaited`. -/
theorem BarInv.reset (h : BarInv N bar T pos) (ht : t < N) (hw : pos t = .storeAwaited bar.total) :
    BarInv N { bar with awaited := bar.total } T (movePos pos t .loadGeneration) := by
  have hlt : WaitPc.last .loadGeneration = (pos t).last := by rw [hw]; rfl
  have harr := movePos_congr (WaitPc.arrived_others bar.generation)
    (show WaitPc.arrived bar.generation .loadGeneration =
      (pos t).arrived bar.generation by rw [hw]; rfl)
  have hlast := movePos_congr WaitPc.last_others hlt
  obtain ⟨v, hc⟩ : ∃ v, BarClosing bar T pos v := h.phase.resolve_left fun ho => by
    have := ho.noLast t
    rw [hw] at this
    cases this
  obtain rfl : t = v := hc.unique t (by rw [hw]; rfl)
  refine
    { aligned := h.aligned, posOk := ?_, out := h.out_move ht, sleep := ?_, card_le := h.card_le,
      total_le := h.total_le, mem := ?_, phase := .inr ⟨t, ?_, ?_, ?_, hc.full, ?_⟩ }
  · intro u
    refine AbBarrier.PosOk.congr (rfl : _ = bar.generation) rfl ?_
    by_cases hu : u = t
    · rw [hu, movePos_self]
      simp [AbBarrier.PosOk, WaitPc.saved]
    · rw [movePos_of_ne hu]
      exact AbBarrier.posOk_others (h.posOk u)
  · refine h.sleep_move rfl (by simp) fun hwk => ?_
    rw [hw] at hwk
    cases hwk
  · intro u hu
    rw [harr, movePos_congr WaitPc.entering_others (by rw [hw]; rfl)] at hu
    exact h.mem u hu
  · rw [hlast, hc.last]
  · exact fun u hu => hc.unique u (by rwa [hlast] at hu)
  · exact fun u hu => by rw [harr, hc.all u hu]
  · rw [movePos_self]; rfl

/-- The last thread advances the generation: the next round is open, and everybody is leaving
this one. -/
theorem BarInv.advance (h : BarInv N bar T pos) (ht : t < N)
    (hw : pos t = .storeGeneration bar.generation) (hout : ∀ u, u ∉ T → (pos u).saved = none) :
    BarInv N { bar with generation := bar.generation + BAR_INCR } T (movePos pos t .testTotal) ∧
      (∀ u ∈ T, (pos u).arrived bar.generation = true ∧
        (movePos pos t .testTotal u).leaving (bar.generation + BAR_INCR) = true) := by
  obtain ⟨v, hc⟩ : ∃ v, BarClosing bar T pos v := h.phase.resolve_left fun ho => by
    have := ho.noLast t
    rw [hw] at this
    cases this
  obtain rfl : t = v := hc.unique t (by rw [hw]; rfl)
  -- every other thread of the round waits with the generation that is now over
  have hsaved : ∀ u, u ≠ t → u ∈ T → (pos u).saved = some bar.generation := fun u hut hu =>
    (WaitPc.saved_of_arrived (hc.all u hu)).resolve_left fun hl => hut (hc.unique u hl)
  have hleave : ∀ u ∈ T, (movePos pos t .testTotal u).leaving (bar.generation + BAR_INCR) =
      true := by
    intro u hu
    by_cases hut : u = t
    · rw [hut, movePos_self]; rfl
    · rw [movePos_of_ne hut, WaitPc.leaving_others, WaitPc.leaving, hsaved u hut hu]
      simp [(add_incr_ne bar.generation).symm]
  have hnot : ∀ u, (movePos pos t .testTotal u).last = false ∧
      (movePos pos t .testTotal u).arrived (bar.generation + BAR_INCR) = false ∧
      (movePos pos t .testTotal u).entering = false := by
    intro u
    by_cases huT : u ∈ T
    · obtain ⟨h1, h2, -⟩ := WaitPc.leaving_not_arrived (hleave u huT)
      refine ⟨?_, h1, h2⟩
      by_contra hl
      simp [WaitPc.arrived, hl] at h1
    · have hut : u ≠ t := fun e => huT (e ▸ h.mem t (.inr (hc.all t (h.mem t (.inr (by
        rw [hw]; rfl))))))
      have hne := h.mem u |> mt <| huT
      rw [movePos_of_ne hut, WaitPc.last_others, WaitPc.arrived_others, WaitPc.entering_others]
      have hl : (pos u).last = false := by
        by_contra hl
        exact hut (hc.unique u (by simpa using hl))
      refine ⟨hl, by simp [WaitPc.arrived, hl, hout u huT], ?_⟩
      by_contra he
      exact hne (.inl (by simpa using he))
  have haw : bar.awaited = bar.total := by rw [hc.awaited, hw]; rfl
  have htot : bar.total ≠ 0 := by
    intro h0
    have htT : t ∈ T := h.mem t (.inr (by rw [hw]; rfl))
    have hpos := Finset.card_pos.mpr ⟨t, htT⟩
    have hf : T.card = 0 := by rw [hc.full, h0]; rfl
    omega
  refine ⟨{ aligned := h.aligned.add_incr, posOk := ?_, out := h.out_move ht, sleep := ?_,
            card_le := h.card_le, total_le := h.total_le, mem := ?_,
            phase := .inl ⟨fun u => (hnot u).1, ?_, ?_⟩ },
    fun u hu => ⟨hc.all u hu, hleave u hu⟩⟩
  · intro u
    by_cases hut : u = t
    · rw [hut, movePos_self]
      simp [AbBarrier.PosOk, WaitPc.saved]
    · rw [movePos_of_ne hut]
      apply AbBarrier.posOk_others
      have hnu := hnot u
      rw [movePos_of_ne hut, WaitPc.last_others, WaitPc.entering_others] at hnu
      by_cases huT : u ∈ T
      · exact AbBarrier.posOk_of_saved (hsaved u hut huT) (.inr rfl)
      · exact AbBarrier.posOk_of_none (hout u huT) hnu.2.2 hnu.1
  · exact fun u s _ _ => ⟨t, by rw [movePos_self]; rfl⟩
  · intro u hu
    rw [(hnot u).2.1, (hnot u).2.2] at hu
    simp at hu
  · rw [haw]; exact htot
  · show bar.awaited.toNat + _ = _
    rw [countThreads_eq_zero fun u _ => (hnot u).2.1, haw]; rfl

/-- **The invariant is kept by every access.** -/
theorem BarInv.step (h : BarInv N bar T pos) (ht : t < N) (h1 : Wakes bar pos)
    (hout : (pos t).last = true → ∀ u, u ∉ T → (pos u).saved = none)
    (hs : bar.step (pos t) = some (bar', w')) : BarInv N bar' T (movePos pos t w') := by
  rcases AbBarrier.step_cases h.aligned (h.posOk t) hs with
    ⟨rfl, hq⟩ | ⟨hw, rfl, hw'⟩ | ⟨hw, rfl, rfl⟩ | ⟨hw, rfl, rfl⟩ | ⟨s, -, hov, -⟩
  · exact h.quiet ht hq h1
  · exact h.decrement ht hw hw'
  · exact h.reset ht hw
  · exact (h.advance ht hw (hout (by rw [hw]; rfl))).1
  · exact absurd hov h.not_overflow

/-- A move that leaves a thread in the round or out of it as it was: the thread leaves the barrier
only when its round is over. -/
def Stays (g : U32) (w w' : WaitPc) : Prop :=
  w'.returned = false ∧ w'.leaving g = w.leaving g ∨ w' = .ret ∧ w.leaving g = true

/-- What a step does to the barrier as others see it: nothing, or it advances the generation. -/
theorem BarInv.step_stays (h : BarInv N bar T pos) (hs : bar.step (pos t) = some (bar', w')) :
    (bar'.generation = bar.generation ∧ bar'.total = bar.total ∧ Stays bar.generation (pos t) w') ∨
    (pos t = .storeGeneration bar.generation ∧
      bar' = { bar with generation := bar.generation + BAR_INCR } ∧ w' = .testTotal) := by
  rcases AbBarrier.step_cases h.aligned (h.posOk t) hs with
    ⟨rfl, hq⟩ | ⟨hw, rfl, hw'⟩ | ⟨hw, rfl, rfl⟩ | hadv | ⟨s, -, hov, -⟩
  · refine .inl ⟨rfl, rfl, ?_⟩
    by_cases hr : w' = .ret
    · -- it was not entering and had not arrived, so it was leaving
      subst hr
      have he := hq.entering
      have ha := hq.arrived
      refine .inr ⟨rfl, ?_⟩
      rcases WaitPc.kinds bar'.generation (pos t) with h1 | h1 | h1 | h1
      · have hc := hq.inCall
        rw [h1] at hc
        cases hc
      · rw [h1] at he; cases he
      · rw [h1] at ha; cases ha
      · exact h1
    · have hr' : w'.returned = false := by
        by_contra hc
        exact hr (WaitPc.returned_iff.mp (by simpa using hc))
      exact .inl ⟨hr', hq.leaving.resolve_right hr⟩
  · refine .inl ⟨rfl, rfl, .inl ?_⟩
    rw [hw, hw']
    split <;> simp [WaitPc.returned, WaitPc.leaving, WaitPc.waking, WaitPc.saved]
  · refine .inl ⟨rfl, rfl, .inl ?_⟩
    rw [hw]
    simp [WaitPc.returned, WaitPc.leaving, WaitPc.waking, WaitPc.saved]
  · exact .inr hadv
  · exact absurd hov h.not_overflow

/-- A thread of the round calls `ab_barrier_wait`. -/
theorem BarInv.enter (h : BarInv N bar T pos) (ht : t < N) (htT : t ∈ T) (hw : pos t = .ret) :
    BarInv N bar T (movePos pos t .start) := by
  have harr := movePos_congr (WaitPc.arrived_others bar.generation)
    (show WaitPc.arrived bar.generation .start = (pos t).arrived bar.generation by rw [hw]; rfl)
  have hlast :=
    movePos_congr WaitPc.last_others (show WaitPc.last .start = (pos t).last by rw [hw]; rfl)
  have hunr := movePos_congr WaitPc.unreset_others (show WaitPc.unreset .start =
    (pos t).unreset by rw [hw]; rfl)
  refine { aligned := h.aligned, posOk := ?_, out := h.out_move ht, sleep := ?_,
           card_le := h.card_le, total_le := h.total_le, mem := ?_, phase := ?_ }
  · intro u
    by_cases hu : u = t
    · rw [hu, movePos_self]; simp [AbBarrier.PosOk, WaitPc.saved]
    · rw [movePos_of_ne hu]; exact AbBarrier.posOk_others (h.posOk u)
  · refine h.sleep_move rfl (by simp) fun hwk => ?_
    rw [hw] at hwk
    cases hwk
  · intro u hu
    by_cases hut : u = t
    · rwa [hut]
    · rw [harr, movePos_of_ne hut, WaitPc.entering_others] at hu
      exact h.mem u hu
  · rcases h.phase with ho | ⟨v, hc⟩
    · exact .inl ⟨fun u => by rw [hlast, ho.noLast], ho.awaited_ne,
        by rw [countThreads_congr fun u _ => harr u, ho.count]⟩
    · exact .inr ⟨v, by rw [hlast, hc.last], fun u hu => hc.unique u (by rwa [hlast] at hu),
        fun u hu => by rw [harr, hc.all u hu], hc.full, by rw [hunr, hc.awaited]⟩

/-- A barrier just initialised for `count` threads, which have not come further than to its door. -/
theorem barInv_init {count : U32} {spin : Bool} (hT : T.card ≤ count.toNat)
    (hle : count.toNat ≤ 10000000) (h0 : count ≠ 0)
    (hpos : ∀ u, pos u = .ret ∨ pos u = .start ∧ u ∈ T ∧ u < N) :
    BarInv N (abBarrierInit count spin) T pos where
  aligned := aligned_zero
  posOk u := by rcases hpos u with h | ⟨h, -⟩ <;> rw [h] <;> simp [AbBarrier.PosOk, WaitPc.saved]
  out u hu := (hpos u).resolve_right fun ⟨_, _, h⟩ => by omega
  sleep u s h := by rcases hpos u with h' | ⟨h', -⟩ <;> rw [h'] at h <;> cases h
  card_le := hT
  total_le := hle
  mem u h := by
    rcases hpos u with h' | ⟨-, h', -⟩
    · rw [h'] at h
      simp [WaitPc.entering] at h
    · exact h'
  phase := by
    have harr : ∀ u, (pos u).last = false ∧ (pos u).arrived 0 = false := fun u => by
      rcases hpos u with h | ⟨h, -⟩ <;> rw [h] <;> exact ⟨rfl, rfl⟩
    refine .inl ⟨fun u => (harr u).1, h0, ?_⟩
    show count.toNat + countThreads T (WaitPc.arrived 0) pos = count.toNat
    rw [countThreads_eq_zero fun u _ => (harr u).2, Nat.add_zero]

/-- A thread that is leaving goes on leaving, whatever happens in the round. -/
theorem BarOk.leave (h : BarOk N bar pos) (ht : t < N) (hl : (pos t).leaving bar.generation = true)
    (h1 : Wakes bar pos) (hs : bar.step (pos t) = some (bar', w')) :
    bar' = bar ∧ Stays bar.generation (pos t) w' ∧ BarOk N bar (movePos pos t w') := by
  obtain ⟨hna, hne, hnr⟩ := WaitPc.leaving_not_arrived hl
  rcases AbBarrier.step_cases h.aligned (h.posOk t) hs with
    ⟨rfl, hq⟩ | ⟨hw, -, -⟩ | ⟨hw, -, -⟩ | ⟨hw, -, -⟩ | ⟨s, hw, -, rfl, rfl⟩
  · refine ⟨rfl, ?_, h.quiet ht hq h1⟩
    by_cases hr : w' = .ret
    · exact .inr ⟨hr, hl⟩
    · have hr' : w'.returned = false := by
        by_contra hc
        exact hr (WaitPc.returned_iff.mp (by simpa using hc))
      exact .inl ⟨hr', hq.leaving.resolve_right hr⟩
  · rw [hw] at hne; cases hne
  · rw [hw] at hna; cases hna
  · rw [hw] at hna; cases hna
  · refine ⟨rfl, .inr ⟨rfl, hl⟩,
      { aligned := h.aligned, posOk := fun u => ?_, out := h.out_move ht, sleep := ?_ }⟩
    · by_cases hu : u = t
      · rw [hu, movePos_self]; simp [AbBarrier.PosOk, WaitPc.saved]
      · rw [movePos_of_ne hu]; exact AbBarrier.posOk_others (h.posOk u)
    · refine h.sleep_move rfl (by simp) fun hwk => ?_
      rw [hw] at hwk
      cases hwk

/-! ### Progress -/

/-- When nobody is about to wake the sleepers, they sleep in the current round. -/
theorem BarOk.asleep_current (h : BarOk N bar pos) (hw : ∀ v, (pos v).waking = false)
    {u : ℕ} {s : U32} (hu : pos u = .asleep s) : s = bar.generation := by
  by_contra hs
  obtain ⟨v, hv⟩ := h.sleep u s hu hs
  rw [hw] at hv
  cases hv

/-- When nobody closes the round, a thread of the round has yet to arrive. -/
theorem BarInv.missing (h : BarInv N bar T pos) (hfull : T.card = bar.total.toNat)
    (hl : ∀ v, (pos v).last = false) : ∃ v ∈ T, (pos v).arrived bar.generation = false := by
  have ho : BarOpen bar T pos := h.phase.resolve_right fun ⟨v, hc⟩ => by
    have := hc.last
    rw [hl] at this
    cases this
  by_contra hall
  have hall' : ∀ v ∈ T, (pos v).arrived bar.generation = true := fun v hv => by
    by_contra hn
    exact hall ⟨v, hv, by simpa using hn⟩
  have := countThreads_eq_card_iff.mpr hall'
  have := ho.count
  have h0 : bar.awaited.toNat = 0 := by omega
  exact ho.awaited_ne (BitVec.eq_of_toNat_eq h0)

/-- A thread that cannot take a step is asleep, or not in the barrier. -/
theorem AbBarrier.step_eq_none {w : WaitPc} (h : bar.step w = none) :
    (∃ s, w = .asleep s) ∨ w = .ret := by
  cases w <;> simp_all [step]

end Step

end NetworkDemo.Sync
