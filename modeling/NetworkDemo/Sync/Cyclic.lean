import NetworkDemo.Sync.BarrierInvariant
import Mathlib.Data.ENat.Basic

/-!
# The cyclic barrier

`n` threads share one `ab_barrier_t` and each calls `ab_barrier_wait` again and
again, `calls t` times for thread `t`, possibly without end. A state keeps, beside
the barrier and the positions, what the rest of the section is about: how many
decrements of `awaited` each thread has made, from how many calls it has returned,
and which calls came back with `BAR_WAS_LAST`.

* `cyclic_barrier` — no thread returns from its `k`-th call before every thread
  has arrived for its own `k`-th; each round has one last thread; the early
  return of `ab_barrier_wait_end` is not taken; and the threads that have calls
  left are all blocked only when some thread has none left and made fewer.
* `unequal_calls_block` — which can happen: a barrier waits for every thread, so
  a thread that calls more often than another sleeps for good.

Nothing here bounds the number of rounds, so the generation may wrap.
-/

namespace NetworkDemo.Sync

open Foundations

/-! ### The system -/

/-- The barrier and the threads that use it. -/
structure Cyclic where
  /-- The barrier. -/
  bar : AbBarrier
  /-- Where each thread is. -/
  pos : ℕ → WaitPc
  /-- How many calls each thread has returned from. -/
  returned : ℕ → ℕ
  /-- How many decrements each thread has made. -/
  arrived : ℕ → ℕ
  /-- The calls that were last in their round: the number of the call, from `0`, and the thread. -/
  lasts : List (ℕ × ℕ)

namespace Cyclic

/-- Nobody has called. -/
def start (n : ℕ) (spin : Bool) : Cyclic :=
  ⟨abBarrierInit (BitVec.ofNat 32 n) spin, fun _ => .ret, fun _ => 0, fun _ => 0, []⟩

/-- Thread `t` has moved to `w'`. -/
def moved (s : Cyclic) (t : ℕ) (bar' : AbBarrier) (w' : WaitPc) : Cyclic where
  bar := bar'
  pos := movePos s.pos t w'
  returned := if w'.returned then Function.update s.returned t (s.returned t + 1) else s.returned
  arrived := if (s.pos t).arriving then Function.update s.arrived t (s.arrived t + 1) else s.arrived
  lasts := if (s.pos t).arriving && w'.last then s.lasts ++ [(s.arrived t, t)] else s.lasts

@[simp] theorem moved_bar (s : Cyclic) (t : ℕ) (bar' : AbBarrier) (w' : WaitPc) :
    (s.moved t bar' w').bar = bar' := rfl

@[simp] theorem moved_pos (s : Cyclic) (t : ℕ) (bar' : AbBarrier) (w' : WaitPc) :
    (s.moved t bar' w').pos = movePos s.pos t w' := rfl

/-- Thread `t` takes a step: it calls, if it has calls left, or goes on with its call. -/
def threadStep (calls : ℕ → ℕ∞) (s : Cyclic) (t : ℕ) : Option Cyclic :=
  match s.pos t with
  | .ret =>
    if (s.returned t : ℕ∞) < calls t then some { s with pos := movePos s.pos t .start } else none
  | w => (s.bar.step w).map fun (bar', w') => s.moved t bar' w'

/-- One step, of one of the `n` threads. -/
def step (n : ℕ) (calls : ℕ → ℕ∞) (s : Cyclic) (t : ℕ) : Option Cyclic :=
  if t < n then s.threadStep calls t else none

/-- The system of `n` threads on one barrier. -/
def system (n : ℕ) (spin : Bool) (calls : ℕ → ℕ∞) : Lts Cyclic ℕ where
  init s := s = start n spin
  step s t s' := step n calls s t = some s'

/-- Thread `t` has calls left, the one it is in included. -/
def HasCalls (calls : ℕ → ℕ∞) (s : Cyclic) (t : ℕ) : Prop := (s.returned t : ℕ∞) < calls t

/-- There are calls left, and every thread that has some is blocked. -/
def Stuck (n : ℕ) (calls : ℕ → ℕ∞) (s : Cyclic) : Prop :=
  (∃ t < n, s.HasCalls calls t) ∧ ∀ t < n, s.HasCalls calls t → s.threadStep calls t = none

/-! ### The invariant -/

/-- **The invariant**, in round `R`: a thread has made `R` decrements, and one more when it has
arrived; it has returned from as many calls, less the one it is waiting in. -/
structure Inv (n : ℕ) (calls : ℕ → ℕ∞) (s : Cyclic) (R : ℕ) : Prop where
  bar : BarInv n s.bar (Finset.range n) s.pos
  total : s.bar.total.toNat = n
  arrived : ∀ t < n, s.arrived t = R + ((s.pos t).arrived s.bar.generation).toNat
  returned : ∀ t < n, s.returned t + (s.pos t).past.toNat = s.arrived t
  /-- The rounds that are over have had their last thread, and so has this one when it is
  closing. -/
  lasts_one : ∀ k, (k < R ∨ k = R ∧ ∃ t, (s.pos t).last = true) →
    (s.lasts.filter fun e => e.1 = k).length = 1
  lasts_zero : ∀ k, (R < k ∨ k = R ∧ ∀ t, (s.pos t).last = false) →
    (s.lasts.filter fun e => e.1 = k).length = 0
  calls_le : ∀ t, (s.returned t : ℕ∞) ≤ calls t
  inCall : ∀ t, s.pos t ≠ .ret → s.HasCalls calls t

variable {n : ℕ} {calls : ℕ → ℕ∞} {s s' : Cyclic} {R t : ℕ} {spin : Bool}

theorem inv_start (h1 : 1 ≤ n) (hn : n ≤ 10000000) : Inv n calls (start n spin) 0 := by
  have hN : (BitVec.ofNat 32 n).toNat = n := by
    rw [BitVec.toNat_ofNat]
    exact Nat.mod_eq_of_lt (by omega)
  have h0 : BitVec.ofNat 32 n ≠ 0 := fun h0 => by
    have : (BitVec.ofNat 32 n).toNat = 0 := by rw [h0]; rfl
    omega
  exact
    { bar := barInv_init (by rw [Finset.card_range, hN]) (by rw [hN]; exact hn) h0 fun _ => .inl rfl
      total := hN
      arrived := fun _ _ => rfl
      returned := fun _ _ => rfl
      lasts_one := fun k hk => by simp [start, WaitPc.last] at hk
      lasts_zero := fun _ _ => rfl
      calls_le := fun _ => by simp [start]
      inCall := fun _ h => absurd rfl h }

/-- Returning uses up a call, and nothing else touches the calls. -/
theorem Inv.calls_moved (h : Inv n calls s R) (bar' : AbBarrier) (w' : WaitPc)
    (hne : s.pos t ≠ .ret) :
    (∀ u, ((s.moved t bar' w').returned u : ℕ∞) ≤ calls u) ∧
      ∀ u, (s.moved t bar' w').pos u ≠ .ret → (s.moved t bar' w').HasCalls calls u := by
  have hlt := h.inCall t hne
  unfold HasCalls at hlt
  refine ⟨fun u => ?_, fun u hu => ?_⟩
  · unfold moved
    dsimp only
    split
    · by_cases hut : u = t
      · subst hut
        rw [Function.update_self]
        exact_mod_cast Order.add_one_le_of_lt hlt
      · rw [Function.update_of_ne hut]
        exact h.calls_le u
    · exact h.calls_le u
  · by_cases hut : u = t
    · subst hut
      have hr : w'.returned = false := by
        by_contra hr
        exact hu (by simpa [moved] using WaitPc.returned_iff.mp (by simpa using hr))
      simpa [HasCalls, moved, hr] using hlt
    · have hu' : s.pos u ≠ .ret := fun e => hu (by
        simp only [moved, movePos_of_ne hut, WaitPc.others_eq_ret, e])
      have := h.inCall u hu'
      simp only [HasCalls, moved] at this ⊢
      split
      · rwa [Function.update_of_ne hut]
      · exact this

/-- An access that is no arrival changes no count but that of the returns. -/
theorem Inv.returned_moved (h : Inv n calls s R) (bar' : AbBarrier) (w' : WaitPc)
    (ha : (s.pos t).arriving = false) (hc : (s.pos t).returned = false)
    (he : w'.entering = (s.pos t).entering) :
    ∀ u < n, (s.moved t bar' w').returned u + ((s.moved t bar' w').pos u).past.toNat =
      (s.moved t bar' w').arrived u := by
  intro u hu
  have hold := h.returned u hu
  by_cases hut : u = t
  · subst hut
    rw [WaitPc.past_eq, hc] at hold
    cases hr : w'.returned
    · simpa [moved, ha, hr, WaitPc.past_eq, he] using hold
    · -- a thread that returns was past its decrement
      obtain rfl := WaitPc.returned_iff.mp hr
      have he' : (s.pos u).entering = false := he.symm
      rw [he'] at hold
      simpa [moved, ha, WaitPc.returned, WaitPc.past] using hold
  · have hp : ((s.moved t bar' w').pos u).past = (s.pos u).past := by
      simp only [moved, movePos_of_ne hut, WaitPc.past_others]
    have hr : (s.moved t bar' w').returned u = s.returned u := by
      simp only [moved]
      split
      · exact Function.update_of_ne hut _ _
      · rfl
    rw [hp, hr, hold]
    simp [moved, ha]

/-- A quiet access. -/
theorem Inv.quiet (h : Inv n calls s R) (ht : t < n) (h1 : Wakes s.bar s.pos) {w' : WaitPc}
    (hq : Quiet s.bar (s.pos t) w') : Inv n calls (s.moved t s.bar w') R := by
  have harr := movePos_congr (WaitPc.arrived_others s.bar.generation) hq.arrived
  have hlast := movePos_congr WaitPc.last_others hq.last
  have hne : s.pos t ≠ .ret := fun e => by
    have := hq.inCall
    rw [e] at this
    cases this
  have hls : (s.moved t s.bar w').lasts = s.lasts := by simp [moved, hq.arriving]
  obtain ⟨hle, hin⟩ := h.calls_moved s.bar w' hne
  refine
    { bar := h.bar.quiet ht hq h1
      total := h.total
      arrived := fun u hu => ?_
      returned := h.returned_moved _ _ hq.arriving hq.inCall hq.entering
      lasts_one := fun k hk => ?_
      lasts_zero := fun k hk => ?_
      calls_le := hle
      inCall := hin }
  · show (if (s.pos t).arriving then _ else s.arrived) u =
        R + ((movePos s.pos t w' u).arrived s.bar.generation).toNat
    rw [hq.arriving, harr]
    exact h.arrived u hu
  · rw [hls]
    refine h.lasts_one k (hk.imp_right ?_)
    rintro ⟨e, v, hv⟩
    exact ⟨e, v, by rwa [← hlast v]⟩
  · rw [hls]
    refine h.lasts_zero k (hk.imp_right ?_)
    rintro ⟨e, hv⟩
    refine ⟨e, fun v => ?_⟩
    rw [← hlast v]
    exact hv v

/-- An arrival; the last one is recorded. -/
theorem Inv.decrement (h : Inv n calls s R) (ht : t < n)
    (hw : s.pos t = .decrement s.bar.generation) {w' : WaitPc}
    (hw' : w' = if s.bar.awaited - 1 = 0 then .loadTotal else .loadAwaited s.bar.generation) :
    Inv n calls (s.moved t { s.bar with awaited := s.bar.awaited - 1 } w') R := by
  have hne : s.pos t ≠ .ret := by rw [hw]; simp
  have hwr : w'.returned = false ∧ w'.past = true ∧ w'.arrived s.bar.generation = true := by
    rw [hw']; split <;> simp [WaitPc.returned, WaitPc.past, WaitPc.arrived, WaitPc.last,
      WaitPc.saved]
  have hRt : s.arrived t = R := by rw [h.arrived t ht, hw]; rfl
  -- nobody was closing the round before the last arrival
  have hno : ∀ v, (s.pos v).last = false := by
    rcases h.bar.phase with ho | ⟨v, hc⟩
    · exact ho.noLast
    · have := hc.all t (Finset.mem_range.mpr ht)
      rw [hw] at this
      cases this
  obtain ⟨hle, hin⟩ := h.calls_moved { s.bar with awaited := s.bar.awaited - 1 } w' hne
  have hls : (s.moved t { s.bar with awaited := s.bar.awaited - 1 } w').lasts =
      if w'.last then s.lasts ++ [(R, t)] else s.lasts := by
    simp [moved, hw, WaitPc.arriving, hRt]
  have hold0 := h.lasts_zero R (.inr ⟨rfl, hno⟩)
  refine
    { bar := h.bar.decrement ht hw hw'
      total := h.total
      arrived := fun u hu => ?_
      returned := fun u hu => ?_
      lasts_one := fun k hk => ?_
      lasts_zero := fun k hk => ?_
      calls_le := hle
      inCall := hin }
  · by_cases hut : u = t
    · subst hut
      simp [moved, hw, WaitPc.arriving, hRt, hwr.2.2]
    · have := h.arrived u hu
      simpa [moved, hw, WaitPc.arriving, hut, movePos_of_ne] using this
  · have hold := h.returned u hu
    by_cases hut : u = t
    · subst hut
      have hold' : s.returned u = s.arrived u := by rw [hw] at hold; exact hold
      simp [moved, hw, WaitPc.arriving, hwr.1, hwr.2.1, hold']
    · simpa [moved, hw, WaitPc.arriving, hwr.1, hut, movePos_of_ne] using hold
  · rw [hls]
    by_cases hl : w'.last = true
    · rw [if_pos hl, List.filter_append, List.length_append]
      by_cases hkR : k = R
      · subst hkR
        rw [hold0]
        simp
      · have hkR' : R ≠ k := Ne.symm hkR
        rw [h.lasts_one k (.inl (hk.resolve_right fun hk => hkR hk.1))]
        simp [hkR']
    · rw [if_neg hl]
      refine h.lasts_one k (.inl (hk.resolve_right ?_))
      rintro ⟨-, v, hv⟩
      by_cases hvt : v = t
      · subst hvt
        exact hl (by simpa [moved] using hv)
      · simp [moved, movePos_of_ne hvt, hno] at hv
  · rw [hls]
    by_cases hl : w'.last = true
    · rcases hk with hk | ⟨-, hk⟩
      · have hkR : R ≠ k := by omega
        rw [if_pos hl, List.filter_append, List.length_append, h.lasts_zero k (.inl hk)]
        simp [hkR]
      · have := hk t
        simp [moved, hl] at this
    · rw [if_neg hl]
      exact h.lasts_zero k (hk.imp_right fun hk => ⟨hk.1, hno⟩)

/-- `awaited` is reset. -/
theorem Inv.reset (h : Inv n calls s R) (ht : t < n) (hw : s.pos t = .storeAwaited s.bar.total) :
    Inv n calls (s.moved t { s.bar with awaited := s.bar.total } .loadGeneration) R := by
  have hne : s.pos t ≠ .ret := by rw [hw]; simp
  have harr := movePos_congr (WaitPc.arrived_others s.bar.generation)
    (show WaitPc.arrived s.bar.generation .loadGeneration =
      (s.pos t).arrived s.bar.generation by rw [hw]; rfl)
  have hlast := movePos_congr WaitPc.last_others (show WaitPc.last .loadGeneration =
    (s.pos t).last by rw [hw]; rfl)
  have ha : (s.pos t).arriving = false := by rw [hw]; rfl
  have hls : (s.moved t { s.bar with awaited := s.bar.total } .loadGeneration).lasts = s.lasts := by
    simp [moved, ha]
  obtain ⟨hle, hin⟩ := h.calls_moved { s.bar with awaited := s.bar.total } .loadGeneration hne
  refine
    { bar := h.bar.reset ht hw
      total := h.total
      arrived := fun u hu => ?_
      returned := h.returned_moved _ _ ha (by rw [hw]; rfl) (by rw [hw]; rfl)
      lasts_one := fun k hk => ?_
      lasts_zero := fun k hk => ?_
      calls_le := hle
      inCall := hin }
  · show (if (s.pos t).arriving then _ else s.arrived) u =
      R + ((movePos s.pos t .loadGeneration u).arrived s.bar.generation).toNat
    rw [ha, harr]
    exact h.arrived u hu
  · rw [hls]
    refine h.lasts_one k (hk.imp_right ?_)
    rintro ⟨e, v, hv⟩
    exact ⟨e, v, by rwa [← hlast v]⟩
  · rw [hls]
    refine h.lasts_zero k (hk.imp_right ?_)
    rintro ⟨e, hv⟩
    refine ⟨e, fun v => ?_⟩
    rw [← hlast v]
    exact hv v

/-- The generation is advanced: the next round begins. -/
theorem Inv.advance (h : Inv n calls s R) (ht : t < n)
    (hw : s.pos t = .storeGeneration s.bar.generation) :
    Inv n calls (s.moved t { s.bar with generation := s.bar.generation + BAR_INCR } .testTotal)
      (R + 1) := by
  have hne : s.pos t ≠ .ret := by rw [hw]; simp
  have ha : (s.pos t).arriving = false := by rw [hw]; rfl
  obtain ⟨hbar, hall⟩ := h.bar.advance ht hw fun u hu => by
    rw [h.bar.out u (by simpa using hu)]; rfl
  have hls : (s.moved t { s.bar with generation := s.bar.generation + BAR_INCR } .testTotal).lasts =
      s.lasts := by
    simp [moved, ha]
  have hno : ∀ v, (movePos s.pos t .testTotal v).last = false := by
    rcases hbar.phase with ho | ⟨v, hc⟩
    · exact ho.noLast
    · have hl := (hall t (Finset.mem_range.mpr ht)).2
      have := hc.all t (Finset.mem_range.mpr ht)
      rw [(WaitPc.leaving_not_arrived hl).1] at this
      cases this
  obtain ⟨hle, hin⟩ :=
    h.calls_moved { s.bar with generation := s.bar.generation + BAR_INCR } .testTotal hne
  have hret :=
    h.returned_moved { s.bar with generation := s.bar.generation + BAR_INCR } .testTotal ha
    (by rw [hw]; rfl) (by rw [hw]; rfl)
  refine
    { bar := hbar
      total := by rw [moved_bar]; exact h.total
      arrived := fun u hu => ?_
      returned := hret
      lasts_one := fun k hk => ?_
      lasts_zero := fun k hk => ?_
      calls_le := hle
      inCall := hin }
  · obtain ⟨h1, h2⟩ := hall u (Finset.mem_range.mpr hu)
    show (if (s.pos t).arriving then _ else s.arrived) u =
      R + 1 + ((movePos s.pos t .testTotal u).arrived (s.bar.generation + BAR_INCR)).toNat
    rw [ha, (WaitPc.leaving_not_arrived h2).1]
    have := h.arrived u hu
    rwa [h1] at this
  · rw [hls]
    rcases hk with hk | ⟨-, v, hv⟩
    · refine h.lasts_one k ?_
      rcases Nat.lt_succ_iff_lt_or_eq.mp hk with hk | rfl
      · exact .inl hk
      · exact .inr ⟨rfl, t, by rw [hw]; rfl⟩
    · have := hno v
      rw [show (movePos s.pos t .testTotal v).last = true from hv] at this
      cases this
  · rw [hls]
    exact h.lasts_zero k (.inl (by omega))

/-- A call begins. -/
theorem Inv.call (h : Inv n calls s R) (ht : t < n) (hw : s.pos t = .ret)
    (hc : (s.returned t : ℕ∞) < calls t) :
    Inv n calls { s with pos := movePos s.pos t .start } R := by
  have harr := movePos_congr (WaitPc.arrived_others s.bar.generation)
    (show WaitPc.arrived s.bar.generation .start =
      (s.pos t).arrived s.bar.generation by rw [hw]; rfl)
  have hlast :=
    movePos_congr WaitPc.last_others (show WaitPc.last .start = (s.pos t).last by rw [hw]; rfl)
  have hpast :=
    movePos_congr WaitPc.past_others (show WaitPc.past .start = (s.pos t).past by rw [hw]; rfl)
  refine
    { bar := h.bar.enter ht (Finset.mem_range.mpr ht) hw
      total := h.total
      arrived := fun u hu => by rw [harr]; exact h.arrived u hu
      returned := fun u hu => by rw [hpast]; exact h.returned u hu
      lasts_one := fun k hk => h.lasts_one k (hk.imp_right fun hv => ⟨hv.1, by
        obtain ⟨-, v, hv⟩ := hv
        exact ⟨v, by rwa [← hlast v]⟩⟩)
      lasts_zero := fun k hk => h.lasts_zero k (hk.imp_right fun hv => ⟨hv.1, fun v => by
        rw [← hlast v]
        exact hv.2 v⟩)
      calls_le := h.calls_le
      inCall := fun u hu => ?_ }
  by_cases hut : u = t
  · subst hut; exact hc
  · refine h.inCall u fun e => hu ?_
    show movePos s.pos t .start u = .ret
    rw [movePos_of_ne hut, WaitPc.others_eq_ret, e]

/-- `futex_wake` is skipped only when there is one thread, and then nobody sleeps. -/
theorem Inv.wakes (h : Inv n calls s R) (ht : t < n) (ht' : ∃ s', s.threadStep calls t = some s') :
    Wakes s.bar s.pos := by
  by_cases h1 : 1 < n
  · exact .inl (by rw [BitVec.lt_def, h.total]; exact h1)
  · right
    intro u st hu
    have hun : u < n := by
      by_contra hun
      rw [h.bar.out u (by omega)] at hu
      cases hu
    obtain rfl : u = t := by omega
    obtain ⟨s', hs'⟩ := ht'
    simp [threadStep, hu, AbBarrier.step] at hs'

/-- The invariant is kept by every step. -/
theorem Inv.step (h : Inv n calls s R) (hs : step n calls s t = some s') :
    ∃ R', Inv n calls s' R' := by
  unfold Cyclic.step at hs
  split at hs
  on_goal 2 => cases hs
  rename_i ht
  have h1 := h.wakes ht ⟨_, hs⟩
  by_cases hr : s.pos t = .ret
  · simp only [threadStep, hr] at hs
    split at hs
    · cases hs
      exact ⟨R, h.call ht hr ‹_›⟩
    · cases hs
  · have hs' : (s.bar.step (s.pos t)).map (fun p => s.moved t p.1 p.2) = some s' := by
      unfold threadStep at hs
      split at hs
      · exact absurd ‹_› hr
      · exact hs
    obtain ⟨⟨bar', w'⟩, hb, rfl⟩ := Option.map_eq_some_iff.mp hs'
    rcases AbBarrier.step_cases h.bar.aligned (h.bar.posOk t) hb with
      ⟨rfl, hq⟩ | ⟨hw, rfl, hw'⟩ | ⟨hw, rfl, rfl⟩ | ⟨hw, rfl, rfl⟩ | ⟨s, -, hov, -⟩
    · exact ⟨R, h.quiet ht h1 hq⟩
    · exact ⟨R, h.decrement ht hw hw'⟩
    · exact ⟨R, h.reset ht hw⟩
    · exact ⟨R + 1, h.advance ht hw⟩
    · exact absurd hov h.bar.not_overflow

theorem inv_of_reachable (h1 : 1 ≤ n) (hn : n ≤ 10000000) (h : (system n spin calls).Reachable s) :
    ∃ R, Inv n calls s R := by
  refine h.invariant (I := fun s => ∃ R, Inv n calls s R) ?_ ?_
  · rintro _ rfl
    exact ⟨0, inv_start h1 hn⟩
  · rintro s t s' - ⟨R, hR⟩ - hs
    exact hR.step hs

/-! ### What a run satisfies -/

/-- A thread has returned from no more calls than rounds are over. -/
theorem Inv.returned_le (h : Inv n calls s R) (ht : t < n) : s.returned t ≤ R := by
  have h1 := h.arrived t ht
  have h2 := h.returned t ht
  cases ha : (s.pos t).arrived s.bar.generation
  · rw [ha, Bool.toNat_false] at h1
    omega
  · have hp : (s.pos t).past = true := by
      obtain ⟨h3, -, h4⟩ := WaitPc.arrived_not_entering ha
      rw [WaitPc.past_eq, h3]
      simpa using fun h => h4 (WaitPc.returned_iff.mp h)
    rw [ha] at h1
    rw [hp] at h2
    simp only [Bool.toNat_true] at h1 h2
    omega

/-- When every thread has arrived, one of them is closing the round. -/
theorem Inv.closing (h : Inv n calls s R)
    (hall : ∀ u < n, (s.pos u).arrived s.bar.generation = true) :
    ∃ t, (s.pos t).last = true := by
  by_contra hno
  obtain ⟨v, hv, ha⟩ := h.bar.missing (by rw [Finset.card_range, h.total]) fun v => by
    by_contra hl
    exact hno ⟨v, by simpa using hl⟩
  rw [hall v (Finset.mem_range.mp hv)] at ha
  cases ha

/-- One last thread in each round everybody has arrived in, none in the others. -/
theorem Inv.lasts_length (h : Inv n calls s R) (k : ℕ) :
    ((∀ u < n, k < s.arrived u) → (s.lasts.filter fun e => e.1 = k).length = 1) ∧
      (∀ u < n, s.arrived u ≤ k → (s.lasts.filter fun e => e.1 = k).length = 0) := by
  constructor
  · intro hall
    refine h.lasts_one k ?_
    rcases lt_trichotomy k R with hk | rfl | hk
    · exact .inl hk
    · refine .inr ⟨rfl, h.closing fun u hu => ?_⟩
      have h1 := hall u hu
      rw [h.arrived u hu] at h1
      by_contra hn
      rw [Bool.not_eq_true] at hn
      rw [hn, Bool.toNat_false] at h1
      omega
    · -- no thread is further than one decrement into the round
      exfalso
      rcases Nat.eq_zero_or_pos n with rfl | hn
      · obtain ⟨t, ht⟩ := h.closing fun u hu => absurd hu (Nat.not_lt_zero u)
        rw [h.bar.out t (Nat.zero_le t)] at ht
        cases ht
      · have h1 := hall 0 hn
        rw [h.arrived 0 hn] at h1
        have := Bool.toNat_le ((s.pos 0).arrived s.bar.generation)
        omega
  · intro u hu hk
    have h1 := h.arrived u hu
    refine h.lasts_zero k ?_
    rcases lt_or_ge R k with hR | hR
    · exact .inl hR
    · have hkR : k = R := by omega
      refine .inr ⟨hkR, fun t => ?_⟩
      rcases h.bar.phase with ho | ⟨v, hc⟩
      · exact ho.noLast t
      · rw [hc.all u (Finset.mem_range.mpr hu), Bool.toNat_true] at h1
        omega

/-- A thread that cannot take a step is asleep, or has no calls left. -/
theorem Inv.blocked (h : Inv n calls s R) (hb : s.threadStep calls t = none) :
    (∃ st, s.pos t = .asleep st) ∨ s.pos t = .ret ∧ (s.returned t : ℕ∞) = calls t := by
  unfold threadStep at hb
  split at hb
  · rename_i hr
    split at hb
    · cases hb
    · exact .inr ⟨hr, le_antisymm (h.calls_le t) (not_lt.mp ‹_›)⟩
  · rename_i hr
    rw [Option.map_eq_none_iff] at hb
    rcases AbBarrier.step_eq_none hb with hs | hs
    · exact .inl hs
    · exact absurd hs hr

/-- When the threads that have calls left are all blocked, they wait for a thread that has none. -/
theorem Inv.stuck (h : Inv n calls s R) (hs : Stuck n calls s) :
    ∃ u < n, (s.returned u : ℕ∞) = calls u ∧ ∀ t < n, s.HasCalls calls t → calls u < calls t := by
  have hblock : ∀ t < n, (∃ st, s.pos t = .asleep st) ∨
      s.pos t = .ret ∧ (s.returned t : ℕ∞) = calls t := by
    intro t ht
    by_cases hc : s.HasCalls calls t
    · exact h.blocked (hs.2 t ht hc)
    · right
      have hr : s.pos t = .ret := by
        by_contra hr
        exact hc (h.inCall t hr)
      exact ⟨hr, le_antisymm (h.calls_le t) (not_lt.mp hc)⟩
  have hquiet : ∀ v, (s.pos v).waking = false ∧ (s.pos v).last = false := by
    intro v
    by_cases hv : v < n
    · rcases hblock v hv with ⟨st, he⟩ | ⟨he, -⟩ <;> rw [he] <;> exact ⟨rfl, rfl⟩
    · rw [h.bar.out v (by omega)]
      exact ⟨rfl, rfl⟩
  obtain ⟨u, hu, ha⟩ := h.bar.missing (by rw [Finset.card_range, h.total]) fun v => (hquiet v).2
  have hu' := Finset.mem_range.mp hu
  -- a sleeper has arrived, so the thread that is missing has made all its calls
  have hasleep : ∀ t st, s.pos t = .asleep st → (s.pos t).arrived s.bar.generation = true := by
    intro t st he
    have := h.bar.toBarOk.asleep_current (fun v => (hquiet v).1) he
    rw [he, this]
    simp [WaitPc.arrived, WaitPc.saved]
  have hawake : ¬ ∃ st, s.pos u = .asleep st := by
    rintro ⟨st, he⟩
    rw [hasleep u st he] at ha
    cases ha
  obtain ⟨hur, huc⟩ := (hblock u hu').resolve_left hawake
  refine ⟨u, hu', huc, fun t ht hc => ?_⟩
  have huR : s.returned u = R := by
    have h1 := h.arrived u hu'
    have h2 := h.returned u hu'
    rw [ha, Bool.toNat_false] at h1
    rw [hur, show WaitPc.ret.past = false from rfl, Bool.toNat_false] at h2
    omega
  have htR : s.returned t = R := by
    rcases hblock t ht with ⟨st, he⟩ | ⟨-, he⟩
    · have h1 := h.arrived t ht
      have h2 := h.returned t ht
      rw [hasleep t st he, Bool.toNat_true] at h1
      rw [he] at h2
      simp only [WaitPc.past, Bool.toNat_true] at h2
      omega
    · exact absurd he (ne_of_lt hc)
  rw [← huc, huR]
  unfold HasCalls at hc
  rwa [htR] at hc

/-- **The cyclic barrier.** In every run of `n` threads on one barrier, whatever number of calls
each makes: a thread that has returned from `k` calls has every other thread's `k`-th decrement
behind it; the round of call `k` has exactly one last thread, from the moment everybody has
arrived in it, and none before; the early return for a large `awaited` is never taken; and if all
the threads with calls left are blocked, then some thread has made all of its calls, fewer than
any of those has to make. -/
theorem cyclic_barrier (h1 : 1 ≤ n) (hn : n ≤ 10000000) (hr : (system n spin calls).Reachable s) :
    (∀ t < n, ∀ u < n, s.returned t ≤ s.arrived u) ∧
    (∀ k, ((∀ u < n, k < s.arrived u) → (s.lasts.filter fun e => e.1 = k).length = 1) ∧
      (∀ u < n, s.arrived u ≤ k → (s.lasts.filter fun e => e.1 = k).length = 0)) ∧
    (∀ t st, s.pos t = .loadAwaited st → ¬ BAR_OVERFLOW < s.bar.awaited) ∧
    (Stuck n calls s →
      ∃ u < n, (s.returned u : ℕ∞) = calls u ∧ ∀ t < n, s.HasCalls calls t →
        calls u < calls t) := by
  obtain ⟨R, h⟩ := inv_of_reachable h1 hn hr
  refine ⟨fun t ht u hu => ?_, h.lasts_length, fun _ _ _ => h.bar.not_overflow, h.stuck⟩
  have := h.returned_le ht
  have := h.arrived u hu
  omega

/-- Threads that all make the same number of calls are never all blocked. -/
theorem not_stuck_of_equal_calls (h1 : 1 ≤ n) (hn : n ≤ 10000000) {c : ℕ∞}
    (hr : (system n spin fun _ => c).Reachable s) : ¬ Stuck n (fun _ => c) s := by
  intro hs
  obtain ⟨R, h⟩ := inv_of_reachable h1 hn hr
  obtain ⟨u, -, -, hlt⟩ := h.stuck hs
  obtain ⟨t, ht, hc⟩ := hs.1
  exact lt_irrefl c (hlt t ht hc)

/-- What a list of steps reaches is reachable. -/
theorem reachable_of_exec {as : List ℕ} (h : exec (step n calls) (start n spin) as = some s) :
    (system n spin calls).Reachable s :=
  Lts.Reach.exec (L := system n spin calls) (fun _ _ _ h => h) (.init rfl) (fun _ _ _ => trivial) h

/-- Two threads that call once each, run through the round. -/
theorem cyclic_barrier_two : ∃ s, exec (step 2 fun _ => 1) (start 2 true)
      [0, 0, 0, 0, 1, 1, 1, 1, 1, 1, 1, 1, 1, 0, 0] = some s ∧
    (∀ t < 2, ∀ u < 2, s.returned t ≤ s.arrived u) ∧
    (∀ k, ((∀ u < 2, k < s.arrived u) → (s.lasts.filter fun e => e.1 = k).length = 1) ∧
      (∀ u < 2, s.arrived u ≤ k → (s.lasts.filter fun e => e.1 = k).length = 0)) ∧
    (∀ t st, s.pos t = .loadAwaited st → ¬ BAR_OVERFLOW < s.bar.awaited) ∧
    (Stuck 2 (fun _ => 1) s →
      ∃ u < 2, (s.returned u : ℕ∞) = 1 ∧ ∀ t < 2, s.HasCalls (fun _ => 1) t → (1 : ℕ∞) < 1) := by
  obtain ⟨s, hs⟩ := Option.isSome_iff_exists.mp (by decide :
    (exec (step 2 fun _ => 1) (start 2 true) [0, 0, 0, 0, 1, 1, 1, 1, 1, 1, 1, 1, 1, 0, 0]).isSome =
      true)
  exact ⟨s, hs, cyclic_barrier (by decide) (by decide) (reachable_of_exec hs)⟩

/-- **A thread that calls more often than another is left blocked**: one thread calls once, the
other not at all. -/
theorem unequal_calls_block : ∃ s, (system 2 false fun t => if t = 0 then 1 else 0).Reachable s ∧
    Stuck 2 (fun t => if t = 0 then 1 else 0) s := by
  obtain ⟨s, hs, hp⟩ := (Option.any_eq_true _ _).mp (by decide :
    (exec (step 2 fun t => if t = 0 then 1 else 0) (start 2 false) [0, 0, 0, 0, 0]).any (fun s =>
      s.returned 0 = 0 ∧ s.returned 1 = 0 ∧
        (s.threadStep (fun t => if t = 0 then 1 else 0) 0).isNone) = true)
  obtain ⟨h0, h1, hb⟩ : s.returned 0 = 0 ∧ s.returned 1 = 0 ∧
      (s.threadStep (fun t => if t = 0 then 1 else 0) 0).isNone := by simpa using hp
  refine ⟨s, reachable_of_exec hs, ⟨0, by decide, ?_⟩, fun t ht hc => ?_⟩
  · simp [HasCalls, h0]
  · match t, ht with
    | 0, _ => simpa using hb
    | 1, _ => simp [HasCalls, h1] at hc

end Cyclic

end NetworkDemo.Sync
