import NetworkDemo.Gang.Drive
import NetworkDemo.Gang.Invariant

/-!
# The destructor

`~Gang` sets `abb.total` to one and decrements `awaited` until it is zero, so that
whoever makes it zero closes the round and the workers come out of `abb`, see
`shutdown` and leave their loop.

There are two ways in which this goes well. When every worker has arrived at `abb`
by the time the destructor is called, main's first decrement makes `awaited` zero,
and main closes the round and wakes whoever sleeps. And when there is only one
worker, it does not matter where it is: main may close the round, or the worker, or
each of them one of its own, and a worker that closes a round does not sleep.

`Leaver` says where a worker can be beside main in either case, and `DtorInv` is kept
by every step. In `Gang.Shutdown` the destructor is called in a state where it holds,
and in one where it does not.
-/

namespace NetworkDemo.Sync

/-! ### One access of the barrier -/

/-- Closing a round that main's `total` of one ends without waking anybody. -/
def WaitPc.closes : WaitPc → Bool
  | .testTotal => true
  | w => w.last

section Access

variable {bar bar' : AbBarrier} {w w' : WaitPc} {g : U32}

/-- An access of a thread that waits changes nothing, and it goes on waiting until the generation
is another or `awaited` has overflowed. -/
theorem AbBarrier.step_saved (hg : w.saved = some g) (h : bar.step w = some (bar', w')) :
    bar' = bar ∧ (w'.saved = some g ∧ (∀ r, w' = .asleep r → g = bar.generation) ∨
      w' = .ret ∧ (g ≠ bar.generation ∨ BAR_OVERFLOW < bar.awaited)) := by
  have hturn : ∀ r, (bar.waitTurn r).saved = some r ∧ ∀ r', bar.waitTurn r ≠ .asleep r' :=
    fun r => by
      unfold AbBarrier.waitTurn
      split_ifs <;> exact ⟨rfl, by simp⟩
  cases w with
  | loadAwaited r =>
    obtain rfl := Option.some.inj hg
    obtain ⟨rfl, rfl⟩ := Prod.mk.inj (Option.some.inj h)
    split_ifs with hov
    · exact ⟨rfl, .inr ⟨rfl, .inr hov⟩⟩
    · exact ⟨rfl, .inl ⟨(hturn r).1, fun r' hr => absurd hr ((hturn r).2 r')⟩⟩
  | spin r i =>
    obtain rfl := Option.some.inj hg
    obtain ⟨rfl, rfl⟩ := Prod.mk.inj (Option.some.inj h)
    split_ifs <;> exact ⟨rfl, .inl ⟨rfl, by simp⟩⟩
  | futexWait r =>
    obtain rfl := Option.some.inj hg
    obtain ⟨rfl, rfl⟩ := Prod.mk.inj (Option.some.inj h)
    split_ifs with heq
    · exact ⟨rfl, .inl ⟨rfl, fun _ _ => heq.symm⟩⟩
    · exact ⟨rfl, .inl ⟨rfl, by simp⟩⟩
  | asleep r => cases h
  | reload r =>
    obtain rfl := Option.some.inj hg
    obtain ⟨rfl, rfl⟩ := Prod.mk.inj (Option.some.inj h)
    split_ifs with heq
    · exact ⟨rfl, .inl ⟨(hturn r).1, fun r' hr => absurd hr ((hturn r).2 r')⟩⟩
    · exact ⟨rfl, .inr ⟨rfl, .inl fun e => heq e.symm⟩⟩
  | _ => cases hg

/-- An access of a thread that leaves changes nothing, and it goes on leaving, awake. -/
theorem AbBarrier.step_leaving (hl : w.leaving bar.generation = true)
    (h : bar.step w = some (bar', w')) :
    bar' = bar ∧ (w'.leaving bar.generation = true ∧ (∀ r, w' ≠ .asleep r) ∨ w' = .ret) := by
  cases hg : w.saved with
  | some g =>
    have hne : g ≠ bar.generation := by
      have hwk := (WaitPc.of_saved hg).2.2.2.2.2
      simpa [WaitPc.leaving, hwk, hg] using hl
    obtain ⟨rfl, ⟨hs', has⟩ | ⟨hret, -⟩⟩ := step_saved hg h
    · exact ⟨rfl, .inl ⟨by simp [WaitPc.leaving, hs', hne], fun r hr => hne (has r hr)⟩⟩
    · exact ⟨rfl, .inr hret⟩
  | none =>
    cases w with
    | testTotal =>
      obtain ⟨rfl, rfl⟩ := Prod.mk.inj (Option.some.inj h)
      split_ifs
      · exact ⟨rfl, .inl ⟨rfl, by simp⟩⟩
      · exact ⟨rfl, .inr rfl⟩
    | wake =>
      obtain ⟨rfl, rfl⟩ := Prod.mk.inj (Option.some.inj h)
      exact ⟨rfl, .inr rfl⟩
    | _ => simp [WaitPc.leaving, WaitPc.waking, hg] at hl

/-- An access of a thread that closes a round whose total is one. -/
theorem AbBarrier.step_closes (hw : w.closes = true)
    (htot : bar.total = 1) (h : bar.step w = some (bar', w')) :
    bar'.total = bar.total ∧ (w'.closes = true ∨ w' = .ret) := by
  cases w with
  | testTotal =>
    obtain ⟨rfl, rfl⟩ := Prod.mk.inj (Option.some.inj h)
    rw [htot]
    exact ⟨rfl, .inr rfl⟩
  | loadTotal | storeAwaited | loadGeneration | storeGeneration =>
    obtain ⟨rfl, rfl⟩ := Prod.mk.inj (Option.some.inj h)
    exact ⟨rfl, .inl rfl⟩
  | _ => cases hw

end Access

end NetworkDemo.Sync

namespace NetworkDemo.Gang

open Foundations Sync

/-! ### Where main is -/

/-- Main is out of the loop of decrements, and out of its end. -/
def Pc.pastLoop : Pc → Bool
  | .join _ | .done => true
  | _ => false

/-- Main has stored `shutdown` and `abb.total`. -/
def Pc.sealed : Pc → Bool
  | .dtorLoad _ | .dtorDecrement _ _ | .dtorCheck _ | .dtorLoadTotal | .dtorStoreAwaited _
  | .dtorLoadGeneration | .dtorStoreGeneration _ | .dtorWake | .join _ | .done => true
  | _ => false

/-- Main will store no generation any more. -/
def Pc.spent : Pc → Bool
  | .dtorWake | .join _ | .done => true
  | _ => false

/-- What `awaited` is while the only worker has not arrived. -/
def Pc.Expects (awaited : U32) : Pc → Prop
  | .dtorShutdown | .dtorTotal => awaited = 2
  | .dtorLoad i | .dtorDecrement i _ => i = 0 ∧ awaited = 2 ∨ i = 1 ∧ awaited = 1
  | .dtorCheck i => i = 0 ∧ awaited = 1
  | .dtorLoadTotal | .dtorStoreAwaited _ => awaited = 0
  | .dtorLoadGeneration | .dtorStoreGeneration _ | .dtorWake | .join _ | .done => awaited = 1
  | _ => False

/-- Main is on its way to store the generation after the current one. -/
def Pc.Releases (abb : AbBarrier) : Pc → Prop
  | .dtorShutdown | .dtorTotal => abb.awaited = 1
  | .dtorLoad i | .dtorDecrement i _ => i = 0 ∧ abb.awaited = 1
  | .dtorLoadTotal | .dtorStoreAwaited _ | .dtorLoadGeneration => True
  | .dtorStoreGeneration g => g = abb.generation
  | _ => False

/-- Where main can be, with `total` and `shutdown` as it has set them. -/
def DtorMain (num : ℕ) (total : U32) (shutdown : Bool) (pc : ℕ → Pc) : Pc → Prop
  | .dtorShutdown => True
  | .dtorTotal => shutdown = true
  | .dtorLoad i | .dtorCheck i => shutdown = true ∧ total = 1 ∧ i < num
  | .dtorDecrement i r => shutdown = true ∧ total = 1 ∧ i < num ∧ Aligned r
  | .dtorLoadTotal | .dtorLoadGeneration | .dtorStoreGeneration _ | .dtorWake =>
    shutdown = true ∧ total = 1
  | .dtorStoreAwaited v => shutdown = true ∧ total = 1 ∧ v = 1
  | .join k => shutdown = true ∧ total = 1 ∧ 1 ≤ k ∧ ∀ j, j ≠ 0 → j < k → pc j = .exited
  | .done => shutdown = true ∧ total = 1 ∧ ∀ j, j ≠ 0 → j < num → pc j = .exited
  | _ => False

/-! ### Where the workers are -/

/-- A worker that has not arrived at `abb`, and will. -/
def Pc.Comes (g2 : U32) : Pc → Prop
  | .abb w => w.entering = true
  | .abb2 w => w.leaving g2 = true ∧ ∀ g, w ≠ .asleep g
  | _ => False

/-- **Where a worker can be**, beside main at `m`. -/
inductive Leaver (num : ℕ) (abb : AbBarrier) (g2 : U32) (m : Pc) : Pc → Prop where
  /-- The only worker is still to arrive. -/
  | coming {x : Pc} (h2 : num = 2) (hx : x.Comes g2) (ha : m.Expects abb.awaited)
      (hal : m.spent = false → Aligned abb.generation)
      (hr : m.spent = false → ∀ r, x = .abb (.decrement r) → r = abb.generation) :
      Leaver num abb g2 m x
  /-- It waits, and main will release it. -/
  | waiting {w : WaitPc} (hs : w.saved = some abb.generation) (hm : m.Releases abb) :
      Leaver num abb g2 m (.abb w)
  /-- Its round is over, and it is not asleep unless main is about to wake it. -/
  | released {w : WaitPc} {g : U32} (hs : w.saved = some g) (hne : g ≠ abb.generation)
      (hm : m = .dtorWake ∨ m.pastLoop = true ∧ ∀ r, w ≠ .asleep r) : Leaver num abb g2 m (.abb w)
  /-- The only worker was last. -/
  | closing {w : WaitPc} (h2 : num = 2) (hw : WaitPc.closes w = true) (hm : m.sealed = true) :
      Leaver num abb g2 m (.abb w)
  /-- It is out of `abb`. -/
  | out {x : Pc} (hx : x = .checkShutdown ∨ x = .exited) (hm : m.sealed = true) :
      Leaver num abb g2 m x

/-- **The invariant of a destructor that ends.** -/
structure DtorInv (num : ℕ) (s : State) : Prop where
  main : DtorMain num s.abb.total s.shutdown s.pc (s.pc 0)
  workers : ∀ t, t ≠ 0 → t < num → Leaver num s.abb s.abb2.generation (s.pc 0) (s.pc t)
  outside : ∀ t, num ≤ t → s.pc t = .exited

section Dtor

variable {num : ℕ} {s s' : State} {t : ℕ} {abb abb' : AbBarrier} {g2 : U32} {m m' x x' : Pc}

/-! ### Steps of main -/

/-- What a step of main has to keep for the workers; only `futex_wake` does more to them. -/
theorem Leaver.beside (h : Leaver num abb g2 m x) (hg : abb'.generation = abb.generation)
    (hwake : m ≠ .dtorWake) (hexp : num = 2 → m.Expects abb.awaited → m'.Expects abb'.awaited)
    (hrel : m.Releases abb → m'.Releases abb') (hpast : m.pastLoop = true → m'.pastLoop = true)
    (hseal : m.sealed = true → m'.sealed = true) (hspent : m'.spent = false → m.spent = false) :
    Leaver num abb' g2 m' x := by
  cases h with
  | coming h2 hx ha hal hr =>
    exact .coming h2 hx (hexp h2 ha) (fun hm => hg ▸ hal (hspent hm))
      fun hm => hg ▸ hr (hspent hm)
  | waiting hs hm => exact .waiting (hg ▸ hs) (hrel hm)
  | released hs hne hm =>
    obtain ⟨hp, hno⟩ := hm.resolve_left hwake
    exact .released hs (hg ▸ hne) (.inr ⟨hpast hp, hno⟩)
  | closing h2 hw hm => exact .closing h2 hw (hseal hm)
  | out hx hm => exact .out hx (hseal hm)

/-- Main stores the next generation: whoever waits is released. -/
theorem Leaver.advance {g : U32} (h : Leaver num abb g2 (.dtorStoreGeneration g) x) :
    Leaver num { abb with generation := g + BAR_INCR } g2 .dtorWake x := by
  cases h with
  | coming h2 hx ha => exact .coming h2 hx ha (fun hm => by cases hm) fun hm => by cases hm
  | waiting hs hm =>
    obtain rfl : g = abb.generation := hm
    exact .released hs (add_incr_ne abb.generation).symm (.inl rfl)
  | released _ _ hm => rcases hm with hm | ⟨hm, _⟩ <;> cases hm
  | closing h2 hw => exact .closing h2 hw rfl
  | out hx => exact .out hx rfl

/-- Main wakes the sleepers. -/
theorem Leaver.woken (h : Leaver num abb g2 .dtorWake x) :
    Leaver num abb g2 (.join 1) (x.othersAbb .wake) := by
  cases h with
  | coming h2 hx ha =>
    have hawake : ∀ g, x ≠ .abb (.asleep g) := fun g hg => by rw [hg] at hx; cases hx
    rw [othersAbb_of_awake hawake]
    exact .coming h2 hx ha (fun hm => by cases hm) fun hm => by cases hm
  | waiting _ hm => exact absurd hm id
  | released hs hne =>
    refine .released ((WaitPc.saved_others .wake _).trans hs) hne (.inr ⟨rfl, fun r hr => ?_⟩)
    exact (WaitPc.asleep_of_others hr).1 rfl
  | @closing w h2 hw =>
    have hawake : ∀ g, Pc.abb w ≠ .abb (.asleep g) := fun g hg => by
      rw [Pc.abb.inj hg] at hw
      cases hw
    rw [othersAbb_of_awake hawake]
    exact .closing h2 hw rfl
  | out hx =>
    rw [othersAbb_of_awake fun g hg => by rcases hx with hx | hx <;> rw [hx] at hg <;> cases hg]
    exact .out hx rfl

/-- Main moves, and does nothing to the workers. -/
theorem DtorInv.goto (h : DtorInv num s) (h2 : 2 ≤ num) (hpc : s'.pc = Function.update s.pc 0 x)
    (hg2 : s'.abb2.generation = s.abb2.generation)
    (hm : DtorMain num s'.abb.total s'.shutdown s.pc x)
    (hw : ∀ y, Leaver num s.abb s.abb2.generation (s.pc 0) y →
      Leaver num s'.abb s.abb2.generation x y) : DtorInv num s' where
  main := by
    have hrest : ∀ j, j ≠ 0 → s'.pc j = s.pc j := fun j hj => by
      rw [hpc, Function.update_of_ne hj]
    rw [hpc, Function.update_self, ← hpc]
    cases x with
    | join k => exact ⟨hm.1, hm.2.1, hm.2.2.1, fun j h0 hj => (hrest j h0).trans (hm.2.2.2 j h0 hj)⟩
    | done => exact ⟨hm.1, hm.2.1, fun j h0 hj => (hrest j h0).trans (hm.2.2 j h0 hj)⟩
    | _ => exact hm
  workers t h0 ht := by
    rw [hpc, Function.update_self, Function.update_of_ne h0, hg2]
    exact hw _ (h.workers t h0 ht)
  outside t ht := by
    rw [hpc, Function.update_of_ne (by omega), h.outside t ht]

/-- Main moves as `Leaver.beside` says, and does nothing to the workers. -/
theorem DtorInv.beside (h : DtorInv num s) (h2 : 2 ≤ num) (hm0 : s.pc 0 = m)
    (hpc : s'.pc = Function.update s.pc 0 x) (hg2 : s'.abb2.generation = s.abb2.generation)
    (hg : s'.abb.generation = s.abb.generation) (hwake : m ≠ .dtorWake)
    (hm : DtorMain num s'.abb.total s'.shutdown s.pc x)
    (hexp : num = 2 → m.Expects s.abb.awaited → x.Expects s'.abb.awaited)
    (hrel : m.Releases s.abb → x.Releases s'.abb)
    (hpast : m.pastLoop = true → x.pastLoop = true)
    (hseal : m.sealed = true → x.sealed = true) (hspent : x.spent = false → m.spent = false) :
    DtorInv num s' :=
  h.goto h2 hpc hg2 hm fun _ hy => (hm0 ▸ hy).beside hg hwake hexp hrel hpast hseal hspent

/-- On with the destructor's loop, or out of it. -/
theorem dtorMain_turn {total : U32} {shutdown : Bool} {pc : ℕ → Pc} {i : ℕ} (hsh : shutdown = true)
    (htot : total = 1) : DtorMain num total shutdown pc (State.dtorTurn num i) := by
  unfold State.dtorTurn
  split_ifs with hi
  · exact ⟨hsh, htot, hi⟩
  · exact ⟨hsh, htot, le_rfl, fun j h0 hj => absurd (Nat.lt_one_iff.mp hj) h0⟩

theorem sealed_turn (num i : ℕ) : (State.dtorTurn num i).sealed = true := by
  unfold State.dtorTurn
  split <;> rfl

theorem aligned_and_neg_incr (g : U32) : Aligned (g &&& -BAR_INCR) := by
  unfold Aligned
  rw [toNat_and_neg_incr]
  omega

/-- Main decrements `awaited`. -/
theorem DtorInv.decrementStep {i : ℕ} {r : U32} (h : DtorInv num s) (h2 : 2 ≤ num)
    (hpc : s.pc 0 = .dtorDecrement i r) (hs : s.threadStep num 0 = some s') : DtorInv num s' := by
  have hm := h.main
  rw [hpc] at hm
  obtain ⟨hsh, htot, hi, hr⟩ := hm
  rw [State.threadStep, hpc] at hs
  obtain rfl := Option.some.inj hs
  by_cases h0 : s.abb.awaited - 1 = 0
  · -- main is last
    simp only [if_pos h0, if_pos (or_and_last r)]
    exact h.beside h2 hpc rfl rfl rfl (by simp) ⟨hsh, htot⟩ (fun _ _ => h0) (fun _ => trivial)
      (fun hp => by cases hp) (fun _ => rfl) fun _ => rfl
  · simp only [if_neg h0, hr.and_last, ne_eq, not_true_eq_false, if_false]
    refine h.beside h2 hpc rfl rfl rfl (by simp) ⟨hsh, htot, hi⟩ (fun _ ha => ?_)
      (fun hr => absurd ?_ h0) (fun hp => by cases hp) (fun _ => rfl) fun _ => rfl
    · rcases ha with ⟨rfl, ha⟩ | ⟨-, ha⟩
      · exact ⟨rfl, by rw [ha]; rfl⟩
      · exact absurd (by rw [ha]; rfl) h0
    · rw [hr.2]
      rfl

/-- Main looks whether it was last, and goes on with the loop or leaves it. -/
theorem DtorInv.checkStep {i : ℕ} (h : DtorInv num s) (h2 : 2 ≤ num)
    (hpc : s.pc 0 = .dtorCheck i) (hs : s.threadStep num 0 = some s') : DtorInv num s' := by
  have hm := h.main
  rw [hpc] at hm
  obtain ⟨hsh, htot, -⟩ := hm
  rw [State.threadStep, hpc] at hs
  obtain rfl := Option.some.inj hs
  have hnext : ∀ x, (x = .join 1 ∨ x = State.dtorTurn num (i + 1)) →
      DtorMain num s.abb.total s.shutdown s.pc x ∧ x.sealed = true ∧
        (i = 0 → s.abb.awaited = 1 → x.Expects s.abb.awaited) := by
    rintro x (rfl | rfl)
    · exact ⟨⟨hsh, htot, le_rfl, fun j h0 hj => absurd (Nat.lt_one_iff.mp hj) h0⟩, rfl,
        fun _ ha => ha⟩
    · refine ⟨dtorMain_turn hsh htot, sealed_turn .., fun hi ha => ?_⟩
      unfold State.dtorTurn
      split_ifs
      · exact .inr ⟨by rw [hi], ha⟩
      · exact ha
  obtain ⟨hx, hseal, hexp⟩ := hnext
    (if BAR_OVERFLOW < s.abb.awaited then .join 1 else State.dtorTurn num (i + 1))
    (ite_eq_or_eq ..)
  exact h.beside h2 hpc rfl rfl rfl (by simp) hx (fun _ ha => hexp ha.1 ha.2)
    (fun hr => absurd hr id) (fun hp => by cases hp) (fun _ => hseal) fun _ => rfl

/-- Main wakes whoever sleeps at `abb`. -/
theorem DtorInv.wakeStep (h : DtorInv num s) (hpc : s.pc 0 = .dtorWake)
    (hs : s.threadStep num 0 = some s') : DtorInv num s' := by
  have hm := h.main
  rw [hpc] at hm
  rw [State.threadStep, hpc] at hs
  obtain rfl := Option.some.inj hs
  refine ⟨⟨hm.1, hm.2, le_rfl, fun j h0 hj => absurd (Nat.lt_one_iff.mp hj) h0⟩,
    fun t h0 ht => ?_, fun t ht => ?_⟩
  · have hw := h.workers t h0 ht
    rw [hpc] at hw
    simp only [State.dtorWoken, if_neg h0]
    exact hw.woken
  · have h0 : t ≠ 0 := by
      rintro rfl
      have hx := h.outside 0 ht
      rw [hpc] at hx
      cases hx
    simp only [State.dtorWoken, if_neg h0, h.outside t ht]
    rfl

/-- Main joins a worker, or is done. -/
theorem DtorInv.joinStep {k : ℕ} (h : DtorInv num s) (h2 : 2 ≤ num) (hpc : s.pc 0 = .join k)
    (hs : s.threadStep num 0 = some s') : DtorInv num s' := by
  have hm := h.main
  rw [hpc] at hm
  obtain ⟨hsh, htot, hk1, hall⟩ := hm
  rw [State.threadStep, hpc] at hs
  simp only at hs
  split_ifs at hs with hk hex
  · obtain rfl := Option.some.inj hs
    refine h.beside h2 hpc rfl rfl rfl (by simp) ⟨hsh, htot, by omega, fun j h0 hj => ?_⟩
      (fun _ ha => ha) id (fun _ => rfl) (fun _ => rfl) fun hp => by cases hp
    rcases Nat.lt_succ_iff_lt_or_eq.mp hj with hj | rfl
    · exact hall j h0 hj
    · cases hpj : s.pc j <;> rw [hpj] at hex <;> first | rfl | cases hex
  · obtain rfl := Option.some.inj hs
    exact h.beside h2 hpc rfl rfl rfl (by simp) ⟨hsh, htot, fun j h0 hj => hall j h0 (by omega)⟩
      (fun _ ha => ha) id (fun _ => rfl) (fun _ => rfl) fun hp => by cases hp

/-- **Main takes a step** of the destructor. -/
theorem DtorInv.mainStep (h : DtorInv num s) (h2 : 2 ≤ num)
    (hs : s.threadStep num 0 = some s') : DtorInv num s' := by
  have hm := h.main
  cases hpc : s.pc 0 with
  | dtorDecrement i r => exact h.decrementStep h2 hpc hs
  | dtorCheck i => exact h.checkStep h2 hpc hs
  | dtorWake => exact h.wakeStep hpc hs
  | join k => exact h.joinStep h2 hpc hs
  | dtorShutdown =>
    rw [State.threadStep, hpc] at hs
    obtain rfl := Option.some.inj hs
    exact h.beside h2 hpc rfl rfl rfl (by simp) rfl (fun _ ha => ha) id (fun hp => by cases hp)
      (fun hp => by cases hp) fun _ => rfl
  | dtorTotal =>
    rw [hpc] at hm
    rw [State.threadStep, hpc] at hs
    obtain rfl := Option.some.inj hs
    have hturn : State.dtorTurn num 0 = .dtorLoad 0 := if_pos (by omega)
    refine h.beside h2 hpc rfl rfl rfl (by simp) (dtorMain_turn hm rfl) ?_ ?_
      (fun hp => by cases hp) ?_ ?_ <;> rw [hturn]
    · exact fun _ ha => .inl ⟨rfl, ha⟩
    · exact fun hr => ⟨rfl, hr⟩
    · exact fun _ => rfl
    · exact fun _ => rfl
  | dtorLoad i =>
    rw [hpc] at hm
    rw [State.threadStep, hpc] at hs
    obtain rfl := Option.some.inj hs
    exact h.beside h2 hpc rfl rfl rfl (by simp)
      ⟨hm.1, hm.2.1, hm.2.2, aligned_and_neg_incr _⟩ (fun _ ha => ha) id
      (fun hp => by cases hp) (fun _ => rfl) fun _ => rfl
  | dtorLoadTotal =>
    rw [hpc] at hm
    rw [State.threadStep, hpc] at hs
    obtain rfl := Option.some.inj hs
    exact h.beside h2 hpc rfl rfl rfl (by simp) ⟨hm.1, hm.2, hm.2⟩ (fun _ ha => ha) id
      (fun hp => by cases hp) (fun _ => rfl) fun _ => rfl
  | dtorStoreAwaited v =>
    rw [hpc] at hm
    rw [State.threadStep, hpc] at hs
    obtain rfl := Option.some.inj hs
    exact h.beside h2 hpc rfl rfl rfl (by simp) ⟨hm.1, hm.2.1⟩ (fun _ _ => hm.2.2) id
      (fun hp => by cases hp) (fun _ => rfl) fun _ => rfl
  | dtorLoadGeneration =>
    rw [hpc] at hm
    rw [State.threadStep, hpc] at hs
    obtain rfl := Option.some.inj hs
    exact h.beside h2 hpc rfl rfl rfl (by simp) hm (fun _ ha => ha) (fun _ => rfl)
      (fun hp => by cases hp) (fun _ => rfl) fun _ => rfl
  | dtorStoreGeneration g =>
    rw [hpc] at hm
    rw [State.threadStep, hpc] at hs
    obtain rfl := Option.some.inj hs
    exact h.goto h2 rfl rfl hm fun y hy => (hpc ▸ hy).advance
  | done => rw [State.threadStep, hpc] at hs; cases hs
  | _ => rw [hpc] at hm; exact absurd hm id

/-! ### Steps of the workers -/

theorem othersAbb_of_ne_wake {w : WaitPc} (hw : w ≠ .wake) : x.othersAbb w = x := by
  cases x with
  | abb p => cases w <;> first | rfl | exact absurd rfl hw
  | _ => rfl

theorem othersAbb2_of_ne_wake {w : WaitPc} (hw : w ≠ .wake) : x.othersAbb2 w = x := by
  cases x with
  | abb2 p => cases w <;> first | rfl | exact absurd rfl hw
  | _ => rfl

/-- Who does not wake the sleepers moves alone. -/
theorem moveAbb_of_ne_wake {pc : ℕ → Pc} {w w' : WaitPc} (hw : w ≠ .wake) :
    moveAbb pc t w w' = Function.update pc t (.afterAbb w') := by
  funext u
  by_cases hu : u = t
  · rw [hu, moveAbb_self, Function.update_self]
  · rw [moveAbb_of_ne hu, othersAbb_of_ne_wake hw, Function.update_of_ne hu]

theorem DtorMain.of_sealed {total : U32} {shutdown : Bool} {pc : ℕ → Pc}
    (h : DtorMain num total shutdown pc m) (hm : m.sealed = true) :
    shutdown = true ∧ total = 1 := by
  cases m <;> first | cases hm; done | exact ⟨h.1, h.2.1⟩ | exact h

/-- Who finds `awaited` overflown finds main past its first decrement. -/
theorem Pc.Releases.sealed (h : m.Releases abb) (hov : BAR_OVERFLOW < abb.awaited) :
    m.sealed = true := by
  cases m with
  | dtorShutdown | dtorTotal =>
    rw [show abb.awaited = 1 from h] at hov
    exact absurd hov (by decide)
  | _ => first | rfl | exact absurd h id

/-- Before it has stored `total`, main does not expect the worker to be last. -/
theorem Pc.Expects.sealed {a : U32} (h : m.Expects a) (hlast : a - 1 = 0) : m.sealed = true := by
  cases m with
  | dtorShutdown | dtorTotal =>
    rw [show a = 2 from h] at hlast
    cases hlast
  | _ => first | rfl | exact absurd h id

/-- When the worker arrives and is not last, main releases it. -/
theorem Pc.Expects.releases (h : m.Expects abb.awaited) (hlast : abb.awaited - 1 ≠ 0) :
    m.spent = false ∧ m.Releases { abb with awaited := abb.awaited - 1 } := by
  have h1 : abb.awaited ≠ 1 := fun h1 => hlast (by rw [h1]; rfl)
  cases m with
  | dtorShutdown | dtorTotal =>
    refine ⟨rfl, ?_⟩
    show abb.awaited - 1 = 1
    rw [show abb.awaited = 2 from h]
    rfl
  | dtorLoad i | dtorDecrement i =>
    obtain ⟨hi, ha⟩ := h.resolve_right fun hr => h1 hr.2
    refine ⟨rfl, hi, ?_⟩
    show abb.awaited - 1 = 1
    rw [ha]
    rfl
  | dtorCheck i => exact absurd h.2 h1
  | dtorLoadTotal | dtorStoreAwaited => exact ⟨rfl, trivial⟩
  | dtorLoadGeneration | dtorStoreGeneration | dtorWake | join | done => exact absurd h h1
  | _ => exact absurd h id

/-- A worker moves; where it changes `abb`, it is the only one. -/
theorem DtorInv.moved (h : DtorInv num s) (h0 : t ≠ 0) (ht : t < num) (hne : s.pc t ≠ .exited)
    (hpc : s'.pc = Function.update s.pc t x) (htot : s'.abb.total = s.abb.total)
    (hsh : s'.shutdown = s.shutdown) (hg2 : s'.abb2.generation = s.abb2.generation)
    (habb : s'.abb = s.abb ∨ num = 2)
    (hx : Leaver num s'.abb s.abb2.generation (s.pc 0) x) : DtorInv num s' where
  main := by
    have hrest : ∀ j, s.pc j = .exited → s'.pc j = .exited := fun j hj => by
      have hjt : j ≠ t := fun e => hne (e ▸ hj)
      rw [hpc, Function.update_of_ne hjt, hj]
    have hm := h.main
    rw [show s'.pc 0 = s.pc 0 by rw [hpc, Function.update_of_ne h0.symm], htot, hsh]
    cases hm0 : s.pc 0 with
    | join k =>
      rw [hm0] at hm
      exact ⟨hm.1, hm.2.1, hm.2.2.1, fun j h0 hj => hrest j (hm.2.2.2 j h0 hj)⟩
    | done =>
      rw [hm0] at hm
      exact ⟨hm.1, hm.2.1, fun j h0 hj => hrest j (hm.2.2 j h0 hj)⟩
    | _ =>
      rw [hm0] at hm
      exact hm
  workers u hu hlt := by
    rw [show s'.pc 0 = s.pc 0 by rw [hpc, Function.update_of_ne h0.symm], hg2, hpc]
    by_cases hut : u = t
    · rw [hut, Function.update_self]
      exact hx
    · rw [Function.update_of_ne hut]
      rcases habb with habb | h2
      · rw [habb]
        exact h.workers u hu hlt
      · omega
  outside u hu := by
    rw [hpc, Function.update_of_ne (by omega), h.outside u hu]

/-- The only worker takes a step before it has arrived. -/
theorem DtorInv.comingStep (h : DtorInv num s) (h0 : t ≠ 0) (ht : t < num) (h2 : num = 2)
    (hx : (s.pc t).Comes s.abb2.generation) (ha : (s.pc 0).Expects s.abb.awaited)
    (hal : (s.pc 0).spent = false → Aligned s.abb.generation)
    (hr : (s.pc 0).spent = false → ∀ r, s.pc t = .abb (.decrement r) → r = s.abb.generation)
    (hs : s.threadStep num t = some s') : DtorInv num s' := by
  unfold State.threadStep at hs
  cases hpc : s.pc t with
  | abb w =>
    rw [hpc] at hs hx hr
    obtain ⟨⟨bar', w'⟩, hb, rfl⟩ := Option.map_eq_some_iff.mp hs
    have hne : s.pc t ≠ .exited := by simp [hpc]
    cases w with
    | start =>
      obtain ⟨rfl, rfl⟩ := Prod.mk.inj (Option.some.inj hb)
      refine h.moved h0 ht hne (moveAbb_of_ne_wake (by simp)) rfl rfl rfl (.inl rfl) ?_
      refine .coming h2 rfl ha hal fun hm r hr => ?_
      obtain rfl := WaitPc.decrement.inj (Pc.abb.inj hr)
      exact (hal hm).and_neg_incr
    | decrement r =>
      obtain ⟨rfl, rfl⟩ := Prod.mk.inj (Option.some.inj hb)
      refine h.moved h0 ht hne (moveAbb_of_ne_wake (by simp)) rfl rfl rfl (.inr h2) ?_
      by_cases hlast : s.abb.awaited - 1 = 0
      · rw [if_pos hlast, waitEnd_or_last]
        exact .closing h2 rfl (ha.sealed hlast)
      · obtain ⟨hm, hrel⟩ := ha.releases hlast
        obtain rfl := hr hm r rfl
        rw [if_neg hlast, (hal hm).waitEnd]
        exact .waiting rfl hrel
    | _ => cases hx
  | abb2 w =>
    rw [hpc] at hs hx
    obtain ⟨⟨bar', w'⟩, hb, rfl⟩ := Option.map_eq_some_iff.mp hs
    obtain ⟨hl, -⟩ := hx
    obtain ⟨rfl, hw'⟩ := AbBarrier.step_leaving hl hb
    -- nobody else is at `abb2`
    have halone : ∀ u, u ≠ t → ∀ g, s.pc u ≠ .abb2 (.asleep g) := fun u hu g hg => by
      rcases Nat.lt_or_ge u num with hlt | hge
      · obtain rfl : u = 0 := by omega
        rw [hg] at ha
        exact ha
      · rw [h.outside u hge] at hg
        cases hg
    have heq : (s.movedAbb2 t w s.abb2 w').pc = Function.update s.pc t (.afterAbb2 t w') := by
      rw [movedAbb2_eq_setAbb2 halone]
      rfl
    refine h.moved h0 ht (by simp [hpc]) heq rfl rfl rfl (.inl rfl) ?_
    rcases hw' with ⟨hl', hawake⟩ | rfl
    · have hret : w'.returned = false := by
        cases w' <;> first | rfl | cases hl'
      rw [afterAbb2_of_inCall hret]
      exact .coming h2 ⟨hl', hawake⟩ ha hal fun _ r hr => by cases hr
    · rw [Pc.afterAbb2, Pc.back, if_neg h0]
      exact .coming h2 rfl ha hal fun _ r hr => by cases hr
  | _ => rw [hpc] at hx; exact absurd hx id

/-- **A worker takes a step** beside the destructor. -/
theorem DtorInv.workerStep (h : DtorInv num s) (h0 : t ≠ 0) (ht : t < num)
    (hs : s.threadStep num t = some s') : DtorInv num s' := by
  obtain ⟨x, hpc⟩ : ∃ x, s.pc t = x := ⟨_, rfl⟩
  have hw := h.workers t h0 ht
  have hmain := h.main
  rw [hpc] at hw
  -- a worker in `abb` that changes nothing
  have hcalm : ∀ {w w' : WaitPc}, x = .abb w → w ≠ .wake → s' = s.movedAbb t w s.abb w' →
      Leaver num s.abb s.abb2.generation (s.pc 0) (.afterAbb w') → DtorInv num s' := by
    rintro w w' rfl hne rfl hl
    exact h.moved h0 ht (by simp [hpc]) (moveAbb_of_ne_wake hne) rfl rfl rfl (.inl rfl) hl
  cases hw with
  | coming h2 hx ha hal hr => exact h.comingStep h0 ht h2 (hpc ▸ hx) ha hal (hpc ▸ hr) hs
  | @waiting w hg hm =>
    rw [State.threadStep, hpc] at hs
    obtain ⟨⟨bar', w'⟩, hb, rfl⟩ := Option.map_eq_some_iff.mp hs
    have hne : w ≠ .wake := fun e => by rw [e] at hg; cases hg
    obtain ⟨rfl, ⟨hg', -⟩ | ⟨rfl, hover⟩⟩ := AbBarrier.step_saved hg hb
    · refine hcalm rfl hne rfl ?_
      rw [afterAbb_of_inCall (WaitPc.of_saved hg').2.1]
      exact .waiting hg' hm
    · exact hcalm rfl hne rfl (.out (.inl rfl) (hm.sealed (hover.resolve_left fun e => e rfl)))
  | @released w g hg hg' hm =>
    rw [State.threadStep, hpc] at hs
    obtain ⟨⟨bar', w'⟩, hb, rfl⟩ := Option.map_eq_some_iff.mp hs
    have hne : w ≠ .wake := fun e => by rw [e] at hg; cases hg
    obtain ⟨rfl, ⟨hs', has⟩ | ⟨rfl, -⟩⟩ := AbBarrier.step_saved hg hb
    · refine hcalm rfl hne rfl ?_
      rw [afterAbb_of_inCall (WaitPc.of_saved hs').2.1]
      exact .released hs' hg' (hm.imp_right fun hp => ⟨hp.1, fun r hr => hg' (has r hr)⟩)
    · refine hcalm rfl hne rfl (.out (.inl rfl) ?_)
      rcases hm with hm | ⟨hm, -⟩
      · rw [hm]
        rfl
      · cases hp : s.pc 0 <;> rw [hp] at hm <;> first | rfl | cases hm
  | @closing w h2 hcl hm =>
    rw [State.threadStep, hpc] at hs
    obtain ⟨⟨bar', w'⟩, hb, rfl⟩ := Option.map_eq_some_iff.mp hs
    have hne : w ≠ .wake := fun e => by rw [e] at hcl; cases hcl
    obtain ⟨htot, hw'⟩ := AbBarrier.step_closes hcl (hmain.of_sealed hm).2 hb
    refine h.moved h0 ht (by simp [hpc]) (moveAbb_of_ne_wake hne) htot rfl rfl (.inr h2) ?_
    rcases hw' with hw' | rfl
    · have hret : w'.returned = false := by
        cases w' <;> first | rfl | cases hw'
      rw [afterAbb_of_inCall hret]
      exact .closing h2 hw' hm
    · exact .out (.inl rfl) hm
  | out hx hm =>
    rcases hx with rfl | rfl
    · rw [State.threadStep, hpc] at hs
      obtain rfl := Option.some.inj hs
      rw [(hmain.of_sealed hm).1]
      exact h.moved h0 ht (by simp [hpc]) rfl rfl rfl rfl (.inl rfl) (.out (.inr rfl) hm)
    · rw [State.threadStep, hpc] at hs
      cases hs

/-- **The invariant is kept by every step.** -/
theorem DtorInv.step (h : DtorInv num s) (h2 : 2 ≤ num) {a : Act}
    (hs : step num s a = some s') : DtorInv num s' := by
  have hbusy : s.isIdle = false := by
    by_contra hi
    have hm := h.main
    rw [State.isIdle_iff.mp (by simpa using hi)] at hm
    exact hm
  cases a with
  | thread t =>
    simp only [Gang.step] at hs
    split_ifs at hs with ht
    by_cases h0 : t = 0
    · subst h0
      exact h.mainStep h2 hs
    · exact h.workerStep h0 ht hs
  | submit n =>
    simp only [Gang.step, hbusy] at hs
    cases hs
  | destroy =>
    simp only [Gang.step, hbusy] at hs
    cases hs

theorem DtorInv.exec (h : DtorInv num s) (h2 : 2 ≤ num) {as : List Act}
    (hs : Foundations.exec (Gang.step num) s as = some s') : DtorInv num s' := by
  induction as generalizing s with
  | nil =>
    obtain rfl := Option.some.inj hs
    exact h
  | cons a as ih =>
    obtain ⟨s₁, h₁, h₂⟩ := Option.bind_eq_some_iff.mp hs
    exact ih (h.step h2 h₁) h₂

/-! ### The end -/

/-- A worker that will come to `abb` and decrement `awaited`. -/
def Pc.comes : Pc → Bool
  | .abb w => w.entering
  | .loadState | .loadFlag _ | .callTasks | .inTasks | .abb2 _ => true
  | _ => false

/-- About to store the next generation. -/
def Pc.pending : Pc → Bool
  | .abb w => w.last
  | .dtorLoadTotal | .dtorStoreAwaited _ | .dtorLoadGeneration | .dtorStoreGeneration _ => true
  | _ => false

/-- Nobody is left who could release a thread that waits at `abb`: main is out of its loop, and no
thread is to come to `abb`, to store a generation or to call `futex_wake`. -/
structure Deserted (s : State) : Prop where
  main : (s.pc 0).pastLoop = true
  comes : ∀ t, (s.pc t).comes = false
  pending : ∀ t, (s.pc t).pending = false
  waking : ∀ t, (s.pc t).abbPos.waking = false

/-- No thread can take a step. -/
def Stuck (num : ℕ) (s : State) : Prop := ∀ t < num, s.threadStep num t = none

/-- What the destructor promises. -/
structure ShutdownOk (num : ℕ) (s : State) : Prop where
  /-- When no thread can take a step, main has joined every worker and every worker is out of its
  loop. -/
  ended : Stuck num s → s.pc 0 = .done ∧ ∀ t, t ≠ 0 → t < num → s.pc t = .exited
  /-- Nobody is left asleep at `abb`, nor looping because the generation is the one he came with. -/
  released : Deserted s → ∀ t g, (s.pc t).abbPos.saved = some g →
    g ≠ s.abb.generation ∧ s.pc t ≠ .abb (.asleep g)

theorem DtorInv.released (h : DtorInv num s) (hd : Deserted s) {g : U32}
    (hg : (s.pc t).abbPos.saved = some g) :
    g ≠ s.abb.generation ∧ s.pc t ≠ .abb (.asleep g) := by
  have hpast := hd.main
  by_cases h0 : t = 0
  · have hm := h.main
    rw [h0] at hg
    cases hpc : s.pc 0 <;> rw [hpc] at hm hg <;> first | exact absurd hm id | cases hg
  rcases Nat.lt_or_ge t num with ht | ht
  · have hw := h.workers t h0 ht
    generalize s.pc t = x at hw hg
    cases hw with
    | coming h2 hx =>
      cases x with
      | abb w => cases w <;> first | cases hg; done | cases hx
      | _ => cases hg
    | waiting hs hm =>
      cases hpc : s.pc 0 <;> rw [hpc] at hm hpast <;> first | exact absurd hm id | cases hpast
    | released hs hne hm =>
      obtain rfl := Option.some.inj (hs.symm.trans hg)
      rcases hm with hm | ⟨-, hm⟩
      · rw [hm] at hpast
        cases hpast
      · exact ⟨hne, fun he => hm _ (Pc.abb.inj he)⟩
    | @closing w h2 hw => cases w <;> first | cases hg; done | cases hw
    | out hx => rcases hx with rfl | rfl <;> cases hg
  · rw [h.outside t ht] at hg
    cases hg

/-- Main can take no step only when it waits for a worker to end, or has joined them all. -/
theorem DtorInv.main_stuck (h : DtorInv num s) (hs : s.threadStep num 0 = none) :
    (∃ k, k < num ∧ s.pc 0 = .join k ∧ k ≠ 0 ∧ s.pc k ≠ .exited) ∨
      s.pc 0 = .done ∧ ∀ k, k ≠ 0 → k < num → s.pc k = .exited := by
  have hm := h.main
  unfold State.threadStep at hs
  cases hpc : s.pc 0 with
  | join k =>
    rw [hpc] at hs hm
    simp only at hs
    split_ifs at hs with hk hex
    refine .inl ⟨k, hk, rfl, Nat.one_le_iff_ne_zero.mp hm.2.2.1, fun he => hex ?_⟩
    rw [he]
    rfl
  | done =>
    rw [hpc] at hm
    exact .inr ⟨rfl, hm.2.2⟩
  | abb w => rw [hpc] at hm; exact absurd hm id
  | abb2 w => rw [hpc] at hm; exact absurd hm id
  | exited => rw [hpc] at hm; exact absurd hm id
  | idle => rw [hpc] at hm; exact absurd hm id
  | _ => rw [hpc] at hs; cases hs

/-- When main waits for it, a worker that has not ended can take a step. -/
theorem DtorInv.worker_moves (h : DtorInv num s) (hpast : (s.pc 0).pastLoop = true) (h0 : t ≠ 0)
    (ht : t < num) (hs : s.threadStep num t = none) : s.pc t = .exited := by
  obtain ⟨x, hpc⟩ : ∃ x, s.pc t = x := ⟨_, rfl⟩
  have hw := h.workers t h0 ht
  rw [State.threadStep, hpc] at hs
  rw [hpc] at hw ⊢
  cases hw with
  | coming h2 hx =>
    cases x with
    | abb w => cases w <;> first | cases hx; done | cases hs
    | abb2 w =>
      rcases AbBarrier.step_eq_none (Option.map_eq_none_iff.mp hs) with ⟨g, rfl⟩ | rfl
      · exact absurd rfl (hx.2 g)
      · cases hx.1
    | _ => exact absurd hx id
  | waiting hg hm =>
    cases hp : s.pc 0 <;> rw [hp] at hm hpast <;> first | exact absurd hm id | cases hpast
  | released hg hne hm =>
    rcases AbBarrier.step_eq_none (Option.map_eq_none_iff.mp hs) with ⟨r, rfl⟩ | rfl
    · rcases hm with hm | ⟨-, hm⟩
      · rw [hm] at hpast
        cases hpast
      · exact absurd rfl (hm r)
    · cases hg
  | @closing w h2 hw => cases w <;> first | cases hw; done | cases hs
  | out hx =>
    rcases hx with rfl | rfl
    · cases hs
    · rfl

/-- **A destructor that keeps the invariant does what it promises.** -/
theorem DtorInv.shutdownOk (h : DtorInv num s) (h2 : 2 ≤ num) : ShutdownOk num s where
  ended hs := by
    rcases h.main_stuck (hs 0 (by omega)) with ⟨k, hk, hpc, h0, hne⟩ | hdone
    · have hpast : (s.pc 0).pastLoop = true := by rw [hpc]; rfl
      exact absurd (h.worker_moves hpast h0 hk (hs k hk)) hne
    · exact hdone
  released hd _ _ hg := h.released hd hg

end Dtor

end NetworkDemo.Gang
