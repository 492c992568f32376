import NetworkDemo.StopWatch.Exclusive

/-!
# Restarts are apart

With one clock that does not go back, thresholds that do not take a time to `2⁶³`, and no
`Lock` moved, the time in `start_ns` does not go back either, and a restart that
`compareAndRestart` accepts is its threshold later than the one before
(`compareAndRestart_apart`). A caller may have read the clock long ago: then the start it
compares with, which another thread set, is too late, and it is refused. So is a caller who
finds the lock bit, by the size of the word.

No `Lock` moved is no `Lock` moved from: each one of which `parent` is set holds an
acquisition (`Owned`). So what the destructor of a `Lock` stores, which is a time it read
before, is not earlier than `start_ns`, which nobody else has set since (`Timed`).
-/

namespace NetworkDemo.StopWatch

open Foundations

/-- The clock does not go back and says less than `2⁶³`, start and threshold add up to less, and no
`Lock` is moved. -/
def TimesOk (s : State) : Act → Prop
  | .read _ now => s.clock ≤ now.toNat ∧ now.toNat < 2 ^ 63
  | .access t _ => ∀ c, (s.pc t).call? = some c → InRange c s
  | .move _ _ => False
  | _ => True

/-- Each `Lock` with a `parent` holds an acquisition. -/
def Owned (s : State) : Prop :=
  ∀ l lock, s.locks l = some lock → lock.parent = true → lock.holds = true

/-- The time in `start_ns`. -/
def State.time (s : State) : ℕ := s.startNs.toNat % 2 ^ 63

/-- The times that threads have read and the time in `start_ns`. -/
structure Timed (s : State) : Prop where
  past : s.time ≤ s.clock
  read : ∀ t x, (s.pc t).time? = some x → x.toNat ≤ s.clock
  store : ∀ t l now, s.pc t = .restartStore l now → s.time ≤ now.toNat
  passed : ∀ t c current start, s.pc t = .cas c current start →
    start.toNat + c.threshold.toNat ≤ current.toNat
  accepted : ∀ a ∈ s.accepted, a.time.toNat ≤ s.time
  /-- The later one comes first. -/
  apart : s.accepted.Pairwise fun later earlier => earlier.time.toNat + later.threshold.toNat ≤
    later.time.toNat
  stored : ∀ t, (s.pc t).call? ≠ none ∨ s.pc t = .returned false → s.stored t = false

variable {s s' : State} {t : ℕ}

/-! ### `Lock` objects that are not moved -/

theorem Owned.setLock (h : Owned s) {l : ℕ} {o : Option Lock}
    (ho : ∀ lock, o = some lock → lock.parent = true → lock.holds = true) :
    Owned (s.setLock l o) := by
  intro j lock hj
  by_cases hjl : j = l
  · subst hjl
    have hself : (s.setLock j o).locks j = o := Function.update_self ..
    exact ho lock (hself.symm.trans hj)
  · have hne : (s.setLock l o).locks j = s.locks j := Function.update_of_ne hjl ..
    exact h j lock (hne.symm.trans hj)

theorem Owned.give (h : Owned s) {lock : Lock} (hl : lock.parent = true → lock.holds = true) :
    Owned (s.give lock) := by
  refine h.setLock (l := s.made) (o := some lock) fun lock' he => ?_
  obtain rfl := Option.some.inj he
  exact hl

theorem Owned.attempt (h : Owned s) (current start : U64) (c : Call) :
    Owned (s.attempt t current start c) := by
  have hempty : Owned (s.give .empty) := h.give fun hp => by cases hp
  cases c with
  | compareAndRestart threshold =>
    rw [State.attempt]
    split
    · exact h
    · exact h
  | compareAndRestartDeferred threshold =>
    rw [State.attempt]
    split
    · exact hempty
    · split
      · exact hempty
      · exact h

theorem Owned.step (h : Owned s) {a : Act} (hok : TimesOk s a) (hs : step s a = some s') :
    Owned s' := by
  cases a with
  | move t l => exact hok.elim
  | call t c =>
    cases hpc : s.pc t <;> simp only [StopWatch.step, hpc, Option.some.injEq, reduceCtorEq] at hs
    subst hs
    exact h
  | ret t =>
    cases hpc : s.pc t <;> simp only [StopWatch.step, hpc, Option.some.injEq, reduceCtorEq] at hs
    subst hs
    exact h
  | read t now =>
    cases hpc : s.pc t <;> simp only [StopWatch.step, hpc, Option.some.injEq, reduceCtorEq] at hs
    · subst hs
      exact h
    · subst hs
      exact h
  | access t spurious =>
    cases hpc : s.pc t <;> simp only [StopWatch.step, hpc, Option.some.injEq, reduceCtorEq] at hs
    case load c current =>
      subst hs
      exact h.attempt current s.startNs c
    case cas c current start =>
      split at hs
      · obtain rfl := Option.some.inj hs
        cases c with
        | compareAndRestart threshold => exact h
        | compareAndRestartDeferred threshold => exact Owned.give (s := s.store t _) h fun _ => rfl
      · obtain rfl := Option.some.inj hs
        exact h.attempt current s.startNs c
    case restartStore l now =>
      subst hs
      exact Owned.setLock (s := s.store t now) h fun lock he => by cases he
  | destroy t l =>
    cases hpc : s.pc t <;> cases hl : s.locks l
      <;> simp only [StopWatch.step, hpc, hl, reduceCtorEq] at hs
    rename_i lock
    split at hs
    · cases hs
    · split at hs
      · obtain rfl := Option.some.inj hs
        refine h.setLock fun lock' he hp => ?_
        obtain rfl := Option.some.inj he
        exact h l lock hl hp
      · obtain rfl := Option.some.inj hs
        exact h.setLock fun lock' he => by cases he

theorem owned_of_reach (h : stopwatch.Reach TimesOk s) : Owned s := by
  refine h.invariant (I := Owned) ?_ ?_
  · rintro s ⟨now, rfl⟩ l lock hl
    cases hl
  · intro s a s' _ ih hok hs
    exact ih.step hok hs

/-- A destructor that stores is of a `Lock` that holds an acquisition. -/
theorem Owned.holds (h : Owned s) (hsh : Shape s) {l : ℕ} (hl : (s.pc t).lock? = some l) :
    s.Holds l := by
  obtain ⟨lock, hlock, hp, -⟩ := hsh.destroyed t l hl
  exact ⟨lock, hlock, h l lock hlock hp⟩

theorem timesOk_keeps (h : stopwatch.Reach TimesOk s) : Shape s ∧ Exclusive s := by
  refine keeps_of_reach ?_ ?_ h
  · intro s a hr hsh _
    cases a with
    | access t spurious =>
      intro l now hpc
      exact .inl ((owned_of_reach hr).holds hsh (by rw [hpc]; rfl))
    | _ => trivial
  · intro s a _ hok
    cases a with
    | access t spurious => exact fun threshold hc => hok _ hc
    | _ => trivial

/-! ### Times -/

theorem Timed.start {now : U64} : Timed (start now) where
  past := by
    show (nanoseconds now).toNat % 2 ^ 63 ≤ now.toNat
    rw [toNat_nanoseconds, Nat.mod_mod]
    exact Nat.mod_le _ _
  read _ _ h := by cases h
  store _ _ _ h := by cases h
  passed _ _ _ _ h := by cases h
  accepted _ h := by cases h
  apart := List.Pairwise.nil
  stored _ _ := rfl

/-- A thread moves on. -/
theorem Timed.goto (h : Timed s) {pc : Pc} (hread : ∀ x, pc.time? = some x → x.toNat ≤ s.clock)
    (hstore : ∀ l now, pc = .restartStore l now → s.time ≤ now.toNat)
    (hpassed : ∀ c current start, pc = .cas c current start →
      start.toNat + c.threshold.toNat ≤ current.toNat)
    (hstored : pc.call? ≠ none ∨ pc = .returned false → s.stored t = false) :
    Timed (s.goto t pc) := by
  refine ⟨h.past, ?_, ?_, ?_, h.accepted, h.apart, ?_⟩
  · intro u x hx
    by_cases hu : u = t
    · rw [hu, goto_self] at hx
      exact hread x hx
    · rw [goto_of_ne hu] at hx
      exact h.read u x hx
  · intro u l now hx
    by_cases hu : u = t
    · rw [hu, goto_self] at hx
      exact hstore l now hx
    · rw [goto_of_ne hu] at hx
      exact h.store u l now hx
  · intro u c current start hx
    by_cases hu : u = t
    · rw [hu, goto_self] at hx
      exact hpassed c current start hx
    · rw [goto_of_ne hu] at hx
      exact h.passed u c current start hx
  · intro u hx
    by_cases hu : u = t
    · rw [hu, goto_self] at hx
      rw [hu]
      exact hstored hx
    · rw [goto_of_ne hu] at hx
      exact h.stored u hx

/-- A thread moves to where it has no time and is in no call. -/
theorem Timed.goto_plain (h : Timed s) {pc : Pc} (htime : pc.time? = none) (hcall : pc.call? = none)
    (hret : pc ≠ .returned false) : Timed (s.goto t pc) := by
  refine h.goto ?_ ?_ ?_ ?_
  · intro x hx
    rw [htime] at hx
    cases hx
  · rintro l now rfl
    cases htime
  · rintro c current start rfl
    cases htime
  · rintro (hc | hr)
    · exact absurd hcall hc
    · exact absurd hr hret

/-- The `Lock` objects do not matter. -/
theorem Timed.locks (h : Timed s) (locks : ℕ → Option Lock) (made : ℕ) :
    Timed { s with locks := locks, made := made } :=
  ⟨h.past, h.read, h.store, h.passed, h.accepted, h.apart, h.stored⟩

/-- The clock goes on. -/
theorem Timed.tick (h : Timed s) {now : ℕ} (hnow : s.clock ≤ now) : Timed { s with clock := now } :=
  ⟨h.past.trans hnow, fun t x hx => (h.read t x hx).trans hnow, h.store, h.passed, h.accepted,
    h.apart, h.stored⟩

/-- The time in `start_ns` goes on, while no destructor is about to store. -/
theorem Timed.advance (h : Timed s) {x : U64} (hx : s.time ≤ x.toNat % 2 ^ 63)
    (hclock : x.toNat % 2 ^ 63 ≤ s.clock) (hnone : ∀ u l now, s.pc u ≠ .restartStore l now)
    (ht : (s.pc t).call? = none ∧ s.pc t ≠ .returned false) :
    Timed (s.store t x) := by
  refine ⟨hclock, h.read, fun u l now hu => absurd hu (hnone u l now), h.passed, ?_, h.apart, ?_⟩
  · intro a ha
    exact (h.accepted a ha).trans hx
  · intro u hu
    show Function.update s.stored t true u = false
    have hut : u ≠ t := by
      rintro rfl
      exact hu.elim (fun hc => hc ht.1) fun hr => ht.2 hr
    rw [Function.update_of_ne hut]
    exact h.stored u hu

/-- A restart is accepted. -/
theorem Timed.accept (h : Timed s) {a : Accepted} (ha : a.time.toNat ≤ s.time)
    (hapart : ∀ b ∈ s.accepted, b.time.toNat + a.threshold.toNat ≤ a.time.toNat) :
    Timed { s with accepted := a :: s.accepted } := by
  refine ⟨h.past, h.read, h.store, h.passed, ?_, List.pairwise_cons.mpr ⟨hapart, h.apart⟩, h.stored⟩
  intro b hb
  rcases List.mem_cons.mp hb with rfl | hb
  · exact ha
  · exact h.accepted b hb

/-- The loop of a call returns, or the threshold has passed. -/
theorem Timed.attempt (h : Timed s) {c : Call} {current : U64} (hcur : current.toNat ≤ s.clock)
    (hlt : current.toNat < 2 ^ 63) (hstored : s.stored t = false) (hrange : InRange c s) :
    Timed (s.attempt t current s.startNs c) := by
  have hempty : Timed ((s.give .empty).goto t .idle) :=
    Timed.goto_plain (h.locks _ _) rfl rfl (by simp)
  have hcas : ¬ current < s.startNs + c.threshold →
      Timed (s.goto t (.cas c current s.startNs)) := by
    intro hpast
    refine h.goto ?_ ?_ ?_ fun _ => hstored
    · intro x hx
      obtain rfl := Option.some.inj hx
      exact hcur
    · intro l now hx
      cases hx
    · intro c' current' start' hx
      cases hx
      exact (StopWatch.passed hrange hlt hpast).2
  cases c with
  | compareAndRestart threshold =>
    rw [State.attempt]
    split
    · refine h.goto ?_ ?_ ?_ fun _ => hstored
      · intro x hx
        cases hx
      · intro l now hx
        cases hx
      · intro c' current' start' hx
        cases hx
    · rename_i hpast
      exact hcas hpast
  | compareAndRestartDeferred threshold =>
    rw [State.attempt]
    split
    · exact hempty
    · split
      · exact hempty
      · rename_i hpast
        exact hcas hpast

/-- The `compare_exchange_weak` succeeds: nobody holds the lock. -/
theorem Timed.succeed (h : Timed s) (hsh : Shape s) (hex : Exclusive s) (how : Owned s) {c : Call}
    {current : U64} (hpc : s.pc t = .cas c current s.startNs) : Timed (s.succeed t current c) := by
  have hs : s.startNs.toNat < 2 ^ 63 := hsh.expected t _ (by rw [hpc]; rfl)
  have hcur : current.toNat < 2 ^ 63 := hsh.time t _ (by rw [hpc]; rfl)
  have hclock : current.toNat ≤ s.clock := h.read t _ (by rw [hpc]; rfl)
  have hpast := h.passed t c current _ hpc
  have htime : s.time = s.startNs.toNat := Nat.mod_eq_of_lt hs
  have hnone : ∀ pc, (∀ l now, pc ≠ .restartStore l now) →
      ∀ u l now, (s.goto t pc).pc u ≠ .restartStore l now := by
    intro pc hne u l now hu
    by_cases hut : u = t
    · rw [hut, goto_self] at hu
      exact hne l now hu
    · rw [goto_of_ne hut] at hu
      exact hex.none hs (how.holds hsh (by rw [hu]; rfl))
  cases c with
  | compareAndRestart threshold =>
    have hgo : Timed (s.goto t (.returned true)) := h.goto_plain rfl rfl (by simp)
    have hadv : Timed ((s.goto t (.returned true)).store t current) := by
      refine hgo.advance ?_ ?_ (hnone _ fun _ _ => by simp) ?_
      · show s.time ≤ _
        rw [Nat.mod_eq_of_lt hcur]
        omega
      · rw [Nat.mod_eq_of_lt hcur]
        exact hclock
      · rw [goto_self]
        exact ⟨rfl, by simp⟩
    refine hadv.accept (a := ⟨current, threshold⟩) ?_ ?_
    · exact (Nat.mod_eq_of_lt hcur).ge
    · intro b hb
      have hb' : b.time.toNat ≤ s.time := h.accepted b hb
      change s.startNs.toNat + threshold.toNat ≤ current.toNat at hpast
      show b.time.toNat + threshold.toNat ≤ current.toNat
      omega
  | compareAndRestartDeferred threshold =>
    have hgo : Timed (s.goto t .idle) := h.goto_plain rfl rfl (by simp)
    have hbit : (current ||| lockBit).toNat % 2 ^ 63 = current.toNat := by
      rw [toNat_or_lockBit hcur]
      omega
    refine Timed.locks (hgo.advance (x := current ||| lockBit) ?_ ?_
      (hnone _ fun _ _ => by simp) ?_) _ _
    · show s.time ≤ _
      rw [hbit]
      omega
    · rw [hbit]
      exact hclock
    · rw [goto_self]
      exact ⟨rfl, by simp⟩

/-- A destructor stores the time it has read: nobody has set `start_ns` since. -/
theorem Timed.restart (h : Timed s) (hsh : Shape s) (hex : Exclusive s) (how : Owned s)
    {l : ℕ} {now : U64} (hpc : s.pc t = .restartStore l now) :
    Timed (((s.store t now).setLock l none).goto t .idle) := by
  have hown : (s.pc t).lock? = some l := by rw [hpc]; rfl
  have hnow : now.toNat % 2 ^ 63 = now.toNat := Nat.mod_eq_of_lt (hsh.time t _ (by rw [hpc]; rfl))
  have hgo : Timed (s.goto t .idle) := h.goto_plain rfl rfl (by simp)
  refine Timed.locks (hgo.advance (x := now) ?_ ?_ ?_ ?_) _ _
  · rw [hnow]
    exact h.store t l now hpc
  · rw [hnow]
    exact h.read t now (by rw [hpc]; rfl)
  · intro u l' now' hu
    by_cases hut : u = t
    · rw [hut, goto_self] at hu
      cases hu
    · rw [goto_of_ne hut] at hu
      have hown' : (s.pc u).lock? = some l' := by rw [hu]; rfl
      obtain rfl := hex.unique l' l (how.holds hsh hown') (how.holds hsh hown)
      exact hut (hsh.destroyer u t l' hown' hown)
  · rw [goto_self]
    exact ⟨rfl, by simp⟩

theorem Timed.step (h : Timed s) (hsh : Shape s) (hex : Exclusive s) (how : Owned s) {a : Act}
    (hok : TimesOk s a) (hs : step s a = some s') : Timed s' := by
  cases a with
  | move t l => exact hok.elim
  | call t c =>
    cases hpc : s.pc t <;> simp only [StopWatch.step, hpc, Option.some.injEq, reduceCtorEq] at hs
    subst hs
    have hreset : Timed { s with stored := Function.update s.stored t false } := by
      refine ⟨h.past, h.read, h.store, h.passed, h.accepted, h.apart, ?_⟩
      intro u hu
      show Function.update s.stored t false u = false
      by_cases hut : u = t
      · rw [hut, Function.update_self]
      · rw [Function.update_of_ne hut]
        exact h.stored u hu
    refine hreset.goto ?_ ?_ ?_ fun _ => Function.update_self ..
    · intro x hx
      cases hx
    · intro l now hx
      cases hx
    · intro c' current start hx
      cases hx
  | ret t =>
    cases hpc : s.pc t <;> simp only [StopWatch.step, hpc, Option.some.injEq, reduceCtorEq] at hs
    subst hs
    exact h.goto_plain rfl rfl (by simp)
  | read t now =>
    obtain ⟨hclock, hlt⟩ := hok
    have hnow : (nanoseconds now).toNat = now.toNat := by
      rw [toNat_nanoseconds, Nat.mod_eq_of_lt hlt]
    have htick : Timed { s with clock := now.toNat } := h.tick hclock
    cases hpc : s.pc t <;> simp only [StopWatch.step, hpc, Option.some.injEq, reduceCtorEq] at hs
    case clock c =>
      subst hs
      refine htick.goto ?_ ?_ ?_ fun _ => h.stored t
        (.inl (by rw [hpc]; exact Option.some_ne_none c))
      · intro x hx
        obtain rfl := Option.some.inj hx
        exact hnow.le
      · intro l now' hx
        cases hx
      · intro c' current start hx
        cases hx
    case restartClock l =>
      subst hs
      refine htick.goto ?_ ?_ ?_ ?_
      · intro x hx
        obtain rfl := Option.some.inj hx
        exact hnow.le
      · intro l' now' hx
        cases hx
        show s.time ≤ (nanoseconds now).toNat
        rw [hnow]
        exact h.past.trans hclock
      · intro c' current start hx
        cases hx
      · rintro (hx | hx)
        · exact absurd rfl hx
        · cases hx
  | access t spurious =>
    cases hpc : s.pc t <;> simp only [StopWatch.step, hpc, Option.some.injEq, reduceCtorEq] at hs
    case load c current =>
      subst hs
      have hcall : (s.pc t).call? = some c := by rw [hpc]; rfl
      have htime : (s.pc t).time? = some current := by rw [hpc]; rfl
      exact h.attempt (h.read t _ htime) (hsh.time t _ htime)
        (h.stored t (.inl (by rw [hcall]; exact Option.some_ne_none c))) (hok c hcall)
    case cas c current start =>
      have hcall : (s.pc t).call? = some c := by rw [hpc]; rfl
      have htime : (s.pc t).time? = some current := by rw [hpc]; rfl
      split at hs
      · rename_i heq
        obtain rfl := Option.some.inj hs
        exact h.succeed hsh hex how (by rw [hpc, heq.1])
      · obtain rfl := Option.some.inj hs
        exact h.attempt (h.read t _ htime) (hsh.time t _ htime)
          (h.stored t (.inl (by rw [hcall]; exact Option.some_ne_none c))) (hok c hcall)
    case restartStore l now =>
      subst hs
      exact h.restart hsh hex how hpc
  | destroy t l =>
    cases hpc : s.pc t <;> cases hl : s.locks l
      <;> simp only [StopWatch.step, hpc, hl, reduceCtorEq] at hs
    split at hs
    · cases hs
    · split at hs
      · obtain rfl := Option.some.inj hs
        exact Timed.goto_plain (h.locks _ _) rfl rfl (by simp)
      · obtain rfl := Option.some.inj hs
        exact h.locks _ _

theorem timed_of_reach (h : stopwatch.Reach TimesOk s) : Timed s := by
  refine h.invariant (I := Timed) ?_ ?_
  · rintro s ⟨now, rfl⟩
    exact Timed.start
  · intro s a s' hr ih hok hs
    obtain ⟨hsh, hex⟩ := timesOk_keeps hr
    exact ih.step hsh hex (owned_of_reach hr) hok hs

/-! ### What `compareAndRestart` returns -/

/-- The time in `start_ns` does not go back. -/
theorem time_le (h : stopwatch.Reach TimesOk s) {a : Act} (hok : TimesOk s a)
    (hs : step s a = some s') :
    s.time ≤ s'.time := by
  obtain ⟨hsh, hex⟩ := timesOk_keeps h
  have ht := timed_of_reach h
  have hattempt : ∀ t current c, (s.attempt t current s.startNs c).time = s.time := by
    intro t current c
    cases c <;> rw [State.attempt] <;> split <;> try split
    all_goals rfl
  cases a with
  | move t l => exact hok.elim
  | call t c =>
    cases hpc : s.pc t <;> simp only [step, hpc, Option.some.injEq, reduceCtorEq] at hs
    subst hs
    exact le_rfl
  | ret t =>
    cases hpc : s.pc t <;> simp only [step, hpc, Option.some.injEq, reduceCtorEq] at hs
    subst hs
    exact le_rfl
  | read t now =>
    cases hpc : s.pc t <;> simp only [step, hpc, Option.some.injEq, reduceCtorEq] at hs
    · subst hs
      exact le_rfl
    · subst hs
      exact le_rfl
  | access t spurious =>
    cases hpc : s.pc t <;> simp only [step, hpc, Option.some.injEq, reduceCtorEq] at hs
    case load c current =>
      subst hs
      exact (hattempt t current c).ge
    case cas c current start =>
      split at hs
      · rename_i heq
        obtain rfl := Option.some.inj hs
        have hcur : current.toNat < 2 ^ 63 := hsh.time t _ (by rw [hpc]; rfl)
        have hpast := ht.passed t c current start hpc
        have hle : s.time ≤ s.startNs.toNat := Nat.mod_le _ _
        rw [heq.1] at hle
        cases c with
        | compareAndRestart threshold =>
          show s.time ≤ current.toNat % 2 ^ 63
          omega
        | compareAndRestartDeferred threshold =>
          show s.time ≤ (current ||| lockBit).toNat % 2 ^ 63
          rw [toNat_or_lockBit hcur]
          omega
      · obtain rfl := Option.some.inj hs
        exact (hattempt t current c).ge
    case restartStore l now =>
      subst hs
      show s.time ≤ now.toNat % 2 ^ 63
      rw [Nat.mod_eq_of_lt (hsh.time t _ (by rw [hpc]; rfl))]
      exact ht.store t l now hpc
  | destroy t l =>
    cases hpc : s.pc t <;> cases hl : s.locks l <;> simp only [step, hpc, hl, reduceCtorEq] at hs
    split at hs
    · cases hs
    · split at hs
      · obtain rfl := Option.some.inj hs
        exact le_rfl
      · obtain rfl := Option.some.inj hs
        exact le_rfl

theorem goto_ne_returned {w : State} {u : ℕ} {pc : Pc} (hw : w.pc = s.pc)
    (hpc : pc ≠ .returned true) (hu : s.pc u ≠ .returned true) :
    (w.goto t pc).pc u ≠ .returned true := by
  by_cases hut : u = t
  · rw [hut, goto_self]
    exact hpc
  · rw [goto_of_ne hut, hw]
    exact hu

theorem attempt_ne_returned {u : ℕ} {current start : U64} {c : Call}
    (hu : s.pc u ≠ .returned true) :
    (s.attempt t current start c).pc u ≠ .returned true := by
  cases c with
  | compareAndRestart threshold =>
    rw [State.attempt]
    split
    · exact goto_ne_returned rfl (by simp) hu
    · exact goto_ne_returned rfl (by simp) hu
  | compareAndRestartDeferred threshold =>
    rw [State.attempt]
    split
    · exact goto_ne_returned rfl (by simp) hu
    · split
      · exact goto_ne_returned rfl (by simp) hu
      · exact goto_ne_returned rfl (by simp) hu

/-- A call comes to return `true` by a `compare_exchange_weak` that succeeds. -/
theorem returned_true {a : Act} (hs : step s a = some s') (hr : s'.pc t = .returned true)
    (hn : s.pc t ≠ .returned true) :
    ∃ threshold current, s.pc t = .cas (.compareAndRestart threshold) current s.startNs ∧
      s' = s.succeed t current (.compareAndRestart threshold) := by
  cases a with
  | call u c =>
    cases hpc : s.pc u <;> simp only [step, hpc, Option.some.injEq, reduceCtorEq] at hs
    subst hs
    exact absurd hr (goto_ne_returned (w := s) rfl (by simp) hn)
  | ret u =>
    cases hpc : s.pc u <;> simp only [step, hpc, Option.some.injEq, reduceCtorEq] at hs
    subst hs
    exact absurd hr (goto_ne_returned rfl (by simp) hn)
  | read u now =>
    cases hpc : s.pc u <;> simp only [step, hpc, Option.some.injEq, reduceCtorEq] at hs
    · subst hs
      exact absurd hr (goto_ne_returned (w := s) rfl (by simp) hn)
    · subst hs
      exact absurd hr (goto_ne_returned (w := s) rfl (by simp) hn)
  | access u spurious =>
    cases hpc : s.pc u <;> simp only [step, hpc, Option.some.injEq, reduceCtorEq] at hs
    · subst hs
      exact absurd hr (attempt_ne_returned hn)
    · rename_i c current start
      split at hs
      · rename_i heq
        obtain rfl := Option.some.inj hs
        cases c with
        | compareAndRestart threshold =>
          have hut : t = u := by
            by_contra hut
            change (s.goto u (.returned true)).pc t = .returned true at hr
            rw [goto_of_ne hut] at hr
            exact hn hr
          subst hut
          exact ⟨threshold, current, by rw [hpc, heq.1], rfl⟩
        | compareAndRestartDeferred threshold => exact absurd hr (goto_ne_returned rfl (by simp) hn)
      · obtain rfl := Option.some.inj hs
        exact absurd hr (attempt_ne_returned hn)
    · subst hs
      exact absurd hr (goto_ne_returned rfl (by simp) hn)
  | move u l =>
    cases hpc : s.pc u <;> cases hl : s.locks l <;> simp only [step, hpc, hl, reduceCtorEq] at hs
    split at hs
    · cases hs
    · obtain rfl := Option.some.inj hs
      exact absurd hr hn
  | destroy u l =>
    cases hpc : s.pc u <;> cases hl : s.locks l <;> simp only [step, hpc, hl, reduceCtorEq] at hs
    split at hs
    · cases hs
    · split at hs
      · obtain rfl := Option.some.inj hs
        exact absurd hr (goto_ne_returned rfl (by simp) hn)
      · obtain rfl := Option.some.inj hs
        exact absurd hr hn

/-- **`compareAndRestart` limits the rate.** A call that returns `false` has stored nothing; one
that returns `true` has found the stopwatch not locked and set it to a time that is its threshold
later; and the times set so are apart by the threshold of the later. -/
theorem compareAndRestart_apart (h : stopwatch.Reach TimesOk s) :
    (∀ t, s.pc t = .returned false → s.stored t = false) ∧
      (s.accepted.Pairwise fun later earlier => earlier.time.toNat + later.threshold.toNat ≤
        later.time.toNat) ∧
      ∀ a s', TimesOk s a → step s a = some s' → s.time ≤ s'.time ∧
        ∀ t threshold, (s.pc t).call? = some (.compareAndRestart threshold) →
          s'.pc t = .returned true →
          s.startNs.toNat < 2 ^ 63 ∧ s.startNs.toNat + threshold.toNat ≤ s'.startNs.toNat ∧
            s'.accepted = ⟨s'.startNs, threshold⟩ :: s.accepted := by
  obtain ⟨hsh, -⟩ := timesOk_keeps h
  have ht := timed_of_reach h
  refine ⟨fun t hr => ht.stored t (.inr hr), ht.apart, ?_⟩
  intro a s' hok hs
  refine ⟨time_le h hok hs, ?_⟩
  intro t threshold hc hr
  have hn : s.pc t ≠ .returned true := by
    intro hpc
    rw [hpc] at hc
    cases hc
  obtain ⟨threshold', current, hpc, rfl⟩ := returned_true hs hr hn
  obtain rfl : threshold' = threshold := by
    rw [hpc] at hc
    cases hc
    rfl
  exact ⟨hsh.expected t _ (by rw [hpc]; rfl), ht.passed t _ current _ hpc, rfl⟩

/-- Thread 0 reads the clock first; thread 1 restarts the stopwatch; the `compare_exchange_weak` of
thread 0 fails, and its time is too early. -/
theorem compareAndRestart_apart_stale :
    ∃ s, exec step (start 0) [.call 0 (.compareAndRestart 5), .read 0 10, .access 0 false,
        .call 1 (.compareAndRestart 5), .read 1 11, .access 1 false, .access 1 false,
          .access 0 false] = some s ∧
      s.pc 0 = .returned false ∧ s.pc 1 = .returned true ∧ s.stored 0 = false ∧ s.startNs = 11 := by
  have h0 : stopwatch.Reach TimesOk (start 0) := .init ⟨0, rfl⟩
  have h2 := (h0.step (a := Act.call 0 (.compareAndRestart 5)) trivial rfl).step
    (a := Act.read 0 10) ⟨by decide, by decide⟩ rfl
  have hrange : ∀ {s : State} {t : ℕ} {spurious : Bool} {c : Call}, (s.pc t).call? = some c →
      InRange c s →
      TimesOk s (.access t spurious) := by
    intro s t spurious c hc hr c' hc'
    obtain rfl := Option.some.inj (hc.symm.trans hc')
    exact hr
  have h3 :=
    h2.step (a := Act.access 0 false) (hrange (c := .compareAndRestart 5) rfl (by decide)) rfl
  have h5 := (h3.step (a := Act.call 1 (.compareAndRestart 5)) trivial rfl).step
    (a := Act.read 1 11) ⟨by decide, by decide⟩ rfl
  have h6 := h5.step (a := Act.access 1 false)
    (hrange (c := .compareAndRestart 5) rfl (by decide)) rfl
  have h7 :=
    h6.step (a := Act.access 1 false) (hrange (c := .compareAndRestart 5) rfl (by decide)) rfl
  have h8 :=
    h7.step (a := Act.access 0 false) (hrange (c := .compareAndRestart 5) rfl (by decide)) rfl
  exact ⟨_, rfl, rfl, rfl, (compareAndRestart_apart h8).1 0 rfl, rfl⟩

end NetworkDemo.StopWatch
