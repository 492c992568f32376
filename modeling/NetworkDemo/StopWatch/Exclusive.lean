import NetworkDemo.StopWatch.AtomicStopwatch

/-!
# One acquisition at a time

An acquisition is outstanding from the `compare_exchange_weak` that sets the lock bit to the
store of the destructor of the `Lock` that finally holds it. One is outstanding if and only
if the bit is set, and then only one (`Exclusive`), as long as two things do not happen.

* `Lock`'s move constructor leaves `parent` set in the object that is moved from, whose
  destructor then calls `restart` too. It must not store while an acquisition is outstanding
  (`LeavesLock`).
* `compareAndRestart`, on a stopwatch that is locked, adds a threshold to a word with the
  lock bit. The sum must not wrap around (`InRange`).

* `exclusive` — with `compareAndRestartDeferred` alone, the lock is exclusive in every run in
  which no `Lock` moved from stores while an acquisition is outstanding.
* `not_exclusive` — a run in which one does.
-/

namespace NetworkDemo.StopWatch

open Foundations

/-- `Lock` `l` holds an acquisition. -/
def State.Holds (s : State) (l : ℕ) : Prop := ∃ lock, s.locks l = some lock ∧ lock.holds = true

/-- A time a thread has read. -/
def Pc.time? : Pc → Option U64
  | .load _ current => some current
  | .cas _ current _ => some current
  | .restartStore _ now => some now
  | _ => none

/-- The `Lock` a thread destroys. -/
def Pc.lock? : Pc → Option ℕ
  | .restartClock l => some l
  | .restartStore l _ => some l
  | _ => none

/-- What a call compares `start_ns` with. -/
def Pc.expected? : Pc → Option U64
  | .cas _ _ start => some start
  | _ => none

/-- The call whose loop a thread is in. -/
def Pc.call? : Pc → Option Call
  | .clock c => some c
  | .load c _ => some c
  | .cas c _ _ => some c
  | _ => none

/-- A destructor stores either as the one that holds the acquisition, or when there is none. -/
def LeavesLock (s : State) : Act → Prop
  | .access t _ => ∀ l now, s.pc t = .restartStore l now → s.Holds l ∨ ∀ l', ¬ s.Holds l'
  | _ => True

/-- The time in `start_ns` and the threshold of a call in its loop add up to less than `2⁶³`. -/
def InRange (c : Call) (s : State) : Prop := s.startNs.toNat % 2 ^ 63 + c.threshold.toNat < 2 ^ 63

instance (c : Call) (s : State) : Decidable (InRange c s) := inferInstanceAs (Decidable (_ < _))

/-- Of the calls of `compareAndRestart`, at each comparison. -/
def RestartInRange (s : State) : Act → Prop
  | .access t _ => ∀ threshold, (s.pc t).call? = some (.compareAndRestart threshold) →
      InRange (.compareAndRestart threshold) s
  | _ => True

/-- The lock bit is set if and only if an acquisition is outstanding, and then it is the only
one. -/
structure Exclusive (s : State) : Prop where
  bit : 2 ^ 63 ≤ s.startNs.toNat ↔ ∃ l, s.Holds l
  unique : ∀ l l', s.Holds l → s.Holds l' → l = l'

/-- What the positions of the threads say of the `Lock` objects. -/
structure Shape (s : State) : Prop where
  fresh : ∀ l lock, s.locks l = some lock → l < s.made
  parent : ∀ l lock, s.locks l = some lock → lock.holds = true → lock.parent = true
  /-- What is compared has no lock bit, -/
  expected : ∀ t x, (s.pc t).expected? = some x → x.toNat < 2 ^ 63
  /-- nor has a time. -/
  time : ∀ t x, (s.pc t).time? = some x → x.toNat < 2 ^ 63
  destroyed : ∀ t l, (s.pc t).lock? = some l → ∃ lock, s.locks l = some lock ∧ lock.parent = true ∧
    lock.destroying = true
  destroyer : ∀ t u l, (s.pc t).lock? = some l → (s.pc u).lock? = some l → t = u

variable {s s' : State} {t l : ℕ} {lock : Lock}

/-! ### `Lock` objects -/

theorem holds_setLock {o : Option Lock} {j : ℕ} :
    (s.setLock l o).Holds j ↔ j = l ∧ (∃ lock, o = some lock ∧ lock.holds = true) ∨
    j ≠ l ∧ s.Holds j := by
  by_cases hj : j = l
  · subst hj
    have hself : (s.setLock j o).locks j = o := Function.update_self ..
    simp only [State.Holds, hself, true_and, ne_eq, not_true_eq_false, false_and, or_false]
  · have hne : (s.setLock l o).locks j = s.locks j := Function.update_of_ne hj ..
    simp only [State.Holds, hne, hj, false_and, ne_eq, not_false_eq_true, true_and, false_or]

theorem Shape.not_holds_made (h : Shape s) : ¬ s.Holds s.made := by
  rintro ⟨lock, hl, -⟩
  exact lt_irrefl _ (h.fresh _ _ hl)

theorem Shape.holds_give (h : Shape s) {j : ℕ} :
    (s.give lock).Holds j ↔ j = s.made ∧ lock.holds = true ∨ s.Holds j := by
  change (s.setLock s.made (some lock)).Holds j ↔ _
  rw [holds_setLock]
  constructor
  · rintro (⟨rfl, lock', he, hh⟩ | ⟨-, hh⟩)
    · obtain rfl := Option.some.inj he
      exact .inl ⟨rfl, hh⟩
    · exact .inr hh
  · rintro (⟨rfl, hh⟩ | hh)
    · exact .inl ⟨rfl, lock, rfl, hh⟩
    · refine .inr ⟨?_, hh⟩
      rintro rfl
      exact h.not_holds_made hh

theorem Exclusive.congr (h : Exclusive s) (hs : s'.startNs = s.startNs)
    (hh : ∀ l, s'.Holds l ↔ s.Holds l) :
    Exclusive s' := by
  constructor
  · rw [hs, h.bit]
    exact exists_congr fun l => (hh l).symm
  · intro l l' hl hl'
    exact h.unique l l' ((hh l).mp hl) ((hh l').mp hl')

theorem Exclusive.none (h : Exclusive s) (hs : s.startNs.toNat < 2 ^ 63) : ¬ s.Holds l := fun hl =>
  absurd (h.bit.mpr ⟨l, hl⟩) (not_le.mpr hs)

/-- An unlocked state, with no acquisition. -/
theorem Exclusive.unlocked (hs : s.startNs.toNat < 2 ^ 63) (hn : ∀ l, ¬ s.Holds l) :
    Exclusive s where
  bit := ⟨fun h => absurd h (not_le.mpr hs), fun ⟨l, hl⟩ => absurd hl (hn l)⟩
  unique l _ hl := absurd hl (hn l)

/-- A locked one, with one. -/
theorem Exclusive.locked (hs : 2 ^ 63 ≤ s.startNs.toNat) (hl : ∀ j, s.Holds j ↔ j = l) :
    Exclusive s where
  bit := ⟨fun _ => ⟨l, (hl l).mpr rfl⟩, fun _ => hs⟩
  unique j k hj hk := ((hl j).mp hj).trans ((hl k).mp hk).symm

/-! ### Positions -/

theorem goto_self {pc : Pc} : (s.goto t pc).pc t = pc := Function.update_self ..

theorem goto_of_ne {pc : Pc} {u : ℕ} (hu : u ≠ t) : (s.goto t pc).pc u = s.pc u :=
  Function.update_of_ne hu ..

/-- A thread moves on, and keeps to its `Lock`. -/
theorem Shape.goto (h : Shape s) {pc : Pc} (hexp : ∀ x, pc.expected? = some x → x.toNat < 2 ^ 63)
    (htime : ∀ x, pc.time? = some x → x.toNat < 2 ^ 63)
    (hlock : ∀ l, pc.lock? = some l → (s.pc t).lock? = some l) :
    Shape (s.goto t pc) := by
  have hlocks : ∀ u l, ((s.goto t pc).pc u).lock? = some l → (s.pc u).lock? = some l := by
    intro u l hl
    by_cases hu : u = t
    · subst hu
      rw [goto_self] at hl
      exact hlock l hl
    · rwa [goto_of_ne hu] at hl
  refine ⟨h.fresh, h.parent, ?_, ?_, ?_, ?_⟩
  · intro u x hx
    by_cases hu : u = t
    · subst hu
      rw [goto_self] at hx
      exact hexp x hx
    · rw [goto_of_ne hu] at hx
      exact h.expected u x hx
  · intro u x hx
    by_cases hu : u = t
    · subst hu
      rw [goto_self] at hx
      exact htime x hx
    · rw [goto_of_ne hu] at hx
      exact h.time u x hx
  · intro u l hl
    exact h.destroyed u l (hlocks u l hl)
  · intro u v l hu hv
    exact h.destroyer u v l (hlocks u l hu) (hlocks v l hv)

/-- A thread moves to where it has nothing to compare, no time and no `Lock`. -/
theorem Shape.goto_plain (h : Shape s) {pc : Pc} (hexp : pc.expected? = none)
    (htime : pc.time? = none) (hlock : pc.lock? = none) : Shape (s.goto t pc) := by
  refine h.goto ?_ ?_ ?_
  · intro x hx
    rw [hexp] at hx
    cases hx
  · intro x hx
    rw [htime] at hx
    cases hx
  · intro l hl
    rw [hlock] at hl
    cases hl

/-- The word and what is recorded do not matter. -/
theorem Shape.record (h : Shape s) (startNs : U64) (clock : ℕ) (stored : ℕ → Bool)
    (accepted : List Accepted) :
    Shape { s with startNs := startNs, clock := clock, stored := stored, accepted := accepted } :=
  ⟨h.fresh, h.parent, h.expected, h.time, h.destroyed, h.destroyer⟩

/-- What a `Lock` is changes, which no thread destroys. -/
theorem Shape.setLock (h : Shape s) {o : Option Lock} (hl : o ≠ none → l < s.made)
    (hp : ∀ lock, o = some lock → lock.holds = true → lock.parent = true)
    (hfree : ∀ t, (s.pc t).lock? ≠ some l) :
    Shape (s.setLock l o) := by
  have hself : (s.setLock l o).locks l = o := Function.update_self ..
  have hne : ∀ j, j ≠ l → (s.setLock l o).locks j = s.locks j :=
    fun j hj => Function.update_of_ne hj ..
  refine ⟨?_, ?_, h.expected, h.time, ?_, h.destroyer⟩
  · intro j lock hj
    by_cases hjl : j = l
    · subst hjl
      rw [hself] at hj
      exact hl (by rw [hj]; exact Option.some_ne_none lock)
    · rw [hne j hjl] at hj
      exact h.fresh j lock hj
  · intro j lock hj
    by_cases hjl : j = l
    · subst hjl
      rw [hself] at hj
      exact hp lock hj
    · rw [hne j hjl] at hj
      exact h.parent j lock hj
  · intro t j hj
    have hjl : j ≠ l := by
      rintro rfl
      exact hfree t hj
    rw [hne j hjl]
    exact h.destroyed t j hj

theorem Shape.give (h : Shape s) (hp : lock.holds = true → lock.parent = true) :
    Shape (s.give lock) := by
  have hself : (s.give lock).locks s.made = some lock := Function.update_self ..
  have hne : ∀ j, j ≠ s.made → (s.give lock).locks j = s.locks j :=
    fun j hj => Function.update_of_ne hj ..
  refine ⟨?_, ?_, h.expected, h.time, ?_, h.destroyer⟩
  · intro j lock' hj
    show j < s.made + 1
    by_cases hjm : j = s.made
    · omega
    · rw [hne j hjm] at hj
      exact (h.fresh j lock' hj).trans (Nat.lt_succ_self _)
  · intro j lock' hj
    by_cases hjm : j = s.made
    · rw [hjm, hself] at hj
      obtain rfl := Option.some.inj hj
      exact hp
    · rw [hne j hjm] at hj
      exact h.parent j lock' hj
  · intro t j hj
    obtain ⟨lock', hl, hrest⟩ := h.destroyed t j hj
    have hjm : j ≠ s.made := (h.fresh j lock' hl).ne
    rw [hne j hjm]
    exact ⟨lock', hl, hrest⟩

/-- A `Lock` that is not being destroyed is no thread's. -/
theorem Shape.free (h : Shape s) (hl : s.locks l = some lock) (hd : lock.destroying ≠ true) :
    ∀ t, (s.pc t).lock? ≠ some l := by
  intro t ht
  obtain ⟨lock', hl', -, hd'⟩ := h.destroyed t l ht
  obtain rfl := Option.some.inj (hl.symm.trans hl')
  exact hd hd'

/-! ### A step -/

theorem holds_goto {pc : Pc} : (s.goto t pc).Holds l ↔ s.Holds l := Iff.rfl

/-- The loop of a call returns, or has something without lock bit to compare `start_ns` with. -/
theorem attempt_keeps (h : Shape s) (hex : Exclusive s) {c : Call} {current : U64}
    (hc : current.toNat < 2 ^ 63)
    (hrange : ∀ threshold, c = .compareAndRestart threshold → InRange c s) :
    Shape (s.attempt t current s.startNs c) ∧ Exclusive (s.attempt t current s.startNs c) := by
  have hempty : Shape ((s.give .empty).goto t .idle) ∧
      Exclusive ((s.give .empty).goto t .idle) := by
    refine ⟨(h.give fun hh => by cases hh).goto_plain rfl rfl rfl, hex.congr rfl fun l => ?_⟩
    rw [holds_goto, h.holds_give]
    simp only [Lock.empty, Bool.false_eq_true, and_false, false_or]
  have hcas : s.startNs.toNat < 2 ^ 63 →
      Shape (s.goto t (.cas c current s.startNs)) ∧
        Exclusive (s.goto t (.cas c current s.startNs)) := by
    intro hs
    refine ⟨h.goto ?_ ?_ ?_, hex.congr rfl fun l => Iff.rfl⟩
    · intro x hx
      obtain rfl := Option.some.inj hx
      exact hs
    · intro x hx
      obtain rfl := Option.some.inj hx
      exact hc
    · intro l hl
      cases hl
  cases c with
  | compareAndRestart threshold =>
    rw [State.attempt]
    split
    · exact ⟨h.goto_plain rfl rfl rfl, hex.congr rfl fun l => Iff.rfl⟩
    · rename_i hpast
      exact hcas (passed (hrange threshold rfl) hc hpast).1
  | compareAndRestartDeferred threshold =>
    rw [State.attempt]
    split
    · exact hempty
    · rename_i hbit
      split
      · exact hempty
      · exact hcas (and_lockBit_eq_zero.mp (not_not.mp hbit))

/-- The `compare_exchange_weak` succeeds, on a stopwatch that is not locked. -/
theorem succeed_keeps (h : Shape s) (hex : Exclusive s) {c : Call} {current : U64}
    (hc : current.toNat < 2 ^ 63) (hs : s.startNs.toNat < 2 ^ 63) :
    Shape (s.succeed t current c) ∧ Exclusive (s.succeed t current c) := by
  cases c with
  | compareAndRestart threshold =>
    refine ⟨?_, Exclusive.unlocked hc fun l => hex.none hs⟩
    exact (h.goto_plain rfl rfl rfl).record current _ _ _
  | compareAndRestartDeferred threshold =>
    constructor
    · exact ((h.record _ s.clock _ s.accepted).give fun _ => rfl).goto_plain rfl rfl rfl
    · refine Exclusive.locked (l := s.made) ?_ fun j => ?_
      · show 2 ^ 63 ≤ (current ||| lockBit).toNat
        rw [toNat_or_lockBit hc]
        omega
      · refine Iff.trans (h.record _ s.clock _ s.accepted).holds_give ?_
        exact ⟨fun hj => hj.elim And.left fun hj => absurd hj (hex.none hs),
          fun hj => .inl ⟨hj, rfl⟩⟩

/-- A destructor stores. -/
theorem store_keeps (h : Shape s) (hex : Exclusive s) {now : U64}
    (hpc : s.pc t = .restartStore l now) (hl : s.Holds l ∨ ∀ l', ¬ s.Holds l') :
    Shape (((s.store t now).setLock l none).goto t .idle) ∧ Exclusive
      (((s.store t now).setLock l none).goto t .idle) := by
  have hnow : now.toNat < 2 ^ 63 := h.time t now (by rw [hpc]; rfl)
  have hown : (s.pc t).lock? = some l := by rw [hpc]; rfl
  constructor
  · -- first the thread leaves the `Lock`, then it is no more
    have hplain : Shape (s.goto t .idle) := h.goto_plain rfl rfl rfl
    have hidle := hplain.record now s.clock
      (Function.update s.stored t true) s.accepted
    refine hidle.setLock (fun hn => absurd rfl hn) (fun _ hn => by cases hn) ?_
    intro u hu
    change ((s.goto t .idle).pc u).lock? = some l at hu
    by_cases hut : u = t
    · rw [hut, goto_self] at hu
      cases hu
    · rw [goto_of_ne hut] at hu
      exact hut (h.destroyer u t l hu hown)
  · refine Exclusive.unlocked hnow fun j hj => ?_
    rw [holds_goto, holds_setLock] at hj
    rcases hj with ⟨-, _, hn, -⟩ | ⟨hjl, hj⟩
    · cases hn
    · rcases hl with hl | hnone
      · exact hjl (hex.unique j l hj hl)
      · exact hnone j hj

theorem move_keeps (h : Shape s) (hex : Exclusive s) (hl : s.locks l = some lock)
    (hd : lock.destroying ≠ true) :
    Shape ((s.setLock l (some { lock with holds := false })).give lock) ∧
      Exclusive ((s.setLock l (some { lock with holds := false })).give lock) := by
  have hlt := h.fresh l lock hl
  have hfrom : Shape (s.setLock l (some { lock with holds := false })) := by
    refine h.setLock (fun _ => hlt) ?_ (h.free hl hd)
    intro lock' he hh
    obtain rfl := Option.some.inj he
    cases hh
  have hholds : ∀ j, ((s.setLock l (some { lock with holds := false })).give lock).Holds j ↔
      j = s.made ∧ lock.holds = true ∨ j ≠ l ∧ s.Holds j := by
    intro j
    rw [hfrom.holds_give, holds_setLock]
    apply or_congr Iff.rfl
    constructor
    · rintro (⟨-, lock', he, hh⟩ | hj)
      · obtain rfl := Option.some.inj he
        cases hh
      · exact hj
    · exact .inr
  refine ⟨hfrom.give (h.parent l lock hl), ?_⟩
  by_cases hh : lock.holds = true
  · -- the acquisition goes over to the new object
    have hsl : s.Holds l := ⟨lock, hl, hh⟩
    refine Exclusive.locked (l := s.made) (hex.bit.mpr ⟨l, hsl⟩) fun j => ?_
    rw [hholds]
    constructor
    · rintro (⟨hj, -⟩ | ⟨hjl, hj⟩)
      · exact hj
      · exact absurd (hex.unique j l hj hsl) hjl
    · exact fun hj => .inl ⟨hj, hh⟩
  · refine hex.congr rfl fun j => ?_
    rw [hholds]
    constructor
    · rintro (⟨-, hj⟩ | ⟨-, hj⟩)
      · exact absurd hj hh
      · exact hj
    · intro hj
      refine .inr ⟨?_, hj⟩
      rintro rfl
      obtain ⟨lock', hl', hh'⟩ := hj
      obtain rfl := Option.some.inj (hl.symm.trans hl')
      exact hh hh'

/-- The destructor of a `Lock` begins, and ends at once if `parent` is null. -/
theorem destroy_keeps (h : Shape s) (hex : Exclusive s) (hl : s.locks l = some lock)
    (hd : lock.destroying ≠ true) :
    (lock.parent = true →
      Shape ((s.setLock l (some { lock with destroying := true })).goto t (.restartClock l)) ∧
        Exclusive ((s.setLock l (some { lock with destroying := true })).goto t
          (.restartClock l))) ∧
      (lock.parent ≠ true → Shape (s.setLock l none) ∧ Exclusive (s.setLock l none)) := by
  have hfree := h.free hl hd
  have hsl : s.Holds l ↔ lock.holds = true := by
    constructor
    · rintro ⟨lock', hl', hh⟩
      obtain rfl := Option.some.inj (hl.symm.trans hl')
      exact hh
    · exact fun hh => ⟨lock, hl, hh⟩
  constructor
  · intro hp
    have hset : Shape (s.setLock l (some { lock with destroying := true })) := by
      refine h.setLock (fun _ => h.fresh l lock hl) ?_ hfree
      intro lock' he hh
      obtain rfl := Option.some.inj he
      exact hp
    refine ⟨⟨hset.fresh, hset.parent, ?_, ?_, ?_, ?_⟩, hex.congr rfl fun j => ?_⟩
    · intro u x hx
      by_cases hu : u = t
      · subst hu
        rw [goto_self] at hx
        cases hx
      · rw [goto_of_ne hu] at hx
        exact hset.expected u x hx
    · intro u x hx
      by_cases hu : u = t
      · subst hu
        rw [goto_self] at hx
        cases hx
      · rw [goto_of_ne hu] at hx
        exact hset.time u x hx
    · intro u j hj
      by_cases hu : u = t
      · subst hu
        rw [goto_self] at hj
        obtain rfl : l = j := Option.some.inj hj
        exact ⟨_, Function.update_self .., hp, rfl⟩
      · rw [goto_of_ne hu] at hj
        exact hset.destroyed u j hj
    · intro u v j hu hv
      by_cases hut : u = t <;> by_cases hvt : v = t
      · rw [hut, hvt]
      · rw [hut, goto_self] at hu
        rw [goto_of_ne hvt] at hv
        exact absurd (Option.some.inj hu ▸ hv) (hfree v)
      · rw [goto_of_ne hut] at hu
        rw [hvt, goto_self] at hv
        exact absurd (Option.some.inj hv ▸ hu) (hfree u)
      · rw [goto_of_ne hut] at hu
        rw [goto_of_ne hvt] at hv
        exact hset.destroyer u v j hu hv
    · rw [holds_goto, holds_setLock]
      by_cases hj : j = l
      · subst hj
        rw [hsl]
        simp only [true_and, ne_eq, not_true_eq_false, false_and, or_false, Option.some.injEq,
          exists_eq_left']
      · simp only [hj, false_and, ne_eq, not_false_eq_true, true_and, false_or]
  · intro hp
    refine ⟨h.setLock (fun hn => absurd rfl hn) (fun _ hn => by cases hn) hfree,
      hex.congr rfl fun j => ?_⟩
    rw [holds_setLock]
    by_cases hj : j = l
    · subst hj
      have hno : ¬ lock.holds = true := fun hh => hp (h.parent j lock hl hh)
      simp only [hsl, hno, reduceCtorEq, false_and, exists_false, and_false, ne_eq,
        not_true_eq_false, or_false]
    · simp only [hj, false_and, ne_eq, not_false_eq_true, true_and, false_or]

/-- **A step keeps the lock exclusive.** -/
theorem step_keeps (h : Shape s) (hex : Exclusive s) {a : Act} (hleave : LeavesLock s a)
    (hrange : RestartInRange s a) (hs : step s a = some s') : Shape s' ∧ Exclusive s' := by
  cases a with
  | call t c =>
    cases hpc : s.pc t <;> simp only [step, hpc, Option.some.injEq, reduceCtorEq] at hs
    subst hs
    exact ⟨(h.goto_plain rfl rfl rfl).record _ _ _ _, hex.congr rfl fun l => Iff.rfl⟩
  | ret t =>
    cases hpc : s.pc t <;> simp only [step, hpc, Option.some.injEq, reduceCtorEq] at hs
    subst hs
    exact ⟨h.goto_plain rfl rfl rfl, hex.congr rfl fun l => Iff.rfl⟩
  | read t now =>
    cases hpc : s.pc t <;> simp only [step, hpc, Option.some.injEq, reduceCtorEq] at hs
    case clock c =>
      subst hs
      refine ⟨Shape.record (h.goto ?_ ?_ ?_) _ _ _ _, hex.congr rfl fun l => Iff.rfl⟩
      · intro x hx
        cases hx
      · intro x hx
        obtain rfl := Option.some.inj hx
        exact nanoseconds_lt now
      · intro l hl
        cases hl
    case restartClock l =>
      subst hs
      refine ⟨Shape.record (h.goto ?_ ?_ ?_) _ _ _ _, hex.congr rfl fun l => Iff.rfl⟩
      · intro x hx
        cases hx
      · intro x hx
        obtain rfl := Option.some.inj hx
        exact nanoseconds_lt now
      · intro j hj
        rw [hpc]
        exact hj
  | access t spurious =>
    cases hpc : s.pc t <;> simp only [step, hpc, Option.some.injEq, reduceCtorEq] at hs
    case load c current =>
      subst hs
      refine attempt_keeps h hex (h.time t current (by rw [hpc]; rfl)) ?_
      rintro threshold rfl
      exact hrange threshold (by rw [hpc]; rfl)
    case cas c current start =>
      have hcur := h.time t current (by rw [hpc]; rfl)
      split at hs
      · rename_i heq
        obtain rfl := Option.some.inj hs
        refine succeed_keeps h hex hcur ?_
        rw [heq.1]
        exact h.expected t start (by rw [hpc]; rfl)
      · obtain rfl := Option.some.inj hs
        refine attempt_keeps h hex hcur ?_
        rintro threshold rfl
        exact hrange threshold (by rw [hpc]; rfl)
    case restartStore l now =>
      subst hs
      exact store_keeps h hex hpc (hleave l now hpc)
  | move t l =>
    cases hpc : s.pc t <;> cases hl : s.locks l <;> simp only [step, hpc, hl, reduceCtorEq] at hs
    split at hs
    · cases hs
    · rename_i hd
      obtain rfl := Option.some.inj hs
      exact move_keeps h hex hl hd
  | destroy t l =>
    cases hpc : s.pc t <;> cases hl : s.locks l <;> simp only [step, hpc, hl, reduceCtorEq] at hs
    split at hs
    · cases hs
    · rename_i hd
      obtain ⟨hset, hnull⟩ := destroy_keeps (t := t) h hex hl hd
      split at hs
      · rename_i hp
        obtain rfl := Option.some.inj hs
        exact hset hp
      · rename_i hp
        obtain rfl := Option.some.inj hs
        exact hnull hp

theorem Shape.start (now : U64) : Shape (start now) where
  fresh _ _ h := by cases h
  parent _ _ h := by cases h
  expected _ _ h := by cases h
  time _ _ h := by cases h
  destroyed _ _ h := by cases h
  destroyer _ _ _ h := by cases h

theorem Exclusive.start (now : U64) : Exclusive (start now) :=
  Exclusive.unlocked (nanoseconds_lt now) fun _ ⟨_, h, _⟩ => by cases h

/-- The invariant, of runs in which every step meets both conditions. -/
theorem keeps_of_reach {ok : State → Act → Prop}
    (hleave : ∀ s a, stopwatch.Reach ok s → Shape s → ok s a → LeavesLock s a)
    (hrange : ∀ s a, stopwatch.Reach ok s → ok s a → RestartInRange s a)
    (h : stopwatch.Reach ok s) :
    Shape s ∧ Exclusive s := by
  refine h.invariant (I := fun s => Shape s ∧ Exclusive s) ?_ ?_
  · rintro s ⟨now, rfl⟩
    exact ⟨Shape.start now, Exclusive.start now⟩
  · rintro s a s' hr ⟨hsh, hex⟩ hok hs
    exact step_keeps hsh hex (hleave s a hr hsh hok) (hrange s a hr hok) hs

/-! ### `compareAndRestartDeferred` alone -/

/-- Not a call of `compareAndRestart`. -/
def Deferred : Act → Prop
  | .call _ (.compareAndRestart _) => False
  | _ => True

theorem call?_goto {s₁ : State} {pc : Pc} {u : ℕ} {c : Call} (hs₁ : s₁.pc = s.pc)
    (hpc : pc.call? = none ∨ pc.call? = (s.pc t).call?)
    (hu : ((s₁.goto t pc).pc u).call? = some c) :
    (s.pc u).call? = some c := by
  by_cases hut : u = t
  · subst hut
    rw [goto_self] at hu
    rcases hpc with hpc | hpc
    · rw [hpc] at hu
      cases hu
    · exact hpc.symm.trans hu
  · rwa [goto_of_ne hut, hs₁] at hu

theorem call?_attempt {u : ℕ} {c c' : Call} {current start : U64} (ht : (s.pc t).call? = some c)
    (hc : ((s.attempt t current start c).pc u).call? = some c') : (s.pc u).call? = some c' := by
  cases c with
  | compareAndRestart threshold =>
    rw [State.attempt] at hc
    split at hc
    · exact call?_goto rfl (.inl rfl) hc
    · refine call?_goto rfl (.inr ?_) hc
      exact ht.symm
  | compareAndRestartDeferred threshold =>
    rw [State.attempt] at hc
    split at hc
    · exact call?_goto rfl (.inl rfl) hc
    · split at hc
      · exact call?_goto rfl (.inl rfl) hc
      · refine call?_goto rfl (.inr ?_) hc
        exact ht.symm

/-- A thread in a call was in it, or makes it. -/
theorem call?_step {u : ℕ} {c : Call} {a : Act} (hs : step s a = some s')
    (hc : (s'.pc u).call? = some c) :
    (s.pc u).call? = some c ∨ a = .call u c := by
  cases a with
  | call t c' =>
    cases hpc : s.pc t <;> simp only [step, hpc, Option.some.injEq, reduceCtorEq] at hs
    subst hs
    by_cases hut : u = t
    · subst hut
      change ((s.goto u (.clock c')).pc u).call? = some c at hc
      rw [goto_self] at hc
      obtain rfl : c' = c := Option.some.inj hc
      exact .inr rfl
    · change ((s.goto t (.clock c')).pc u).call? = some c at hc
      rw [goto_of_ne hut] at hc
      exact .inl hc
  | ret t =>
    cases hpc : s.pc t <;> simp only [step, hpc, Option.some.injEq, reduceCtorEq] at hs
    subst hs
    exact .inl (call?_goto rfl (.inl rfl) hc)
  | read t now =>
    cases hpc : s.pc t <;> simp only [step, hpc, Option.some.injEq, reduceCtorEq] at hs
    · subst hs
      exact .inl (call?_goto rfl (.inr (by rw [hpc]; rfl)) hc)
    · subst hs
      exact .inl (call?_goto rfl (.inl rfl) hc)
  | access t spurious =>
    cases hpc : s.pc t <;> simp only [step, hpc, Option.some.injEq, reduceCtorEq] at hs
    · subst hs
      exact .inl (call?_attempt (by rw [hpc]; rfl) hc)
    · split at hs
      · obtain rfl := Option.some.inj hs
        rename_i c' _ _ _
        cases c' with
        | compareAndRestart threshold => exact .inl (call?_goto rfl (.inl rfl) hc)
        | compareAndRestartDeferred threshold => exact .inl (call?_goto rfl (.inl rfl) hc)
      · obtain rfl := Option.some.inj hs
        exact .inl (call?_attempt (by rw [hpc]; rfl) hc)
    · subst hs
      exact .inl (call?_goto rfl (.inl rfl) hc)
  | move t l =>
    cases hpc : s.pc t <;> cases hl : s.locks l <;> simp only [step, hpc, hl, reduceCtorEq] at hs
    split at hs
    · cases hs
    · obtain rfl := Option.some.inj hs
      exact .inl hc
  | destroy t l =>
    cases hpc : s.pc t <;> cases hl : s.locks l <;> simp only [step, hpc, hl, reduceCtorEq] at hs
    split at hs
    · cases hs
    · split at hs
      · obtain rfl := Option.some.inj hs
        exact .inl (call?_goto rfl (.inl rfl) hc)
      · obtain rfl := Option.some.inj hs
        exact .inl hc

/-- The `compare_exchange_weak` of this step sets the lock bit, and the caller gets a `Lock`. -/
def Grants (s : State) : Act → Prop
  | .access t spurious => ∃ threshold current,
      s.pc t = .cas (.compareAndRestartDeferred threshold) current s.startNs ∧ spurious = false
  | _ => False

/-- A step of a run without `compareAndRestart`, that does not store while a `Lock` holds what was
acquired, or does in the destructor of that `Lock`. -/
def DeferredOk (s : State) (a : Act) : Prop := Deferred a ∧ LeavesLock s a

theorem deferred_of_reach (h : stopwatch.Reach DeferredOk s) :
    ∀ t threshold, (s.pc t).call? ≠ some (.compareAndRestart threshold) := by
  refine h.invariant (I := fun s => ∀ t threshold,
    (s.pc t).call? ≠ some (.compareAndRestart threshold)) ?_ ?_
  · rintro s ⟨now, rfl⟩ t threshold hc
    cases hc
  · intro s a s' _ ih hok hs t threshold hc
    rcases call?_step hs hc with hc | rfl
    · exact ih t threshold hc
    · exact hok.1

theorem shape_exclusive (h : stopwatch.Reach DeferredOk s) : Shape s ∧ Exclusive s := by
  refine keeps_of_reach (fun _ _ _ _ hok => hok.2) ?_ h
  intro s a hr _
  cases a with
  | access t spurious => exact fun threshold hc => absurd hc (deferred_of_reach hr t threshold)
  | _ => trivial

/-- **The lock is exclusive** as long as no `Lock` moved from stores while an acquisition is
outstanding, and at such a store it stops to be. -/
theorem exclusive (h : stopwatch.Reach DeferredOk s) :
    Exclusive s ∧ (∀ a, Grants s a → ∀ l, ¬ s.Holds l) ∧
      ∀ a s', step s a = some s' → ¬ LeavesLock s a → ¬ Exclusive s' := by
  obtain ⟨hsh, hex⟩ := shape_exclusive h
  refine ⟨hex, ?_, ?_⟩
  · intro a hg l
    cases a with
    | access t spurious =>
      obtain ⟨threshold, current, hpc, -⟩ := hg
      exact hex.none (hsh.expected t s.startNs (by rw [hpc]; rfl))
    | _ => exact hg.elim
  · intro a s' hs hnot hex'
    cases a with
    | access t spurious =>
      apply hnot
      intro l now hpc
      by_contra hno
      obtain ⟨hl, hother⟩ := not_or.mp hno
      obtain ⟨l', hl'⟩ := not_forall_not.mp hother
      simp only [step, hpc, Option.some.injEq] at hs
      subst hs
      have hne : l' ≠ l := by
        rintro rfl
        exact hl hl'
      -- the bit is cleared, and what was acquired is still held
      refine hex'.none (l := l') (hsh.time t now (by rw [hpc]; rfl)) ?_
      rw [holds_goto, holds_setLock]
      exact .inr ⟨hne, hl'⟩
    | _ => exact hnot trivial

/-- Thread 0 gets a `Lock`, moves it and destroys the one it moved from; thread 1 gets another. -/
def movedFrom : List Act :=
  [.call 0 (.compareAndRestartDeferred 1), .read 0 10, .access 0 false, .access 0 false, .move 0 0,
    .destroy 0 0,
    .read 0 12, .access 0 false]

/-- The other thread gets one. -/
def secondCaller : List Act :=
  [.call 1 (.compareAndRestartDeferred 1), .read 1 20, .access 1 false, .access 1 false]

/-- `Lock` 1 holds an acquisition, the lock bit is not set, and thread 1 acquires too. -/
theorem not_exclusive :
    ∃ s s', (stopwatch.Reach (fun _ a => Deferred a) s ∧ s.Holds 1 ∧ s.startNs.toNat < 2 ^ 63) ∧
      exec step s secondCaller = some s' ∧ s'.Holds 1 ∧ s'.Holds 2 := by
  have hrun : ∃ s s', exec step (start 0) movedFrom = some s ∧
      (s.Holds 1 ∧ s.startNs.toNat < 2 ^ 63) ∧
      exec step s secondCaller = some s' ∧ s'.Holds 1 ∧ s'.Holds 2 :=
    ⟨_, _, rfl, ⟨⟨_, rfl, rfl⟩, by decide⟩, rfl, ⟨_, rfl, rfl⟩, ⟨_, rfl, rfl⟩⟩
  obtain ⟨s, s', hs, hheld, hs', h1, h2⟩ := hrun
  refine ⟨s, s', ⟨?_, hheld⟩, hs', h1, h2⟩
  refine Lts.Reach.exec (L := stopwatch) (fun _ _ _ h => h) (.init ⟨0, rfl⟩) ?_ hs
  intro _ a ha
  simp only [movedFrom, List.mem_cons, List.not_mem_nil, or_false] at ha
  rcases ha with rfl | rfl | rfl | rfl | rfl | rfl | rfl | rfl <;> trivial

theorem leavesLock_of_none {spurious : Bool} (h : (s.pc t).lock? = none) :
    LeavesLock s (.access t spurious) := by
  intro l now hpc
  rw [hpc] at h
  cases h

/-- With the `Lock` moved from destroyed last, when nothing is held, the lock is exclusive. -/
theorem exclusive_movedFrom :
    ∃ s, exec step (start 0)
      [.call 0 (.compareAndRestartDeferred 1), .read 0 10, .access 0 false, .access 0 false,
        .move 0 0, .destroy 0 1, .read 0 12, .access 0 false, .destroy 0 0, .read 0 14,
          .access 0 false] = some s ∧
      s.startNs = 14 ∧ Exclusive s := by
  have h0 : stopwatch.Reach DeferredOk (start 0) := .init ⟨0, rfl⟩
  have h2 := (h0.step (a := Act.call 0 (.compareAndRestartDeferred 1)) ⟨trivial, trivial⟩ rfl).step
    (a := Act.read 0 10) ⟨trivial, trivial⟩ rfl
  have h4 := (h2.step (a := Act.access 0 false) ⟨trivial, leavesLock_of_none rfl⟩ rfl).step
    (a := Act.access 0 false) ⟨trivial, leavesLock_of_none rfl⟩ rfl
  have h7 :=
    ((h4.step (a := Act.move 0 0) ⟨trivial, trivial⟩ rfl).step (a := Act.destroy 0 1)
    ⟨trivial, trivial⟩ rfl).step
    (a := Act.read 0 12) ⟨trivial, trivial⟩ rfl
  have h8 := h7.step (a := Act.access 0 false) ⟨trivial, fun l now hpc => by
    have hl : some 1 = some l := congrArg Pc.lock? hpc
    obtain rfl := Option.some.inj hl
    exact .inl ⟨_, rfl, rfl⟩⟩ rfl
  have h10 := (h8.step (a := Act.destroy 0 0) ⟨trivial, trivial⟩ rfl).step (a := Act.read 0 14)
    ⟨trivial, trivial⟩ rfl
  have h11 := h10.step (a := Act.access 0 false) ⟨trivial, fun _ _ _ => .inr fun _ =>
    (shape_exclusive h10).2.none (by decide)⟩ rfl
  exact ⟨_, rfl, rfl, (exclusive h11).1⟩

end NetworkDemo.StopWatch
