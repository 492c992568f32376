import NetworkDemo.Foundations.Runs
import NetworkDemo.Foundations.Fields

/-!
# The atomic stopwatch

An `AtomicStopwatch` is a time, `start_ns`, in one word. `compareAndRestart` restarts it
when a threshold has passed. `compareAndRestartDeferred` does when it is not locked, locks
it, by the word's most significant bit, and returns a `Lock`, whose destructor restarts it
again and so unlocks it.

## The model

Any number of threads make calls of the two, move the `Lock` objects they get and destroy
them; destroying one of which `parent` is set calls `restart`. The reading of the clock,
the load of `start_ns`, each `compare_exchange_weak` and the store of `restart` are steps
of their own, and a `compare_exchange_weak` may fail for no reason. What the clock says is
chosen at the step that reads it. A threshold is given in nanoseconds.

Four things are recorded and read by no step. Of a `Lock`, whether it is the one that
`holds` what was acquired, which moving it passes on (its constructor copies `parent` and
leaves it set). Of the stopwatch, the last reading of the `clock`; of each thread, whether
its call has `stored` in `start_ns`; and the `accepted` restarts of `compareAndRestart`.
-/

namespace NetworkDemo.StopWatch

open Foundations

/-- `UInt64`. -/
abbrev U64 := BitVec 64

/-- The bit of `start_ns` that is the lock. -/
def lockBit : U64 := 0x8000000000000000

/-- `nanoseconds()`, when the clock says `now`. -/
def nanoseconds (now : U64) : U64 := now &&& 0x7FFFFFFFFFFFFFFF

/-- A call, with its threshold. -/
inductive Call where
  | compareAndRestart (threshold : U64)
  | compareAndRestartDeferred (threshold : U64)

/-- `threshold_ns`. -/
def Call.threshold : Call → U64
  | .compareAndRestart threshold => threshold
  | .compareAndRestartDeferred threshold => threshold

/-- What a thread does next. -/
inductive Pc where
  | idle
  /-- `current_ns = nanoseconds()`. -/
  | clock (c : Call)
  /-- `current_start_ns = start_ns`. -/
  | load (c : Call) (current : U64)
  /-- `start_ns.compare_exchange_weak(current_start_ns, …)`. -/
  | cas (c : Call) (current start : U64)
  /-- `compareAndRestart` returns. -/
  | returned (r : Bool)
  /-- `nanoseconds()` of `restart`, in the destructor of a `Lock`. -/
  | restartClock (l : ℕ)
  /-- `start_ns = nanoseconds()`. -/
  | restartStore (l : ℕ) (now : U64)

/-- A `Lock`: `parent`, which is the stopwatch or null. -/
structure Lock where
  parent : Bool
  holds : Bool
  /-- Its destructor has begun. -/
  destroying : Bool

/-- `Lock()`. -/
def Lock.empty : Lock := ⟨false, false, false⟩

/-- `Lock(this)`. -/
def Lock.acquired : Lock := ⟨true, true, false⟩

/-- A restart of `compareAndRestart`. -/
structure Accepted where
  time : U64
  threshold : U64

/-- The word, the locks, and where the threads are; `clock`, `stored` and `accepted` record what has
happened. -/
structure State where
  startNs : U64
  /-- The `Lock` objects there are. -/
  locks : ℕ → Option Lock
  made : ℕ
  pc : ℕ → Pc
  clock : ℕ
  stored : ℕ → Bool
  /-- The last comes first. -/
  accepted : List Accepted

/-- A thread calls, reads the clock, accesses `start_ns`, returns, moves a `Lock` or destroys
one. -/
inductive Act where
  | call (t : ℕ) (c : Call)
  | read (t : ℕ) (now : U64)
  | access (t : ℕ) (spurious : Bool)
  | ret (t : ℕ)
  | move (t l : ℕ)
  | destroy (t l : ℕ)

namespace State

/-- Thread `t` is at `pc`. -/
def goto (s : State) (t : ℕ) (pc : Pc) : State := { s with pc := Function.update s.pc t pc }

/-- Thread `t` stores in `start_ns`. -/
def store (s : State) (t : ℕ) (x : U64) : State :=
  { s with startNs := x, stored := Function.update s.stored t true }

/-- A `Lock` comes into being. -/
def give (s : State) (lock : Lock) : State :=
  { s with locks := Function.update s.locks s.made (some lock), made := s.made + 1 }

/-- What a `Lock` is, or that it is no more. -/
def setLock (s : State) (l : ℕ) (lock : Option Lock) : State :=
  { s with locks := Function.update s.locks l lock }

/-- The loop of a call, with `current_start_ns = start`, up to the `compare_exchange_weak`. -/
def attempt (s : State) (t : ℕ) (current start : U64) : Call → State
  | .compareAndRestart threshold =>
    if current < start + threshold then s.goto t (.returned false)
    else s.goto t (.cas (.compareAndRestart threshold) current start)
  | .compareAndRestartDeferred threshold =>
    if start &&& lockBit ≠ 0 then (s.give .empty).goto t .idle
    else if current < start + threshold then (s.give .empty).goto t .idle
    else s.goto t (.cas (.compareAndRestartDeferred threshold) current start)

/-- The `compare_exchange_weak` succeeds. -/
def succeed (s : State) (t : ℕ) (current : U64) : Call → State
  | .compareAndRestart threshold =>
    { (s.store t current).goto t (.returned true) with
      accepted := ⟨current, threshold⟩ :: s.accepted }
  | .compareAndRestartDeferred _ => ((s.store t (current ||| lockBit)).give .acquired).goto t .idle

end State

/-- One step. -/
def step (s : State) : Act → Option State
  | .call t c =>
    match s.pc t with
    | .idle => some { s.goto t (.clock c) with stored := Function.update s.stored t false }
    | _ => none
  | .read t now =>
    match s.pc t with
    | .clock c => some { s.goto t (.load c (nanoseconds now)) with clock := now.toNat }
    | .restartClock l =>
      some { s.goto t (.restartStore l (nanoseconds now)) with clock := now.toNat }
    | _ => none
  | .access t spurious =>
    match s.pc t with
    | .load c current => some (s.attempt t current s.startNs c)
    | .cas c current start =>
      if s.startNs = start ∧ spurious = false then some (s.succeed t current c)
      else some (s.attempt t current s.startNs c)
    | .restartStore l now => some (((s.store t now).setLock l none).goto t .idle)
    | _ => none
  | .ret t =>
    match s.pc t with
    | .returned _ => some (s.goto t .idle)
    | _ => none
  | .move t l =>
    match s.pc t, s.locks l with
    | .idle, some lock =>
      if lock.destroying = true then none
      else some ((s.setLock l (some { lock with holds := false })).give lock)
    | _, _ => none
  | .destroy t l =>
    match s.pc t, s.locks l with
    | .idle, some lock =>
      if lock.destroying = true then none
      else if lock.parent = true then
        some ((s.setLock l (some { lock with destroying := true })).goto t (.restartClock l))
      else some (s.setLock l none)
    | _, _ => none

/-- A stopwatch just made, when the clock said `now`. -/
def start (now : U64) : State :=
  ⟨nanoseconds now, fun _ => none, 0, fun _ => .idle, now.toNat, fun _ => false, []⟩

/-- An `AtomicStopwatch`. -/
def stopwatch : Lts State Act where
  init s := ∃ now, s = start now
  step s a s' := step s a = some s'

/-! ### The lock bit -/

section Word

variable {x : U64}

theorem and_lockBit_eq_zero : x &&& lockBit = 0 ↔ x.toNat < 2 ^ 63 := by
  have hbit : (x &&& lockBit).toNat = x.toNat - x.toNat % 2 ^ 63 :=
    toNat_and_neg_twoPow (by decide) x lockBit (by decide)
  have hlt := x.isLt
  rw [← BitVec.toNat_inj, hbit]
  change x.toNat - x.toNat % 2 ^ 63 = 0 ↔ _
  omega

theorem toNat_nanoseconds (now : U64) : (nanoseconds now).toNat = now.toNat % 2 ^ 63 :=
  toNat_and_mask now _ (by decide)

theorem nanoseconds_lt (now : U64) : (nanoseconds now).toNat < 2 ^ 63 := by
  rw [toNat_nanoseconds]
  exact Nat.mod_lt _ (by decide)

theorem toNat_or_lockBit (hx : x.toNat < 2 ^ 63) : (x ||| lockBit).toNat = 2 ^ 63 + x.toNat := by
  rw [BitVec.or_comm, toNat_or_field (k := 63) lockBit x (by decide) hx]
  rfl

/-- The threshold has passed: the word is not locked, and the sum did not wrap around. -/
theorem passed {current start threshold : U64}
    (hr : start.toNat % 2 ^ 63 + threshold.toNat < 2 ^ 63) (hc : current.toNat < 2 ^ 63)
    (h : ¬ current < start + threshold) :
    start.toNat < 2 ^ 63 ∧ start.toNat + threshold.toNat ≤ current.toNat := by
  have hlt := start.isLt
  rw [BitVec.lt_def, BitVec.toNat_add] at h
  omega

end Word

end NetworkDemo.StopWatch
