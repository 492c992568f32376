import NetworkDemo.Foundations.Fields

/-!
# The barrier `ab_barrier_t`

`utils/Gang.h` builds its thread gang on a counting barrier. A thread that calls
`ab_barrier_wait` remembers the generation, decrements `awaited`, and, if it was
not the last, waits until the generation moves on; the last one resets `awaited`,
advances the generation and wakes the sleepers.

## The model

A call is a position `WaitPc` in the code, and `AbBarrier.step` is one atomic
access: one load, one store, one fetch-and-add or one futex call. Between two
accesses a thread does nothing another thread can see, so the accesses of the
threads, in any order, are the behaviours of the barrier.

`futex_wait(addr, v)` compares and sleeps in one step: it returns at once when
the word is not `v`. A sleeper has no step of its own; `futex_wake` moves every
sleeper on (`WaitPc.others`). It is called with `INT_MAX`, which is more than
there are threads. The value `rdtsc` gives is returned and not used, so a call
returns nothing here.
-/

namespace NetworkDemo.Sync

open Foundations

/-- `unsigned`. -/
abbrev U32 := BitVec 32

/-- Set in the state of the thread that came last. -/
def BAR_WAS_LAST : U32 := 256

/-- What one round adds to the generation. -/
def BAR_INCR : U32 := 512

/-- A larger `awaited` means that the barrier is being shut down. -/
def BAR_OVERFLOW : U32 := 10000000

/-- How often `do_spin` looks at the word before it gives up. -/
def abSpinCountVar : ℕ := 300000

/-- `ab_barrier_t`. -/
structure AbBarrier where
  /-- How many threads a round takes. -/
  total : U32
  /-- The generation, in steps of `BAR_INCR`. -/
  generation : U32
  /-- How many threads the round still waits for. -/
  awaited : U32
  /-- Whether to spin before sleeping. -/
  spin : Bool
  deriving DecidableEq

/-- `ab_barrier_init`. -/
def abBarrierInit (count : U32) (spin : Bool) : AbBarrier := ⟨count, 0, count, spin⟩

/-- Where a thread is in `ab_barrier_wait`: at which access. -/
inductive WaitPc where
  /-- `ab_barrier_wait_start`: load `generation`. -/
  | start
  /-- Decrement `awaited`, the generation loaded. -/
  | decrement (ret : U32)
  /-- The last thread: load `total` for `bar->awaited = bar->total`. -/
  | loadTotal
  /-- Store `awaited`. -/
  | storeAwaited (v : U32)
  /-- Load `generation`, to be advanced. -/
  | loadGeneration
  /-- Store the generation loaded plus `BAR_INCR`. -/
  | storeGeneration (g : U32)
  /-- `if (bar->total > 1)`. -/
  | testTotal
  /-- `futex_wake`. -/
  | wake
  /-- Not the last thread: `if (bar->awaited > BAR_OVERFLOW)`. -/
  | loadAwaited (state : U32)
  /-- Look number `i` of `do_spin`. -/
  | spin (state : U32) (i : ℕ)
  /-- Call `futex_wait`. -/
  | futexWait (state : U32)
  /-- Asleep in the kernel. -/
  | asleep (state : U32)
  /-- `while (load generation == state)`. -/
  | reload (state : U32)
  /-- Returned: not in a call. -/
  | ret

/-- How `ab_barrier_wait_end` begins: by whether the state says the thread was last. -/
def abBarrierWaitEnd (state : U32) : WaitPc :=
  if state &&& BAR_WAS_LAST ≠ 0 then .loadTotal else .loadAwaited state

/-- One turn of the waiting loop: `do_wait` when the barrier spins, else `futex_wait`. -/
def AbBarrier.waitTurn (bar : AbBarrier) (state : U32) : WaitPc :=
  if bar.spin then .spin state 0 else .futexWait state

/-- **One access** of a thread in `ab_barrier_wait`: the barrier and the position after it. A
sleeper, and a thread that has returned, have none. -/
def AbBarrier.step (bar : AbBarrier) : WaitPc → Option (AbBarrier × WaitPc)
  | .start => some (bar, .decrement (bar.generation &&& -BAR_INCR))
  | .decrement ret =>
    let awaited := bar.awaited - 1
    some ({ bar with awaited := awaited },
      abBarrierWaitEnd (if awaited = 0 then ret ||| BAR_WAS_LAST else ret))
  | .loadTotal => some (bar, .storeAwaited bar.total)
  | .storeAwaited v => some ({ bar with awaited := v }, .loadGeneration)
  | .loadGeneration => some (bar, .storeGeneration bar.generation)
  | .storeGeneration g => some ({ bar with generation := g + BAR_INCR }, .testTotal)
  | .testTotal => some (bar, if 1 < bar.total then .wake else .ret)
  | .wake => some (bar, .ret)
  | .loadAwaited state =>
    some (bar, if BAR_OVERFLOW < bar.awaited then .ret else bar.waitTurn state)
  | .spin state i =>
    some (bar, if bar.generation ≠ state then .reload state
      else if i + 1 < abSpinCountVar then .spin state (i + 1) else .futexWait state)
  | .futexWait state => some (bar, if bar.generation = state then .asleep state else .reload state)
  | .asleep _ => none
  | .reload state => some (bar, if bar.generation = state then bar.waitTurn state else .ret)
  | .ret => none

/-- A sleeper woken. -/
def WaitPc.wakeUp : WaitPc → WaitPc
  | .asleep state => .reload state
  | w => w

/-- What the step of a thread at `w` does to another thread's position: `futex_wake` wakes it. -/
def WaitPc.others : WaitPc → WaitPc → WaitPc
  | .wake, p => p.wakeUp
  | _, p => p

/-- The positions after thread `t` has moved to `w'`. -/
def movePos (pos : ℕ → WaitPc) (t : ℕ) (w' : WaitPc) : ℕ → WaitPc :=
  fun u => if u = t then w' else (pos t).others (pos u)

@[simp] theorem movePos_self (pos : ℕ → WaitPc) (t : ℕ) (w' : WaitPc) :
    movePos pos t w' t = w' := by
  simp [movePos]

theorem movePos_of_ne {pos : ℕ → WaitPc} {t u : ℕ} {w' : WaitPc} (h : u ≠ t) :
    movePos pos t w' u = (pos t).others (pos u) := by
  simp [movePos, h]

/-! ### The generation word -/

/-- The bits below the generation are clear. -/
def Aligned (g : U32) : Prop := g.toNat % 512 = 0

theorem aligned_zero : Aligned 0 := rfl

theorem toNat_add_incr (g : U32) : (g + BAR_INCR).toNat = (g.toNat + 512) % 4294967296 :=
  BitVec.toNat_add g BAR_INCR

theorem Aligned.add_incr {g : U32} (h : Aligned g) : Aligned (g + BAR_INCR) := by
  unfold Aligned at *
  rw [toNat_add_incr]
  omega

/-- `ret &= -BAR_INCR` clears the low bits. -/
theorem toNat_and_neg_incr (g : U32) : (g &&& -BAR_INCR).toNat = g.toNat - g.toNat % 512 :=
  toNat_and_neg_twoPow (k := 9) (by decide) g _ (by decide)

theorem Aligned.and_neg_incr {g : U32} (h : Aligned g) : g &&& -BAR_INCR = g := by
  apply BitVec.eq_of_toNat_eq
  rw [toNat_and_neg_incr, h, Nat.sub_zero]

/-- A round changes the generation. -/
theorem add_incr_ne (g : U32) : g + BAR_INCR ≠ g := by
  intro h
  have h' := congrArg BitVec.toNat h
  have := g.isLt
  simp only [toNat_add_incr] at h'
  omega

/-- An aligned generation does not say that a thread was last. -/
theorem Aligned.and_last {g : U32} (h : Aligned g) : g &&& BAR_WAS_LAST = 0 := by
  apply BitVec.eq_of_toNat_eq
  apply Nat.eq_of_testBit_eq
  intro i
  have hm : (g.toNat % 2 ^ 9).testBit i = false := by rw [show g.toNat % 2 ^ 9 = 0 from h]; simp
  rw [Nat.testBit_mod_two_pow] at hm
  rw [BitVec.toNat_and, Nat.testBit_and, show BAR_WAS_LAST.toNat = 2 ^ 8 from rfl,
    Nat.testBit_two_pow]
  by_cases hi : 8 = i
  · subst hi; simpa using hm
  · simp [hi]

theorem or_and_last (g : U32) : (g ||| BAR_WAS_LAST) &&& BAR_WAS_LAST ≠ 0 := by
  have h0 : (g ||| BAR_WAS_LAST) &&& BAR_WAS_LAST = BAR_WAS_LAST := by
    apply BitVec.eq_of_getLsbD_eq
    intro i hi
    simp only [BitVec.getLsbD_and, BitVec.getLsbD_or]
    cases g.getLsbD i <;> cases BAR_WAS_LAST.getLsbD i <;> rfl
  rw [h0]
  decide

theorem Aligned.waitEnd {g : U32} (h : Aligned g) : abBarrierWaitEnd g = .loadAwaited g := by
  simp [abBarrierWaitEnd, h.and_last]

theorem waitEnd_or_last (g : U32) : abBarrierWaitEnd (g ||| BAR_WAS_LAST) = .loadTotal :=
  if_pos (or_and_last g)

end NetworkDemo.Sync
