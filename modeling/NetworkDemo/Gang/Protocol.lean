import NetworkDemo.Foundations.Runs
import NetworkDemo.Sync.AbBarrier

/-!
# The gang protocol

A `Gang` is a main thread and `num - 1` workers. `Gang::submit` splits a range into
`n ≤ num` parts, publishes the round's tasks, and lets the threads `0, …, n - 1`
run one part each; `~Gang` ends the workers. The threads meet at two barriers:
`abb`, which all of them pass at the start of a round, and `abb2`, which only the
`n` that take part pass at its end. Which threads take part is read off `flag`: its
high bits are the generation of the round, its low bits `n`.

## The model

One step of a thread is one atomic access, as in `AbBarrier`. Main, thread `0`,
may between submits start another submit or the destructor; what a submit's range
is does not matter here, only into how many parts it is cut, so `submit n` is any
submit that cuts into `n` parts. `tasks->run(id)` is entered and left, and does
not touch the gang in between. `sched_setaffinity` is left out.

Three fields record what has happened and are read by no step: `history`, the
published rounds; `passed`, how often each thread has come out of `abb`; and
`log`, the calls of `tasks->run`.
-/

namespace NetworkDemo.Gang

open Foundations Sync

/-! ### The flag word -/

/-- What `Gang::reinit` stores in `flag`: the next generation, and in its low bits `num`. -/
def reinitFlag (generation : U32) (num : ℕ) : U32 :=
  (generation + BAR_INCR) &&& -BAR_INCR ||| BitVec.ofNat 32 num

/-- What `Gang::reinit` stores in `abb2.total` and `abb2.awaited`: `num` as an `unsigned`. -/
def reinitCount (num : ℕ) : U32 := BitVec.ofNat 32 num

/-- The test of `Gang::run` that sends thread `id` back to `abb`: the flag `ret` is of a later
generation than `state`, or its count does not reach to `id`. -/
def skips (state ret : U32) (id : ℕ) : Bool :=
  state &&& -BAR_INCR < ret &&& -BAR_INCR || (ret &&& (BAR_WAS_LAST - 1)).toNat ≤ id

/-- Thread `id` goes on to run its part. -/
def takesPart (state ret : U32) (id : ℕ) : Bool := !skips state ret id

/-! ### Threads -/

/-- Where a thread is: at which access. -/
inductive Pc where
  /-- In `ab_barrier_wait(&abb)`. -/
  | abb (w : WaitPc)
  /-- `if (shutdown)`. -/
  | checkShutdown
  /-- `state = abb.generation`. -/
  | loadState
  /-- `ret = flag`, and the test on both. -/
  | loadFlag (state : U32)
  /-- Call `tasks->run(id)`. -/
  | callTasks
  /-- Inside `tasks->run(id)`. -/
  | inTasks
  /-- In `ab_barrier_wait(&abb2)`. -/
  | abb2 (w : WaitPc)
  /-- A worker out of `Gang::loop`. -/
  | exited
  /-- Main, between submits. -/
  | idle
  /-- `submit`: `tasks.reset`. -/
  | resetTasks (n : ℕ)
  /-- `submit` with one part: inside `tasks->run(0)`. -/
  | inlineTasks
  /-- `reinit`: load `abb.generation`. -/
  | reinitLoad (n : ℕ)
  /-- `reinit`: store `flag`. -/
  | storeFlag (n : ℕ) (flag : U32)
  /-- `reinit`: `abb2.total = num`. -/
  | storeTotal (n : ℕ)
  /-- `reinit`: store `abb2.awaited`. -/
  | storeAwaited (n : ℕ)
  /-- `~Gang`: `shutdown = true`. -/
  | dtorShutdown
  /-- `~Gang`: `abb.total = 1`. -/
  | dtorTotal
  /-- Turn `i` of the destructor's loop, `ab_barrier_wait_start(&abb)`: load `generation`. -/
  | dtorLoad (i : ℕ)
  /-- Decrement `awaited`. -/
  | dtorDecrement (i : ℕ) (ret : U32)
  /-- `else if (abb.awaited > BAR_OVERFLOW)`. -/
  | dtorCheck (i : ℕ)
  /-- Main was last: load `total` for `abb.awaited = abb.total`. -/
  | dtorLoadTotal
  /-- Store `awaited`. -/
  | dtorStoreAwaited (v : U32)
  /-- Load `generation`, to be advanced. -/
  | dtorLoadGeneration
  /-- Store the generation loaded plus `BAR_INCR`. -/
  | dtorStoreGeneration (g : U32)
  /-- `futex_wake`. -/
  | dtorWake
  /-- Join worker `k`. -/
  | join (k : ℕ)
  /-- Every worker joined. -/
  | done

/-- Where in `abb`'s wait a thread is. -/
def Pc.abbPos : Pc → WaitPc
  | .abb w => w
  | _ => .ret

/-- Where in `abb2`'s wait a thread is. -/
def Pc.abb2Pos : Pc → WaitPc
  | .abb2 w => w
  | _ => .ret

/-- A worker out of its loop. -/
def Pc.isExited : Pc → Bool
  | .exited => true
  | _ => false

/-- What a step at `w` of `abb`'s wait does to another thread. -/
def Pc.othersAbb (w : WaitPc) : Pc → Pc
  | .abb p => .abb (w.others p)
  | x => x

/-- What a step at `w` of `abb2`'s wait does to another thread. -/
def Pc.othersAbb2 (w : WaitPc) : Pc → Pc
  | .abb2 p => .abb2 (w.others p)
  | x => x

/-- On with the wait at `abb`, or out of it. -/
def Pc.afterAbb : WaitPc → Pc
  | .ret => .checkShutdown
  | w => .abb w

/-- The end of `Gang::run(id)`: main returns from its submit, a worker goes round its loop. -/
def Pc.back (id : ℕ) : Pc := if id = 0 then .idle else .abb .start

/-- On with the wait at `abb2`, or out of it and to the end of `Gang::run(id)`. -/
def Pc.afterAbb2 (id : ℕ) : WaitPc → Pc
  | .ret => .back id
  | w => .abb2 w

/-- Where the threads are after thread `t`, at `w` in `abb`, has moved to `w'`. -/
def moveAbb (pc : ℕ → Pc) (t : ℕ) (w w' : WaitPc) : ℕ → Pc :=
  fun u => if u = t then .afterAbb w' else (pc u).othersAbb w

/-- Where the threads are after thread `t`, at `w` in `abb2`, has moved to `w'`. -/
def moveAbb2 (pc : ℕ → Pc) (t : ℕ) (w w' : WaitPc) : ℕ → Pc :=
  fun u => if u = t then .afterAbb2 t w' else (pc u).othersAbb2 w

/-- How often each thread has come out of `abb`, when thread `t` has moved to `w'` in it. -/
def countPassed (passed : ℕ → ℕ) (t : ℕ) : WaitPc → ℕ → ℕ
  | .ret => Function.update passed t (passed t + 1)
  | _ => passed

/-! ### The gang -/

/-- A call of `tasks->run`. -/
structure RunEvent where
  /-- The round of the caller: how often it has come out of `abb`. -/
  round : ℕ
  /-- The tasks object. -/
  obj : ℕ
  /-- The argument. -/
  id : ℕ
  deriving DecidableEq

/-- The gang: its fields, its threads, and the record of the run. -/
structure State where
  /-- The barrier at the start of a round. -/
  abb : AbBarrier
  /-- The barrier at its end. -/
  abb2 : AbBarrier
  /-- The flag word. -/
  flag : U32
  /-- The object `tasks` points to: how many there have been. -/
  tasks : ℕ
  /-- Set by the destructor. -/
  shutdown : Bool
  /-- Where each thread is. -/
  pc : ℕ → Pc
  /-- The rounds published: the number of parts and the tasks object. -/
  history : List (ℕ × ℕ)
  /-- How often each thread has come out of `abb`. -/
  passed : ℕ → ℕ
  /-- The calls of `tasks->run` in the rounds published. -/
  log : List RunEvent

/-- A gang just constructed: the workers about to wait at `abb`. `flag` is not initialised. -/
def start (num : ℕ) (flag : U32) : State where
  abb := abBarrierInit (BitVec.ofNat 32 num) true
  abb2 := abBarrierInit (BitVec.ofNat 32 num) true
  flag := flag
  tasks := 0
  shutdown := false
  pc := fun t => if t = 0 then .idle else if t < num then .abb .start else .exited
  history := []
  passed := fun _ => 0
  log := []

namespace State

/-- Thread `t` moves to `x`. -/
def goto (s : State) (t : ℕ) (x : Pc) : State := { s with pc := Function.update s.pc t x }

/-- Thread `t` calls `tasks->run(t)`. -/
def called (s : State) (t : ℕ) : State :=
  { s.goto t .inTasks with log := s.log ++ [⟨s.passed t, s.tasks, t⟩] }

/-- `tasks.reset` of a submit of `n` parts. -/
def reset (s : State) (n : ℕ) : State :=
  { s.goto 0 (if n = 1 then .inlineTasks else .reinitLoad n) with tasks := s.tasks + 1 }

/-- `reinit` stores the flag of a round of `n` parts. -/
def published (s : State) (n : ℕ) (flag : U32) : State :=
  { s.goto 0 (.storeTotal n) with flag := flag, history := s.history ++ [(n, s.tasks)] }

/-- Thread `t`, at `w` in `abb`, has moved to `w'`. -/
def movedAbb (s : State) (t : ℕ) (w : WaitPc) (bar : AbBarrier) (w' : WaitPc) : State :=
  { s with abb := bar, pc := moveAbb s.pc t w w', passed := countPassed s.passed t w' }

/-- Thread `t`, at `w` in `abb2`, has moved to `w'`. -/
def movedAbb2 (s : State) (t : ℕ) (w : WaitPc) (bar : AbBarrier) (w' : WaitPc) : State :=
  { s with abb2 := bar, pc := moveAbb2 s.pc t w w' }

/-- The destructor wakes every sleeper at `abb`. -/
def dtorWoken (s : State) : State :=
  { s with pc := fun u => if u = 0 then .join 1 else (s.pc u).othersAbb .wake }

/-- Turn `i` of the destructor's loop, or its end. -/
def dtorTurn (num i : ℕ) : Pc := if i < num then .dtorLoad i else .join 1

/-- **One access** of thread `t`. -/
def threadStep (num : ℕ) (s : State) (t : ℕ) : Option State :=
  match s.pc t with
  -- `Gang::run`
  | .abb w => (s.abb.step w).map fun (bar, w') => s.movedAbb t w bar w'
  | .checkShutdown => some (s.goto t (if s.shutdown then .exited else .loadState))
  | .loadState => some (s.goto t (.loadFlag s.abb.generation))
  | .loadFlag state => some (s.goto t (if skips state s.flag t then .back t else .callTasks))
  | .callTasks => some (s.called t)
  | .inTasks => some (s.goto t (.abb2 .start))
  | .abb2 w => (s.abb2.step w).map fun (bar, w') => s.movedAbb2 t w bar w'
  | .exited => none
  | .idle => none
  -- `Gang::submit` and `Gang::reinit`
  | .resetTasks n => some (s.reset n)
  | .inlineTasks => some (s.goto t .idle)
  | .reinitLoad n => some (s.goto t (.storeFlag n (reinitFlag s.abb.generation n)))
  | .storeFlag n flag => some (s.published n flag)
  | .storeTotal n =>
    some { s.goto t (.storeAwaited n) with abb2 := { s.abb2 with total := reinitCount n } }
  | .storeAwaited n =>
    some { s.goto t (.abb .start) with abb2 := { s.abb2 with awaited := reinitCount n } }
  -- `Gang::~Gang`
  | .dtorShutdown => some { s.goto t .dtorTotal with shutdown := true }
  | .dtorTotal => some { s.goto t (dtorTurn num 0) with abb := { s.abb with total := 1 } }
  | .dtorLoad i => some (s.goto t (.dtorDecrement i (s.abb.generation &&& -BAR_INCR)))
  | .dtorDecrement i ret =>
    let awaited := s.abb.awaited - 1
    let state := if awaited = 0 then ret ||| BAR_WAS_LAST else ret
    some { s.goto t (if state &&& BAR_WAS_LAST ≠ 0 then .dtorLoadTotal else .dtorCheck i) with
      abb := { s.abb with awaited := awaited } }
  | .dtorCheck i =>
    some (s.goto t (if BAR_OVERFLOW < s.abb.awaited then .join 1 else dtorTurn num (i + 1)))
  | .dtorLoadTotal => some (s.goto t (.dtorStoreAwaited s.abb.total))
  | .dtorStoreAwaited v =>
    some { s.goto t .dtorLoadGeneration with abb := { s.abb with awaited := v } }
  | .dtorLoadGeneration => some (s.goto t (.dtorStoreGeneration s.abb.generation))
  | .dtorStoreGeneration g =>
    some { s.goto t .dtorWake with abb := { s.abb with generation := g + BAR_INCR } }
  | .dtorWake => some s.dtorWoken
  | .join k =>
    if k < num then if (s.pc k).isExited then some (s.goto t (.join (k + 1))) else none
    else some (s.goto t .done)
  | .done => none

end State

/-- What can happen next. -/
inductive Act where
  /-- Thread `t` makes an access. -/
  | thread (t : ℕ)
  /-- Main calls `submit` with a range that is cut into `n` parts. -/
  | submit (n : ℕ)
  /-- Main destroys the gang. -/
  | destroy

/-- Main is between submits. -/
def State.isIdle (s : State) : Bool :=
  match s.pc 0 with
  | .idle => true
  | _ => false

theorem State.isIdle_iff {s : State} : s.isIdle = true ↔ s.pc 0 = .idle := by
  unfold State.isIdle
  cases s.pc 0 <;> simp

/-- One step. A submit of an empty range returns at once. -/
def step (num : ℕ) (s : State) : Act → Option State
  | .thread t => if t < num then s.threadStep num t else none
  | .submit n =>
    if s.isIdle ∧ n ≤ num then some (if n = 0 then s else s.goto 0 (.resetTasks n)) else none
  | .destroy => if s.isIdle then some (s.goto 0 .dtorShutdown) else none

/-- The gang of `num` threads. -/
def system (num : ℕ) (flag : U32) : Lts State Act where
  init s := s = start num flag
  step s a s' := step num s a = some s'

end NetworkDemo.Gang
