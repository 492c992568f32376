import NetworkDemo.Gang.Races
import NetworkDemo.Gang.Submit

/-!
# The whole gang

`Gang.Protocol` leaves open what happens inside `tasks->run`, and `Gang.Calls` when the workers
come to it. Here the two are one system. Main submits loops, one after the other; a thread that is
inside `tasks->run` takes the steps of a worker of the tasks object, and does not leave before
that worker has finished; and everything, the accesses of the barriers, the fetch-and-adds
and the acts of the calls, is interleaved as it comes.

A thread that enters `tasks->run` starts at its beginning, and `tasks.reset` puts a new object in
the place of the old one, wherever the threads are. That no thread enters twice, and none is inside
at the reset, is the protocol's doing.

* `WholeInv` — a worker that has not been called has not started, one whose thread has left has
  finished, and what the workers of the last object can leave, the submits so far can.
* `whole_submits` — whenever main is between submits, the store is one that the workers of the
  submits leave, each after the one before, whatever the calls share; and while main is in a submit
  some thread can go on.
* `whole_sequential` — if the calls do not get in each other's way, the store is as if main had
  run the loops itself, in the order of the submits.
-/

namespace NetworkDemo.Gang

open Foundations Sync

variable {ι : Type} {V : ι → Type}

/-! ### Loops -/

/-- A submit of the indices from `start` to before `stop`. -/
structure Job (V : ι → Type) where
  start : SizeT
  stop : SizeT
  granular : SizeT
  worksteal : Bool
  f : SizeT → Prog (∀ i, V i) Unit

namespace Job

variable (J : Job V)

/-- The tasks object that a submit of it makes, with these ranges. -/
def tasks (ranges : List Range) : TasksImpl := ⟨ranges, J.granular, J.worksteal⟩

/-- The ranges that a gang of `num` threads cuts it into. -/
def ranges (num : ℕ) : Option (List Range) :=
  submitRanges J.start J.stop J.granular (BitVec.ofNat 64 num)

/-- Run by one thread, in order. -/
def runAlone (m : ∀ i, V i) : ∀ i, V i := callAll J.f (indices J.start J.stop) m

/-- Nothing wraps. -/
structure Sized (num : ℕ) : Prop where
  le : J.start ≤ J.stop
  granular_pos : 1 ≤ J.granular
  room : J.stop.toNat + (num + 1) * J.granular.toNat < 2 ^ 64

/-- And the calls do not get in each other's way. -/
structure Ok (num : ℕ) : Prop extends J.Sized num where
  apart : ∃ F : SizeT → Footprint ι, ApartCalls J.f F J.start J.stop

end Job

/-- Loops, one after the other. -/
def runJobs (jobs : List (Job V)) (m : ∀ i, V i) : ∀ i, V i :=
  jobs.foldl (fun m J => J.runAlone m) m

/-! ### The system -/

/-- A tasks object. -/
structure TasksObject (V : ι → Type) where
  job : Job V
  ranges : List Range

/-- The tasks. -/
def TasksObject.tasks (O : TasksObject V) : TasksImpl := O.job.tasks O.ranges

/-- Its workers, when they have finished, can leave `m'` where they find `m`. -/
def TasksObject.Leaves (O : TasksObject V) (m m' : ∀ i, V i) : Prop :=
  ∃ as c, exec (O.tasks.callsStep O.job.f) (O.tasks.callsStart m) as = some c ∧
    (∀ t < O.ranges.length, c.done t = true) ∧ c.mem = m'

/-- So can the workers of a submit. -/
def Job.Leaves (J : Job V) (num : ℕ) (m m' : ∀ i, V i) : Prop :=
  ∃ ranges, J.ranges num = some ranges ∧ (⟨J, ranges⟩ : TasksObject V).Leaves m m'

/-- Submits, one after the other. -/
inductive JobsLeave (num : ℕ) (m₀ : ∀ i, V i) : List (Job V) → (∀ i, V i) → Prop where
  | none : JobsLeave num m₀ [] m₀
  | snoc {jobs : List (Job V)} {J : Job V} {m m' : ∀ i, V i} :
    JobsLeave num m₀ jobs m → J.Leaves num m m' →
    JobsLeave num m₀ (jobs ++ [J]) m'

/-- The gang, the tasks object and the workers' runs of it. -/
structure Whole (V : ι → Type) where
  gang : State
  object : TasksObject V
  calls : CallsState V
  /-- The object of the submit that main is at the beginning of. -/
  next : TasksObject V
  /-- The submits that have got an object, or returned without. -/
  jobs : List (Job V)

/-- What can happen next. -/
inductive WholeAct (V : ι → Type) where
  /-- Thread `t` makes an access of the gang's. -/
  | thread (t : ℕ)
  /-- Thread `t`, inside `tasks->run`, takes a step. -/
  | work (t : ℕ)
  /-- Main submits a loop. -/
  | submit (J : Job V)

/-- Inside `tasks->run`. -/
def Pc.inside : Pc → Bool
  | .inTasks | .inlineTasks => true
  | _ => false

namespace Whole

variable (s : Whole V)

/-- A thread that stays inside `tasks->run`. -/
def busy (t : ℕ) : Bool := (s.gang.pc t).inside && !s.calls.done t

/-- What an access of thread `t` means to the workers, the gang being `gang` after it. -/
def follow (t : ℕ) (gang : State) : Whole V :=
  match s.gang.pc t with
  | .resetTasks _ => { s with
      gang := gang
      object := s.next
      calls := s.next.tasks.callsStart s.calls.mem
      jobs := s.jobs ++ [s.next.job] }
  | .callTasks => { s with
      gang := gang
      calls := { s.calls with
        tasks := s.calls.tasks.goto t .enter
        rest := Function.update s.calls.rest t (.ret ()) } }
  | _ => { s with gang := gang }

/-- **One step.** -/
def step (num : ℕ) : WholeAct V → Option (Whole V)
  | .thread t =>
    if s.busy t = true then none else (Gang.step num s.gang (.thread t)).map (s.follow t)
  | .work t =>
    if (s.gang.pc t).inside = true then
      (s.object.tasks.callsStep s.object.job.f s.calls t).map fun calls => { s with calls := calls }
    else none
  | .submit J =>
    (J.ranges num).bind fun ranges => (Gang.step num s.gang (.submit ranges.length)).map fun gang =>
    if ranges = [] then { s with gang := gang, jobs := s.jobs ++ [J] }
      else { s with gang := gang, next := ⟨J, ranges⟩ }

end Whole

/-- Nothing to do. -/
def noJob : Job V := ⟨0, 0, 1, false, fun _ => .ret ()⟩

/-- A gang just constructed. -/
def wholeStart (num : ℕ) (flag : U32) (m₀ : ∀ i, V i) : Whole V :=
  ⟨start num flag, ⟨noJob, []⟩, TasksImpl.callsStart ⟨[], 1, false⟩ m₀, ⟨noJob, []⟩, []⟩

/-- The gang of `num` threads, and what they do. -/
def whole (num : ℕ) (flag : U32) (m₀ : ∀ i, V i) : Lts (Whole V) (WholeAct V) where
  init s := s = wholeStart num flag m₀
  step s a s' := s.step num a = some s'

/-- The loops are ones that a gang can run, -/
def WholeAct.Sized (num : ℕ) : WholeAct V → Prop
  | .submit J => J.Sized num
  | _ => True

/-- and ones whose calls do not get in each other's way. -/
def WholeAct.Ok (num : ℕ) : WholeAct V → Prop
  | .submit J => J.Ok num
  | _ => True

/-! ### Stages -/

/-- Where a thread is, as far as the tasks are concerned. -/
inductive Stage where
  | between
  | reset (n : ℕ)
  | reinit (n : ℕ)
  | inline
  | round
  | inTasks
  | gone
  deriving DecidableEq

/-- The stage of a position. -/
def Pc.stage : Pc → Stage
  | .idle => .between
  | .resetTasks n => .reset n
  | .reinitLoad n => .reinit n
  | .storeFlag n _ => .reinit n
  | .inlineTasks => .inline
  | .inTasks => .inTasks
  | .abb _ | .checkShutdown | .loadState | .loadFlag _ | .callTasks | .abb2 _ | .storeTotal _
  | .storeAwaited _ => .round
  | _ => .gone

/-- In a round of several threads. -/
def Stage.inRound : Stage → Bool
  | .round | .inTasks => true
  | _ => false

/-- From stage `a` to stage `b` by an access that begins nothing. -/
def Stage.GoesTo (a b : Stage) : Prop :=
  b = a ∨ a = .inline ∧ b = .between ∨ a = .inTasks ∧ b = .round ∨
    a = .round ∧ (b = .between ∨ b = .gone)

section Stages

variable {num : ℕ} {s s' : State} {t : ℕ} {x : Pc}

@[simp] theorem stage_othersAbb {w : WaitPc} : (x.othersAbb w).stage = x.stage := by cases x <;> rfl

@[simp] theorem stage_othersAbb2 {w : WaitPc} : (x.othersAbb2 w).stage = x.stage := by
  cases x <;> rfl

theorem stage_inTasks_iff : x.stage = .inTasks ↔ x = .inTasks := by cases x <;> simp [Pc.stage]

theorem stage_reset_iff {n : ℕ} : x.stage = .reset n ↔ x = .resetTasks n := by
  cases x <;> simp [Pc.stage]

theorem inside_iff : x.inside = true ↔ x.stage = .inTasks ∨ x.stage = .inline := by
  cases x <;> simp [Pc.stage, Pc.inside]

/-- At an access that means something to the workers. -/
def Pc.handsOver : Pc → Bool
  | .resetTasks _ | .callTasks => true
  | _ => false

/-- An access that gives nobody a part and takes none away. -/
structure Quiet (s : State) (t : ℕ) (s' : State) : Prop where
  keeps : (s.pc t).handsOver = false
  history : s'.history = s.history
  log : s'.log = s.log
  tasks : s'.tasks = s.tasks
  others : ∀ u, u ≠ t → (s'.pc u).stage = (s.pc u).stage
  self : (s.pc t).stage.GoesTo (s'.pc t).stage

theorem goto_self : (s.goto t x).pc t = x := Function.update_self ..

theorem goto_of_ne {u : ℕ} (hu : u ≠ t) : (s.goto t x).pc u = s.pc u := Function.update_of_ne hu _ _

theorem quiet_goto (hpc : (s.pc t).handsOver = false) (h : (s.pc t).stage.GoesTo x.stage) :
    Quiet s t (s.goto t x) where
  keeps := hpc
  history := rfl
  log := rfl
  tasks := rfl
  others u hu := by rw [goto_of_ne hu]
  self := by
    rw [goto_self]
    exact h

theorem stage_afterAbb (w : WaitPc) : (Pc.afterAbb w).stage = .round := by cases w <;> rfl

theorem stage_back (t : ℕ) : (Pc.back t).stage = .round ∨ (Pc.back t).stage = .between := by
  unfold Pc.back
  split_ifs
  · exact .inr rfl
  · exact .inl rfl

theorem stage_afterAbb2 (t : ℕ) (w : WaitPc) :
    (Pc.afterAbb2 t w).stage = .round ∨ (Pc.afterAbb2 t w).stage = .between := by
  cases w <;> first | exact .inl rfl | exact stage_back t

/-- **What an access of the gang's is to the tasks**: a reset, a call, a publication, or nothing. -/
theorem threadStep_stages (hs : s.threadStep num t = some s')
    (hmain : t ≠ 0 → (s.pc t).stage.inRound = true) (hin : t = 0 → (s.pc t).stage ≠ .gone) :
    (t = 0 ∧ ∃ n, s.pc 0 = .resetTasks n ∧ s' = s.reset n) ∨
    (s.pc t = .callTasks ∧ s' = s.called t) ∨
      (t = 0 ∧ ∃ n f, s.pc 0 = .storeFlag n f ∧ s' = s.published n f) ∨ Quiet s t s' := by
  have h0 : (s.pc t).stage.inRound = false → t = 0 := fun hr => by
    by_contra h0
    rw [hmain h0] at hr
    cases hr
  unfold State.threadStep at hs
  cases hpc : s.pc t with
  | abb w =>
    rw [hpc] at hs
    obtain ⟨⟨bar, w'⟩, -, rfl⟩ := Option.map_eq_some_iff.mp hs
    refine .inr (.inr (.inr ⟨by rw [hpc]; rfl, rfl, rfl, rfl, fun u hu => ?_, .inl ?_⟩))
    · show (moveAbb s.pc t w w' u).stage = _
      rw [moveAbb_of_ne hu, stage_othersAbb]
    · show (moveAbb s.pc t w w' t).stage = _
      rw [moveAbb_self, stage_afterAbb, hpc]
      rfl
  | abb2 w =>
    rw [hpc] at hs
    obtain ⟨⟨bar, w'⟩, -, rfl⟩ := Option.map_eq_some_iff.mp hs
    refine .inr (.inr (.inr ⟨by rw [hpc]; rfl, rfl, rfl, rfl, fun u hu => ?_, ?_⟩))
    · show (moveAbb2 s.pc t w w' u).stage = _
      rw [moveAbb2_of_ne hu, stage_othersAbb2]
    · have hself : (s.movedAbb2 t w bar w').pc t = .afterAbb2 t w' := moveAbb2_self
      rw [hself, hpc]
      rcases stage_afterAbb2 t w' with h | h
      · exact .inl h
      · exact .inr (.inr (.inr ⟨rfl, .inl h⟩))
  | checkShutdown =>
    rw [hpc] at hs
    obtain rfl := Option.some.inj hs
    refine .inr (.inr (.inr (quiet_goto (by rw [hpc]; rfl) ?_)))
    rw [hpc]
    split_ifs
    · exact .inr (.inr (.inr ⟨rfl, .inr rfl⟩))
    · exact .inl rfl
  | loadFlag state =>
    rw [hpc] at hs
    obtain rfl := Option.some.inj hs
    refine .inr (.inr (.inr (quiet_goto (by rw [hpc]; rfl) ?_)))
    rw [hpc]
    split_ifs
    · rcases stage_back t with h | h
      · exact .inl h
      · exact .inr (.inr (.inr ⟨rfl, .inl h⟩))
    · exact .inl rfl
  | callTasks =>
    rw [hpc] at hs
    exact .inr (.inl ⟨rfl, (Option.some.inj hs).symm⟩)
  | resetTasks n =>
    obtain rfl := h0 (by rw [hpc]; rfl)
    rw [hpc] at hs
    exact .inl ⟨rfl, n, hpc, (Option.some.inj hs).symm⟩
  | storeFlag n f =>
    obtain rfl := h0 (by rw [hpc]; rfl)
    rw [hpc] at hs
    exact .inr (.inr (.inl ⟨rfl, n, f, hpc, (Option.some.inj hs).symm⟩))
  | loadState =>
    rw [hpc] at hs
    obtain rfl := Option.some.inj hs
    exact .inr (.inr (.inr (quiet_goto (by rw [hpc]; rfl) (by rw [hpc]; exact .inl rfl))))
  | inTasks =>
    rw [hpc] at hs
    obtain rfl := Option.some.inj hs
    exact .inr (.inr (.inr (quiet_goto (by rw [hpc]; rfl) (by rw [hpc]; exact .inr (.inr
      (.inl ⟨rfl, rfl⟩))))))
  | inlineTasks =>
    rw [hpc] at hs
    obtain rfl := Option.some.inj hs
    exact .inr (.inr (.inr (quiet_goto (by rw [hpc]; rfl) (by rw [hpc]; exact .inr (.inl
      ⟨rfl, rfl⟩)))))
  | reinitLoad n =>
    rw [hpc] at hs
    obtain rfl := Option.some.inj hs
    exact .inr (.inr (.inr (quiet_goto (by rw [hpc]; rfl) (by rw [hpc]; exact .inl rfl))))
  | storeTotal n =>
    rw [hpc] at hs
    obtain rfl := Option.some.inj hs
    have hq : Quiet s t (s.goto t (.storeAwaited n)) :=
      quiet_goto (by rw [hpc]; rfl) (by rw [hpc]; exact .inl rfl)
    exact .inr (.inr (.inr ⟨hq.keeps, rfl, rfl, rfl, hq.others, hq.self⟩))
  | storeAwaited n =>
    rw [hpc] at hs
    obtain rfl := Option.some.inj hs
    have hq : Quiet s t (s.goto t (.abb .start)) :=
      quiet_goto (by rw [hpc]; rfl) (by rw [hpc]; exact .inl rfl)
    exact .inr (.inr (.inr ⟨hq.keeps, rfl, rfl, rfl, hq.others, hq.self⟩))
  | idle => rw [hpc] at hs; cases hs
  | _ =>
    obtain rfl := h0 (by rw [hpc]; rfl)
    exact absurd (by rw [hpc]; rfl) (hin rfl)

end Stages

/-! ### What the protocol is relied on for -/

section Protocol

variable {num : ℕ} {s : State} {t : ℕ}

theorem GangInv.stage_worker (h : GangInv num s) (h0 : t ≠ 0) (ht : t < num) :
    (s.pc t).stage.inRound = true := by
  have hw := h.core.workers t h0 ht
  cases hpc : s.pc t <;> rw [hpc] at hw <;> first | rfl | exact absurd hw id

theorem GangInv.stage_main (h : GangInv num s) : (s.pc 0).stage ≠ .gone := by
  have hm := h.core.main
  cases hpc : s.pc 0 <;> rw [hpc] at hm <;> first | exact absurd hm id | simp [Pc.stage]

/-- Only threads of the gang are inside, and only main is outside a round. -/
theorem GangInv.inside (h : GangInv num s) (hin : (s.pc t).inside = true) :
    t < num ∧ (s.pc t = .inTasks ∨ t = 0 ∧ s.pc 0 = .inlineTasks) := by
  have ht : t < num := by
    by_contra hge
    rw [h.core.outside t (Nat.not_lt.mp hge)] at hin
    cases hin
  refine ⟨ht, ?_⟩
  by_cases h0 : t = 0
  · subst h0
    cases hpc : s.pc 0 <;> rw [hpc] at hin <;>
      first | exact .inl rfl | exact .inr ⟨rfl, rfl⟩ | cases hin
  · have hr := h.stage_worker h0 ht
    rcases inside_iff.mp hin with hs | hs
    · exact .inl (stage_inTasks_iff.mp hs)
    · rw [hs] at hr
      cases hr

theorem inRound_of_running (h : s.phase = .running) : (s.pc 0).stage.inRound = true := by
  have h : phaseOf s.abb.generation s.abb2.generation (s.pc 0) = .running := h
  cases hpc : s.pc 0 <;> rw [hpc] at h <;> first | rfl | cases h

theorem outOfRound_of_stage
    (h : (s.pc 0).stage = .between ∨ ∃ n, (s.pc 0).stage = .reset n ∨ (s.pc 0).stage = .reinit n) :
    (s.pc 0).outOfRound = true := by
  cases hpc : s.pc 0 <;> rw [hpc] at h <;> first | rfl | simp [Pc.stage] at h

/-- Who is at the call of `tasks->run`, or inside, has a part in the round, and has called it if it
is inside. -/
theorem Recorded.part (h : Recorded num s) (hI : GangInv num s) (hn : num ≤ 255) (ht : t < num)
    (hpc : s.pc t = .callTasks ∨ s.pc t = .inTasks) : (s.pc 0).stage.inRound = true ∧
      (∃ n, s.history.getLast? = some (n, s.tasks) ∧ t < n) ∧ s.passed t = s.history.length ∧
      s.calls s.history.length t = callsDue .running (s.pc t) := by
  obtain ⟨hp, hpass, hlast, hlt⟩ := h.atCall hI hn ht hpc
  have hpos : 1 ≤ s.history.length := by
    by_contra h0
    rw [List.length_eq_zero_iff.mp (by omega : s.history.length = 0)] at hlast
    cases hlast
  refine ⟨inRound_of_running hp, ⟨_, List.getLast?_eq_getElem? ▸ hlast, hlt⟩, hpass, ?_⟩
  have hcount := h.counts _ _ _ hlast t hlt
  rwa [Nat.sub_add_cancel hpos, if_pos rfl, hp] at hcount

theorem exists_call {round id : ℕ} (h : s.calls round id = 1) :
    ∃ e ∈ s.log, e.round = round ∧ e.id = id := by
  have hpos : 0 < s.log.countP fun e => e.round = round ∧ e.id = id := by
    rw [show s.log.countP _ = 1 from h]
    exact Nat.one_pos
  obtain ⟨e, he, hp⟩ := List.countP_pos_iff.mp hpos
  exact ⟨e, he, by simpa using hp⟩

end Protocol

/-! ### The invariant -/

section Invariant

variable {num : ℕ} {flag : U32} {m₀ : ∀ i, V i} {s s' : Whole V} {t : ℕ}

/-- Worker `t` has not started. -/
def CallsState.Fresh (c : CallsState V) (t : ℕ) : Prop :=
  c.tasks.worker t = .enter ∧ c.rest t = .ret ()

/-- An object that a submit has cut. -/
structure TasksObject.Ok (O : TasksObject V) (num : ℕ) : Prop where
  cut : O.job.ranges num = some O.ranges
  once : EveryIndexOnce O.tasks O.job.start O.job.stop

/-- **The invariant.** -/
structure WholeInv (num : ℕ) (m₀ : ∀ i, V i) (s : Whole V) : Prop where
  /-- The workers are at the last loop, the others being done. -/
  running : ∃ as m, exec (s.object.tasks.callsStep s.object.job.f)
    (s.object.tasks.callsStart m) as = some s.calls ∧
    ∀ m', s.object.Leaves m m' → JobsLeave num m₀ s.jobs m'
  once : EveryIndexOnce s.object.tasks s.object.job.start s.object.job.stop
  next : ∀ n, s.gang.pc 0 = .resetTasks n → s.next.ranges.length = n ∧ s.next.Ok num
  /-- The object has as many parts as main says. -/
  size : match (s.gang.pc 0).stage with
    | .reinit n => s.object.ranges.length = n
    | .inline => s.object.ranges.length = 1
    | .round | .inTasks => 2 ≤ s.object.ranges.length
    | _ => True
  /-- Nobody has started before the publication, -/
  fresh : ∀ n, (s.gang.pc 0).stage = .reinit n → ∀ t, s.calls.Fresh t
  /-- and only those that have been called after it. -/
  started : (s.gang.pc 0).stage.inRound = true → ∀ t, ¬ s.calls.Fresh t →
    ∃ e ∈ s.gang.log, e.round = s.gang.history.length ∧ e.id = t
  /-- Who has been called, and has left, has finished. -/
  called : ∀ e ∈ s.gang.log, e.obj = s.gang.tasks → s.gang.pc e.id = .inTasks ∨
    s.calls.done e.id = true
  inline : s.object.ranges.length = 1 → (s.gang.pc 0).stage ≠ .inline → s.calls.done 0 = true
  /-- The last round is that of the object. -/
  last : 2 ≤ s.object.ranges.length → (∀ n, (s.gang.pc 0).stage ≠ .reinit n) →
    s.gang.history.getLast? = some (s.object.ranges.length, s.gang.tasks)
  objects : ∀ p ∈ s.gang.history, p.2 ≤ s.gang.tasks

theorem Job.Sized.object {J : Job V} (h : J.Sized num) (h2 : 2 ≤ num) (hn : num ≤ 255)
    {ranges : List Range} (hr : J.ranges num = some ranges) :
    (⟨J, ranges⟩ : TasksObject V).Ok num := by
  have hnum : (BitVec.ofNat 64 num).toNat = num := by
    rw [BitVec.toNat_ofNat]
    exact Nat.mod_eq_of_lt (by omega)
  have hle : (partsOf (J.stop - J.start) J.granular (BitVec.ofNat 64 num)).toNat ≤ num := by
    unfold partsOf stdMin
    split_ifs with h
    · exact hnum.le
    · rw [BitVec.lt_def, hnum] at h
      omega
  have hmul : ((partsOf (J.stop - J.start) J.granular (BitVec.ofNat 64 num)).toNat + 1) *
      J.granular.toNat ≤
      (num + 1) * J.granular.toNat := Nat.mul_le_mul_right _ (by omega)
  have hroom := h.room
  have hone : (1 : SizeT) ≤ BitVec.ofNat 64 num := by
    rw [BitVec.le_def, hnum]
    exact (by decide : (1 : SizeT).toNat ≤ 1).trans (by omega)
  obtain ⟨ranges', hr', -, hT⟩ :=
    everyIndexOnce_submit J.worksteal h.le h.granular_pos hone (by omega) (by omega)
  obtain rfl := Option.some.inj (hr'.symm.trans hr)
  exact ⟨hr, hT⟩

/-- An object without workers leaves what it finds. -/
theorem TasksObject.Leaves.eq_of_nil {J : Job V} {m m' : ∀ i, V i}
    (h : (⟨J, []⟩ : TasksObject V).Leaves m m') : m' = m := by
  obtain ⟨as, c, hs, -, rfl⟩ := h
  cases as with
  | nil =>
    obtain rfl := Option.some.inj hs
    rfl
  | cons t as =>
    obtain ⟨c₁, h₁, -⟩ := Option.bind_eq_some_iff.mp hs
    obtain ⟨g, next, hr, -⟩ | ⟨tasks, -, htasks, -⟩ := callsStep_cases h₁
    · cases hr
    · exact absurd (TasksImpl.step_eq_some.mp htasks).1 (Nat.not_lt_zero t)

theorem TasksObject.leaves_nil (J : Job V) (m : ∀ i, V i) : (⟨J, []⟩ : TasksObject V).Leaves m m :=
  ⟨[], _, rfl, fun t ht => absurd ht (Nat.not_lt_zero t), rfl⟩

theorem wholeInv_start (num : ℕ) (flag : U32) (m₀ : ∀ i, V i) :
    WholeInv num m₀ (wholeStart num flag m₀) where
  running := ⟨[], m₀, rfl, fun _ h => h.eq_of_nil ▸ .none⟩
  once :=
    everyIndexOnce_cut (c := fun _ => 0) monotone_const rfl (show 0 < (1 : SizeT).toNat by decide)
    (show 0 + (0 + 1) * (1 : SizeT).toNat < 2 ^ 64 by decide) rfl rfl
  next n h := by cases h
  size := trivial
  fresh n h := by cases h
  started h := by cases h
  called e he := by cases he
  inline h := by cases h
  last h := by cases h
  objects p hp := by cases hp

/-! ### Between submits -/

theorem WholeInv.all_done (h : WholeInv num m₀ s) (hI : GangInv num s.gang)
    (hR : Recorded num s.gang)
    (hm : (s.gang.pc 0).stage = .between ∨ ∃ n, (s.gang.pc 0).stage = .reset n)
    (ht : t < s.object.ranges.length) :
    s.calls.done t = true := by
  have hne : ∀ x, (s.gang.pc 0).stage = x → x = .between ∨ ∃ n, x = .reset n := by
    rintro x rfl
    exact hm
  have hout : (s.gang.pc 0).outOfRound = true :=
    outOfRound_of_stage (hm.imp_right fun ⟨n, hn⟩ => ⟨n, .inl hn⟩)
  rcases Nat.lt_or_ge 1 s.object.ranges.length with h1 | h1
  · -- each part of the last round has been called, and nobody is inside
    have hlast := h.last h1 fun n hn => by simpa using hne _ hn
    rw [List.getLast?_eq_getElem?] at hlast
    have hpos : 1 ≤ s.gang.history.length := by
      by_contra h0
      rw [List.length_eq_zero_iff.mp (by omega : s.gang.history.length = 0)] at hlast
      cases hlast
    have hcount := hR.counts _ _ _ hlast t ht
    rw [Nat.sub_add_cancel hpos, if_pos rfl, show s.gang.phase = .over from phaseOf_outOfRound hout]
      at hcount
    obtain ⟨e, he, hround, rfl⟩ := exists_call hcount
    obtain ⟨n, -, hobj, -⟩ := hR.events e he
    rw [hround, hlast] at hobj
    exact (h.called e he (Prod.mk.inj (Option.some.inj hobj)).2.symm).resolve_left
      (hI.returned hout e.id).1
  · obtain rfl : t = 0 := by omega
    exact h.inline (by omega) fun hn => by simpa using hne _ hn

/-- Between submits the loops have been run. -/
theorem WholeInv.jobsLeave (h : WholeInv num m₀ s) (hI : GangInv num s.gang)
    (hR : Recorded num s.gang)
    (hm : (s.gang.pc 0).stage = .between ∨ ∃ n, (s.gang.pc 0).stage = .reset n) :
    JobsLeave num m₀ s.jobs s.calls.mem := by
  obtain ⟨as, m, hs, hjobs⟩ := h.running
  exact hjobs _ ⟨as, _, hs, fun t ht => h.all_done hI hR hm ht, rfl⟩

/-! ### Steps -/

theorem step_worker_of_ne {T : TasksImpl} {c c' : TasksState} (hs : T.step c t = some c') {u : ℕ}
    (hu : u ≠ t) :
    c'.worker u = c.worker u := by
  obtain ⟨-, hs⟩ := TasksImpl.step_eq_some.mp hs
  have hgoto : ∀ x, (c.goto t x).worker u = c.worker u := fun x => Function.update_of_ne hu _ _
  obtain ⟨-, rfl⟩ | ⟨off, v, -, -, rfl⟩ | ⟨off, i, stop, -, -, rfl⟩ |
      ⟨off, i, stop, -, -, rfl⟩ | ⟨i, -, -, rfl⟩ | ⟨i, -, -, rfl⟩ :=
    TasksImpl.workerStep_cases hs
  all_goals exact hgoto _

/-- A step of a worker is nothing to the others, and one that has finished takes none. -/
theorem callsStep_frame {T : TasksImpl} {f : SizeT → Prog (∀ i, V i) Unit} {c c' : CallsState V}
    (hs : T.callsStep f c t = some c') :
    c.done t = false ∧ ∀ u, u ≠ t → c'.tasks.worker u = c.tasks.worker u ∧
    c'.rest u = c.rest u := by
  obtain ⟨g, next, hr, rfl⟩ | ⟨tasks, hr, htasks, rfl⟩ := callsStep_cases hs
  · refine ⟨?_, fun u hu => ⟨rfl, Function.update_of_ne hu _ _⟩⟩
    rw [← Bool.not_eq_true, CallsState.done_iff, hr]
    exact fun h => by cases h.2
  · refine ⟨?_, fun u hu => ⟨step_worker_of_ne htasks hu, Function.update_of_ne hu _ _⟩⟩
    rw [← Bool.not_eq_true, CallsState.done_iff]
    rintro ⟨hf, -⟩
    obtain ⟨-, hstep⟩ := TasksImpl.step_eq_some.mp htasks
    rw [TasksImpl.workerStep, hf] at hstep
    cases hstep

theorem done_congr {c c' : CallsState V} {u : ℕ}
    (h : c'.tasks.worker u = c.tasks.worker u ∧ c'.rest u = c.rest u) :
    c'.done u = c.done u := by
  unfold CallsState.done
  rw [h.1, h.2]

/-- A thread inside takes a step. -/
theorem WholeInv.work (h : WholeInv num m₀ s) (hI : GangInv num s.gang) (hR : Recorded num s.gang)
    (hn : num ≤ 255) (hin : (s.gang.pc t).inside = true) {calls : CallsState V}
    (hs : s.object.tasks.callsStep s.object.job.f s.calls t = some calls) :
    WholeInv num m₀ { s with calls := calls } := by
  obtain ⟨hlt, hpc⟩ := hI.inside hin
  obtain ⟨hnot, hother⟩ := callsStep_frame hs
  obtain ⟨as, m, hrun, hjobs⟩ := h.running
  refine
    { running := ⟨as ++ [t], m, ?_, hjobs⟩
      once := h.once
      next := h.next
      size := h.size
      fresh := fun n hre u => ?_
      started := fun hround u hu => ?_
      called := fun e he hobj => ?_
      inline := fun h1 hne => ?_
      last := h.last
      objects := h.objects }
  · rw [exec_append, hrun, Option.bind_some, exec, hs]
    rfl
  · -- nobody is inside before the publication
    rcases hpc with hpc | ⟨-, hpc⟩
    · exact absurd hpc (hI.returned (outOfRound_of_stage (.inr ⟨n, .inr hre⟩)) t).1
    · rw [hpc] at hre
      cases hre
  · by_cases hut : u = t
    · rcases hpc with hpc | ⟨-, hpc⟩
      · obtain ⟨-, -, -, hcalls⟩ := hR.part hI hn hlt (.inr hpc)
        rw [hpc] at hcalls
        rw [hut]
        exact exists_call hcalls
      · rw [hpc] at hround
        cases hround
    · exact h.started hround u fun hfresh => hu ⟨(hother u hut).1.trans hfresh.1,
        (hother u hut).2.trans hfresh.2⟩
  · rcases h.called e he hobj with hp | hd
    · exact .inl hp
    · by_cases het : e.id = t
      · rw [het, hnot] at hd
        cases hd
      · exact .inr ((done_congr (hother e.id het)).trans hd)
  · have hd := h.inline h1 hne
    by_cases h0 : 0 = t
    · rw [h0, hnot] at hd
      cases hd
    · exact (done_congr (hother 0 h0)).trans hd

/-- Main submits a loop. -/
theorem WholeInv.submit (h : WholeInv num m₀ s) (h2 : 2 ≤ num) (hn : num ≤ 255) {J : Job V}
    (hJ : J.Sized num) (hs : s.step num (.submit J) = some s') : WholeInv num m₀ s' := by
  obtain ⟨ranges, hr, hs⟩ := Option.bind_eq_some_iff.mp hs
  obtain ⟨gang, hg, rfl⟩ := Option.map_eq_some_iff.mp hs
  have hok := hJ.object h2 hn hr
  simp only [Gang.step] at hg
  split_ifs at hg with hidle h0
  all_goals obtain rfl := Option.some.inj hg
  · -- an empty loop
    obtain rfl := List.length_eq_zero_iff.mp h0
    rw [if_pos rfl]
    obtain ⟨as, m, hrun, hjobs⟩ := h.running
    exact { h with
      running :=
      ⟨as, m, hrun, fun m' hm => .snoc (hjobs m' hm) ⟨[], hr, TasksObject.leaves_nil J m'⟩⟩ }
  · have hpc := State.isIdle_iff.mp hidle.1
    have h0' : ranges ≠ [] := fun hnil => h0 (by rw [hnil]; rfl)
    have hold : (s.gang.pc 0).stage = .between := by
      rw [hpc]
      rfl
    rw [if_neg h0']
    refine
      { running := h.running
        once := h.once
        next := fun n hn => ?_
        size := ?_
        fresh := fun n hn => ?_
        started := fun hround => ?_
        called := fun e he hobj => ?_
        inline := fun h1 _ => h.inline h1 (by rw [hold]; simp)
        last := fun h1 _ => h.last h1 fun n => by rw [hold]; simp
        objects := h.objects }
    · rw [goto_self] at hn
      cases hn
      exact ⟨rfl, hok⟩
    · show match ((s.gang.goto 0 (.resetTasks ranges.length)).pc 0).stage with
        | .reinit n => s.object.ranges.length = n
        | .inline => s.object.ranges.length = 1
        | .round | .inTasks => 2 ≤ s.object.ranges.length
        | _ => True
      rw [goto_self]
      trivial
    · rw [goto_self] at hn
      cases hn
    · rw [goto_self] at hround
      cases hround
    · refine (h.called e he hobj).imp_left fun hp => ?_
      by_cases h0 : e.id = 0
      · rw [h0, hpc] at hp
        cases hp
      · exact (goto_of_ne h0).trans hp

/-- Main resets the object. -/
theorem WholeInv.reset (h : WholeInv num m₀ s) (hI : GangInv num s.gang)
    (hR : Recorded num s.gang) {n : ℕ} (hpc : s.gang.pc 0 = .resetTasks n) :
    WholeInv num m₀ (s.follow 0 (s.gang.reset n)) := by
  have hold : (s.gang.pc 0).stage = .reset n := by
    rw [hpc]
    rfl
  have hmem := h.jobsLeave hI hR (.inr ⟨n, hold⟩)
  obtain ⟨hlen, hok⟩ := h.next n hpc
  have hfollow : s.follow 0 (s.gang.reset n) = { s with
      gang := s.gang.reset n
      object := s.next
      calls := s.next.tasks.callsStart s.calls.mem
      jobs := s.jobs ++ [s.next.job] } := by
    unfold Whole.follow
    rw [hpc]
  have hmain : (s.gang.reset n).pc 0 = if n = 1 then .inlineTasks else .reinitLoad n := rfl
  have hn1 : 1 ≤ n := by
    have hm := hI.core.main
    rw [hpc] at hm
    exact hm.1
  rw [hfollow]
  refine
    { running := ⟨[], s.calls.mem, rfl, fun m' hm => .snoc hmem ⟨_, hok.cut, hm⟩⟩
      once := hok.once
      next := fun k hk => ?_
      size := ?_
      fresh := fun _ _ _ => ⟨rfl, rfl⟩
      started := fun _ _ hf => absurd ⟨rfl, rfl⟩ hf
      called := fun e he hobj => ?_
      inline := fun h1 hne => ?_
      last := fun h1 hne => ?_
      objects := fun p hp => (h.objects p hp).trans (Nat.le_succ _) }
  · rw [hmain] at hk
    split_ifs at hk
  · simp only [hmain]
    split_ifs with h1
    · exact hlen.trans h1
    · exact hlen
  · -- the new object is one that nobody has been called on
    obtain ⟨k, -, hget, -⟩ := hR.events e he
    have hle : e.obj ≤ s.gang.tasks := h.objects _ (List.mem_of_getElem? hget)
    have hobj : e.obj = s.gang.tasks + 1 := hobj
    omega
  · rw [hmain, if_pos (hlen.symm.trans h1)] at hne
    exact absurd rfl hne
  · have hn : n ≠ 1 := fun hn => by
      have h1 : 2 ≤ s.next.ranges.length := h1
      omega
    rw [hmain, if_neg hn] at hne
    exact absurd rfl (hne n)

/-- A thread calls `tasks->run`. -/
theorem WholeInv.call (h : WholeInv num m₀ s) (hI : GangInv num s.gang) (hR : Recorded num s.gang)
    (hn : num ≤ 255) (hpc : s.gang.pc t = .callTasks) (ht : t < num) :
    WholeInv num m₀ (s.follow t (s.gang.called t)) := by
  obtain ⟨hround, -, -, hcalls⟩ := hR.part hI hn ht (.inl hpc)
  -- its worker has not started
  have hfresh : s.calls.Fresh t := by
    by_contra hf
    obtain ⟨e, he, hr, hid⟩ := h.started hround t hf
    have hpos : 0 < s.gang.calls s.gang.history.length t :=
      List.countP_pos_iff.mpr ⟨e, he, by simp [hr, hid]⟩
    rw [hcalls, hpc] at hpos
    exact absurd hpos (by simp [callsDue, Pc.hasRun])
  have hfollow : s.follow t (s.gang.called t) = { s with gang := s.gang.called t } := by
    unfold Whole.follow
    rw [hpc]
    have htasks : s.calls.tasks.goto t .enter = s.calls.tasks := by
      rw [TasksState.goto, ← hfresh.1, Function.update_eq_self]
    have hrest : Function.update s.calls.rest t (.ret ()) = s.calls.rest := by
      rw [← hfresh.2, Function.update_eq_self]
    simp only [htasks, hrest]
  have hself : (s.gang.called t).pc t = .inTasks := Function.update_self ..
  have hother : ∀ u, u ≠ t → (s.gang.called t).pc u = s.gang.pc u :=
    fun u hu => Function.update_of_ne hu _ _
  -- main stays in its round
  have hmain : ((s.gang.called t).pc 0).stage.inRound = true := by
    by_cases h0 : 0 = t
    · rw [h0, hself]
      rfl
    · rw [hother 0 h0]
      exact hround
  have hsize : 2 ≤ s.object.ranges.length := by
    have := h.size
    revert this hround
    cases (s.gang.pc 0).stage <;> intro h1 h2 <;> first | exact h2 | cases h1
  have hreinit : ∀ n, ((s.gang.called t).pc 0).stage ≠ .reinit n := fun n he => by
    rw [he] at hmain
    cases hmain
  have hreinit' : ∀ n, (s.gang.pc 0).stage ≠ .reinit n := fun n he => by
    rw [he] at hround
    cases hround
  rw [hfollow]
  refine
    { running := h.running
      once := h.once
      next := fun n hn => ?_
      size := ?_
      fresh := fun n hn => absurd hn (hreinit n)
      started := fun _ u hu => ?_
      called := fun e he hobj => ?_
      inline := fun h1 _ => absurd (show s.object.ranges.length = 1 from h1) (by omega)
      last := fun h1 _ => h.last h1 hreinit'
      objects := h.objects }
  · rw [hn] at hmain
    cases hmain
  · revert hmain
    show ((s.gang.called t).pc 0).stage.inRound = true → match ((s.gang.called t).pc 0).stage with
      | .reinit n => s.object.ranges.length = n
      | .inline => s.object.ranges.length = 1
      | .round | .inTasks => 2 ≤ s.object.ranges.length
      | _ => True
    cases ((s.gang.called t).pc 0).stage <;> intro h1 <;> first | exact hsize | trivial
  · obtain ⟨e, he, hr⟩ := h.started hround u hu
    exact ⟨e, List.mem_append_left _ he, hr⟩
  · by_cases het : e.id = t
    · exact .inl (by rw [het]; exact hself)
    · rcases List.mem_append.mp he with he | he
      · exact (h.called e he hobj).imp_left fun hp => (hother _ het).trans hp
      · rw [List.mem_singleton.mp he] at het
        exact absurd rfl het

/-- Main publishes a round. -/
theorem WholeInv.publish (h : WholeInv num m₀ s) (hI : GangInv num s.gang) {n : ℕ} {f : U32}
    (hpc : s.gang.pc 0 = .storeFlag n f) :
    WholeInv num m₀ (s.follow 0 (s.gang.published n f)) := by
  have hold : (s.gang.pc 0).stage = .reinit n := by
    rw [hpc]
    rfl
  have hfollow : s.follow 0 (s.gang.published n f) = { s with gang := s.gang.published n f } := by
    unfold Whole.follow
    rw [hpc]
  have hmain : (s.gang.published n f).pc 0 = .storeTotal n := rfl
  have hsize : s.object.ranges.length = n := by
    have := h.size
    rw [hold] at this
    exact this
  have hn2 : 2 ≤ n := by
    have hm := hI.core.main
    rw [hpc] at hm
    exact hm.1
  rw [hfollow]
  refine
    { running := h.running
      once := h.once
      next := fun k hk => ?_
      size := ?_
      fresh := fun k hk => ?_
      started := fun _ u hu => absurd (h.fresh n hold u) hu
      called := fun e he hobj => ?_
      inline := fun h1 _ => absurd (show s.object.ranges.length = 1 from h1) (by omega)
      last := fun _ _ => ?_
      objects := fun p hp => ?_ }
  · rw [hmain] at hk
    cases hk
  · simp only [hmain]
    exact hn2.trans hsize.ge
  · rw [hmain] at hk
    cases hk
  · refine (h.called e he hobj).imp_left fun hp => ?_
    by_cases h0 : e.id = 0
    · rw [h0, hpc] at hp
      cases hp
    · exact (goto_of_ne h0).trans hp
  · show (s.gang.history ++ [(n, s.gang.tasks)]).getLast? = _
    rw [List.getLast?_append, hsize]
    rfl
  · rcases List.mem_append.mp hp with hp | hp
    · exact h.objects p hp
    · rw [List.mem_singleton.mp hp]
      exact le_rfl

/-- An access that gives nobody a part; who leaves `tasks->run` has finished. -/
theorem WholeInv.quiet (h : WholeInv num m₀ s) {gang : State} (hq : Quiet s.gang t gang)
    (hb : s.busy t = false) (hgone : (gang.pc 0).stage ≠ .gone) :
    WholeInv num m₀ { s with gang := gang } := by
  have hmain : (s.gang.pc 0).stage.GoesTo (gang.pc 0).stage := by
    by_cases h0 : 0 = t
    · rw [h0]
      exact hq.self
    · exact .inl (hq.others 0 h0)
  have hdone : (s.gang.pc t).inside = true → s.calls.done t = true := fun hin => by
    rw [Whole.busy, hin] at hb
    simpa using hb
  -- main begins nothing
  have hold : ∀ x, (gang.pc 0).stage = x → x ≠ .between → x ≠ .round → (s.gang.pc 0).stage = x := by
    rintro x rfl hx hx'
    rcases hmain with h1 | ⟨-, h1⟩ | ⟨-, h1⟩ | ⟨-, h1 | h1⟩
    · exact h1.symm
    · exact absurd h1 hx
    · exact absurd h1 hx'
    · exact absurd h1 hx
    · exact absurd h1 hgone
  refine
    { running := h.running
      once := h.once
      next :=
        fun n hn => h.next n (stage_reset_iff.mp (hold _ (stage_reset_iff.mpr hn)
        (by simp) (by simp)))
      size := ?_
      fresh := fun n hn => h.fresh n (hold _ hn (by simp) (by simp))
      started := fun hround u hu => ?_
      called := fun e he hobj => ?_
      inline := fun h1 hne => ?_
      last := fun h1 hne => ?_
      objects := ?_ }
  · have hsize := h.size
    rcases hmain with h1 | ⟨-, h1⟩ | ⟨h0, h1⟩ | ⟨-, h1 | h1⟩
    · simp only [h1]
      exact hsize
    · simp only [h1]
    · rw [h0] at hsize
      simp only [h1]
      exact hsize
    · simp only [h1]
    · exact absurd h1 hgone
  · have hround' : (s.gang.pc 0).stage.inRound = true := by
      rcases hmain with h1 | ⟨-, h1⟩ | ⟨h0, -⟩ | ⟨-, h1 | h1⟩
      · rwa [h1] at hround
      · rw [h1] at hround
        cases hround
      · rw [h0]
        rfl
      · rw [h1] at hround
        cases hround
      · exact absurd h1 hgone
    rw [hq.log, hq.history]
    exact h.started hround' u hu
  · rw [hq.log] at he
    rw [hq.tasks] at hobj
    rcases h.called e he hobj with hp | hd
    · by_cases het : e.id = t
      · refine .inr ?_
        rw [het] at hp ⊢
        exact hdone (by rw [hp]; rfl)
      · exact .inl (stage_inTasks_iff.mp ((hq.others _ het).trans (stage_inTasks_iff.mpr hp)))
    · exact .inr hd
  · by_cases hin : (s.gang.pc 0).stage = .inline
    · -- main leaves the only part
      have h0 : 0 = t := by
        by_contra h0
        exact hne ((hq.others 0 h0).trans hin)
      rw [h0] at hin ⊢
      exact hdone (inside_iff.mpr (.inr hin))
    · exact h.inline h1 hin
  · rw [hq.history, hq.tasks]
    refine h.last h1 fun n hn => hne n ?_
    rw [hn] at hmain
    rcases hmain with h1 | ⟨h1, -⟩ | ⟨h1, -⟩ | ⟨h1, -⟩
    · exact h1
    all_goals cases h1
  · rw [hq.history, hq.tasks]
    exact h.objects

theorem Whole.follow_of_keeps (h : (s.gang.pc t).handsOver = false) (gang : State) :
    s.follow t gang = { s with gang := gang } := by
  unfold Whole.follow
  cases hpc : s.gang.pc t <;> first | rfl | (rw [hpc] at h; cases h)

theorem WholeInv.thread (h : WholeInv num m₀ s) (hI : GangInv num s.gang) (hR : Recorded num s.gang)
    (hn : num ≤ 255) (hI' : GangInv num s'.gang) (hs : s.step num (.thread t) = some s') :
    WholeInv num m₀ s' := by
  simp only [Whole.step] at hs
  split_ifs at hs with hb
  obtain ⟨gang, hg, rfl⟩ := Option.map_eq_some_iff.mp hs
  simp only [Gang.step] at hg
  split_ifs at hg with ht
  obtain ⟨rfl, n, hpc, rfl⟩ | ⟨hpc, rfl⟩ | ⟨rfl, n, f, hpc, rfl⟩ | hq :=
    threadStep_stages hg (fun h0 => hI.stage_worker h0 ht) fun h0 => h0 ▸ hI.stage_main
  · exact h.reset hI hR hpc
  · exact h.call hI hR hn hpc ht
  · exact h.publish hI hpc
  · rw [Whole.follow_of_keeps hq.keeps] at hI' ⊢
    exact h.quiet hq (by simpa using hb) hI'.stage_main

/-! ### Runs -/

/-- What happens to the gang happens by its protocol. -/
theorem gang_step {a : WholeAct V} (hs : s.step num a = some s') :
    s'.gang = s.gang ∨ ∃ b, b ≠ .destroy ∧ Gang.step num s.gang b = some s'.gang := by
  cases a with
  | thread t =>
    simp only [Whole.step] at hs
    split_ifs at hs
    obtain ⟨gang, hg, rfl⟩ := Option.map_eq_some_iff.mp hs
    refine .inr ⟨.thread t, by simp, ?_⟩
    rw [hg]
    unfold Whole.follow
    cases s.gang.pc t <;> rfl
  | work t =>
    simp only [Whole.step] at hs
    split_ifs at hs
    obtain ⟨calls, -, rfl⟩ := Option.map_eq_some_iff.mp hs
    exact .inl rfl
  | submit J =>
    obtain ⟨ranges, -, hs⟩ := Option.bind_eq_some_iff.mp hs
    obtain ⟨gang, hg, rfl⟩ := Option.map_eq_some_iff.mp hs
    refine .inr ⟨.submit ranges.length, by simp, ?_⟩
    rw [hg]
    split_ifs <;> rfl

theorem gang_reach {ok : Whole V → WholeAct V → Prop} (h : (whole num flag m₀).Reach ok s) :
    (system num flag).Reach (fun _ a => a ≠ .destroy) s.gang := by
  induction h with
  | init hi => exact .init (by rw [hi]; rfl)
  | step _ _ hs ih =>
    rcases gang_step hs with he | ⟨b, hb, hg⟩
    · rwa [he]
    · exact .step ih hb hg

theorem gang_notWrapped {a : WholeAct V} (hs : s.step num a = some s') (hw : NotWrapped s'.gang) :
    NotWrapped s.gang := by
  rcases gang_step hs with he | ⟨b, -, hg⟩
  · rwa [he] at hw
  · exact hw.of_step hg

/-- Every run of submits. -/
theorem wholeInv_reach (h2 : 2 ≤ num) (hn : num ≤ 255)
    (h : (whole num flag m₀).Reach (fun _ a => a.Sized num) s) (hw : NotWrapped s.gang) :
    WholeInv num m₀ s ∧ GangInv num s.gang ∧ Recorded num s.gang := by
  have hgang : ∀ {s : Whole V}, (whole num flag m₀).Reach (fun _ a => a.Sized num) s →
      NotWrapped s.gang →
      GangInv num s.gang ∧ Recorded num s.gang := fun h hw => by
    have hr := honest_reach h2 hn (gang_reach h) hw
    exact ⟨gangInv_reach h2 (by omega) hr, recorded_reach h2 hn hr⟩
  refine ⟨?_, hgang h hw⟩
  induction h with
  | init hi =>
    rw [hi]
    exact wholeInv_start num flag m₀
  | @step s s' a hr ha hs ih =>
    have hw' := gang_notWrapped hs hw
    obtain ⟨hI, hR⟩ := hgang hr hw'
    have hinv := ih hw'
    cases a with
    | thread t => exact hinv.thread hI hR hn (hgang (.step hr ha hs) hw).1 hs
    | work t =>
      simp only [whole, Whole.step] at hs
      split_ifs at hs with hin
      obtain ⟨calls, hc, rfl⟩ := Option.map_eq_some_iff.mp hs
      exact hinv.work hI hR hn hin hc
    | submit J => exact hinv.submit h2 hn ha hs

/-- A thread that is busy inside can go on. -/
theorem WholeInv.busy_step (h : WholeInv num m₀ s) (hI : GangInv num s.gang)
    (hR : Recorded num s.gang) (hn : num ≤ 255) (hb : s.busy t = true) :
    ∃ s', s.step num (.work t) = some s' := by
  obtain ⟨hin, hd⟩ : (s.gang.pc t).inside = true ∧ s.calls.done t = false := by
    simpa [Whole.busy] using hb
  obtain ⟨hlt, hpc⟩ := hI.inside hin
  have hsize : t < s.object.ranges.length := by
    rcases hpc with hpc | ⟨rfl, hpc⟩
    · obtain ⟨hround, ⟨n, hlast, htn⟩, -, -⟩ := hR.part hI hn hlt (.inr hpc)
      have hr : ∀ n, (s.gang.pc 0).stage ≠ .reinit n := fun n hn => by
        rw [hn] at hround
        cases hround
      have h2 : 2 ≤ s.object.ranges.length := by
        have := h.size
        revert this hround
        cases (s.gang.pc 0).stage <;> intro h1 h2 <;> first | exact h2 | cases h1
      obtain ⟨hsame, -⟩ := Prod.mk.inj (Option.some.inj ((h.last h2 hr).symm.trans hlast))
      omega
    · have hone := h.size
      rw [hpc] at hone
      exact Nat.lt_of_lt_of_eq Nat.one_pos hone.symm
  obtain ⟨calls, hc⟩ := callsStep_of_not_done (f := s.object.job.f) h.once hsize hd
  exact ⟨_, by rw [Whole.step, if_pos hin, hc]; rfl⟩

/-- While main is in a submit some thread can go on. -/
theorem WholeInv.progress (h : WholeInv num m₀ s) (hI : GangInv num s.gang)
    (hR : Recorded num s.gang) (h2 : 2 ≤ num) (hn : num ≤ 255) (hidle : s.gang.isIdle = false) :
    ∃ t < num, ∃ s', s.step num (.thread t) = some s' ∨ s.step num (.work t) = some s' := by
  obtain ⟨t, ht, gang, hg⟩ := hI.progress h2 hn hidle
  by_cases hb : s.busy t = true
  · obtain ⟨s', hs⟩ := h.busy_step hI hR hn hb
    exact ⟨t, ht, s', .inr hs⟩
  · exact ⟨t, ht, s.follow t gang, .inl (by rw [Whole.step, if_neg hb, hg]; rfl)⟩

/-- **A gang does its submits.** In every run, whatever is interleaved with whatever, and whatever
the calls share: when main is between submits the store is one that the workers of the submits
leave, one submit after the other, and as long as it is not, some thread can go on. -/
theorem whole_submits (h2 : 2 ≤ num) (hn : num ≤ 255)
    (h : (whole num flag m₀).Reach (fun _ a => a.Sized num) s) (hw : NotWrapped s.gang) :
    (s.gang.isIdle = true → JobsLeave num m₀ s.jobs s.calls.mem) ∧
      (s.gang.isIdle = false → ∃ t < num, ∃ s', s.step num (.thread t) = some s' ∨
        s.step num (.work t) = some s') := by
  obtain ⟨hinv, hI, hR⟩ := wholeInv_reach h2 hn h hw
  refine ⟨fun hidle => hinv.jobsLeave hI hR (.inl ?_), hinv.progress hI hR h2 hn⟩
  rw [State.isIdle_iff.mp hidle]
  rfl

/-! ### Loops -/

theorem noJob_ok (h : num ≤ 255) : (noJob : Job V).Ok num where
  le := show (0 : SizeT) ≤ 0 by decide
  granular_pos := show (1 : SizeT) ≤ 1 by decide
  room := by
    show 0 + (num + 1) * 1 < 2 ^ 64
    omega
  apart := ⟨fun _ => ⟨fun _ => False, fun _ => False⟩, fun _ _ => trivial,
    fun _ _ _ _ _ => ⟨fun _ h => h.elim, fun _ h => h.elim⟩⟩

/-- The submits of a run are those that main has made. -/
theorem jobs_ok (hn : num ≤ 255) (h : (whole num flag m₀).Reach (fun _ a => a.Ok num) s) :
    (∀ J ∈ s.jobs, J.Ok num) ∧ s.next.job.Ok num := by
  induction h with
  | init hi =>
    rw [hi]
    exact ⟨fun J hJ => (by cases hJ), noJob_ok hn⟩
  | @step s s' a _ ha hs ih =>
    have hsnoc : ∀ {J : Job V}, J.Ok num → ∀ K ∈ s.jobs ++ [J], K.Ok num := fun hJ K hK =>
      (List.mem_append.mp hK).elim (ih.1 K) fun hK => by rwa [List.mem_singleton.mp hK]
    cases a with
    | thread t =>
      simp only [whole, Whole.step] at hs
      split_ifs at hs
      obtain ⟨gang, -, rfl⟩ := Option.map_eq_some_iff.mp hs
      unfold Whole.follow
      cases s.gang.pc t with
      | resetTasks n => exact ⟨hsnoc ih.2, ih.2⟩
      | _ => exact ih
    | work t =>
      simp only [whole, Whole.step] at hs
      split_ifs at hs
      obtain ⟨calls, -, rfl⟩ := Option.map_eq_some_iff.mp hs
      exact ih
    | submit J =>
      obtain ⟨ranges, -, hs⟩ := Option.bind_eq_some_iff.mp hs
      obtain ⟨gang, -, rfl⟩ := Option.map_eq_some_iff.mp hs
      split_ifs
      · exact ⟨hsnoc ha, ih.2⟩
      · exact ⟨ih.1, ha⟩

/-- A submit whose calls do not get in each other's way is a loop. -/
theorem Job.Leaves.runAlone {J : Job V} {m m' : ∀ i, V i} (h : J.Leaves num m m') (hJ : J.Ok num)
    (h2 : 2 ≤ num) (hn : num ≤ 255) : m' = J.runAlone m := by
  obtain ⟨ranges, hr, as, c, hs, hd, rfl⟩ := h
  obtain ⟨F, hF⟩ := hJ.apart
  exact (calls_sequential (hJ.toSized.object h2 hn hr).once hF m).result as c hs hd

/-- and what `submit(end, ..)` can do if it begins at zero. -/
theorem Job.leaves_iff_submitted {J : Job V} {m m' : ∀ i, V i} (h0 : J.start = 0) :
    J.Leaves num m m' ↔ Submitted J.stop J.granular (BitVec.ofNat 64 num) J.worksteal J.f m m' := by
  have hend : J.ranges num = submitEndRanges J.stop J.granular (BitVec.ofNat 64 num) := by
    have hsub : J.stop - 0 = J.stop := BitVec.sub_zero J.stop
    rw [Job.ranges, h0, submitRanges, submitEndRanges, hsub]
  unfold Job.Leaves Submitted
  rw [hend]
  constructor
  · rintro ⟨ranges, hr, as, c, h⟩
    exact ⟨ranges, as, c, hr, h⟩
  · rintro ⟨ranges, as, c, hr, h⟩
    exact ⟨ranges, hr, as, c, h⟩

theorem JobsLeave.runJobs {jobs : List (Job V)} {m : ∀ i, V i} (h : JobsLeave num m₀ jobs m)
    (hjobs : ∀ J ∈ jobs, J.Ok num) (h2 : 2 ≤ num) (hn : num ≤ 255) : m = Gang.runJobs jobs m₀ := by
  induction h with
  | none => rfl
  | @snoc jobs J m m' _ hJ ih =>
    rw [hJ.runAlone (hjobs J (by simp)) h2 hn, ih fun K hK => hjobs K (List.mem_append_left _ hK),
      Gang.runJobs, Gang.runJobs, List.foldl_append]
    rfl

/-- **A gang is a loop.** In every run of submits, whatever is interleaved with whatever: when main
is between submits the store is as if it had run the loops itself, and as long as it is not, some
thread can go on. -/
theorem whole_sequential (h2 : 2 ≤ num) (hn : num ≤ 255)
    (h : (whole num flag m₀).Reach (fun _ a => a.Ok num) s) (hw : NotWrapped s.gang) :
    (s.gang.isIdle = true → s.calls.mem = runJobs s.jobs m₀) ∧
      (s.gang.isIdle = false → ∃ t < num, ∃ s', s.step num (.thread t) = some s' ∨
        s.step num (.work t) = some s') := by
  have hsized : (whole num flag m₀).Reach (fun _ a => a.Sized num) s := h.mono fun _ a ha => by
    cases a with
    | submit J => exact Job.Ok.toSized ha
    | _ => trivial
  obtain ⟨hinv, hI, hR⟩ := wholeInv_reach h2 hn hsized hw
  refine ⟨fun hidle => ?_, hinv.progress hI hR h2 hn⟩
  refine (hinv.jobsLeave hI hR (.inl ?_)).runJobs (jobs_ok hn h).1 h2 hn
  rw [State.isIdle_iff.mp hidle]
  rfl

end Invariant

/-- Two cells, doubled. -/
def doubling : Job fun _ : SizeT => ℕ := ⟨0, 2, 1, true, double⟩

/-- Both threads of a gang of two are inside, and take turns; a call has two acts. -/
def takeTurns (J : Job V) : List (WholeAct V) :=
  .submit J :: (List.replicate 4 (.thread 1) ++ List.replicate 17 (.thread 0) ++ List.replicate 6
    (.thread 1) ++
    (List.replicate 8 [.work 0, .work 1]).flatten ++ .thread 0 :: List.replicate 5
      (.thread 1) ++ List.replicate 8 (.thread 0))

theorem eq_of_mem_takeTurns {J K : Job V} (h : .submit K ∈ takeTurns J) : K = J := by
  simpa [takeTurns] using h

theorem doubling_ok : doubling.Ok 2 where
  le := by decide
  granular_pos := by decide
  room := by decide
  apart := ⟨_, double_apart 0 2⟩

/-- Main is back, and both cells hold a two. -/
theorem whole_sequential_doubling :
    ∃ s, (whole 2 0 fun _ : SizeT => 1).Reach (fun _ a => a.Ok 2) s ∧ s.gang.history = [(2, 1)] ∧
    s.calls.mem 0 = 2 ∧ s.calls.mem 1 = 2 ∧ s.gang.isIdle = true ∧
    s.calls.mem = runJobs s.jobs fun _ => 1 := by
  have hrun : (exec (Whole.step · 2 ·) (wholeStart 2 0 fun _ : SizeT => 1) (takeTurns doubling)).any
      (fun s => s.gang.history = [(2, 1)] ∧ s.calls.mem 0 = 2 ∧ s.calls.mem 1 = 2 ∧
        s.gang.isIdle = true) = true := by
    decide +kernel
  obtain ⟨s, hs, hp⟩ := (Option.any_eq_true _ _).mp hrun
  obtain ⟨hh, h0, h1, hi⟩ : s.gang.history = [(2, 1)] ∧ s.calls.mem 0 = 2 ∧ s.calls.mem 1 = 2 ∧
      s.gang.isIdle = true := by
    simpa using hp
  have hr : (whole 2 0 fun _ : SizeT => 1).Reach (fun _ a => a.Ok 2) s :=
    Lts.Reach.exec (fun _ _ _ h => h) (.init rfl) (fun _ a ha => by
      cases a with
      | submit J =>
        obtain rfl := eq_of_mem_takeTurns ha
        exact doubling_ok
      | _ => trivial) hs
  exact ⟨s, hr, hh, h0, h1, hi,
    (whole_sequential (by decide) (by decide) hr (by rw [NotWrapped, hh]; decide)).1 hi⟩

/-- One cell, incremented twice. -/
def incrementing : Job fun _ : Unit => ℕ := ⟨0, 2, 1, true, increment⟩

/-- Taking turns, both calls read a zero. -/
theorem whole_submits_lost :
    ∃ s, (whole 2 0 fun _ : Unit => 0).Reach (fun _ a => a.Sized 2) s ∧ s.calls.mem () = 1 ∧
    s.gang.isIdle = true ∧ JobsLeave 2 (fun _ => 0) s.jobs s.calls.mem := by
  have hrun :
      (exec (Whole.step · 2 ·) (wholeStart 2 0 fun _ : Unit => 0) (takeTurns incrementing)).any
      (fun s => s.gang.history = [(2, 1)] ∧ s.calls.mem () = 1 ∧
        s.gang.isIdle = true) = true := by
    decide +kernel
  obtain ⟨s, hs, hp⟩ := (Option.any_eq_true _ _).mp hrun
  obtain ⟨hh, h1, hi⟩ : s.gang.history = [(2, 1)] ∧ s.calls.mem () = 1 ∧ s.gang.isIdle = true := by
    simpa using hp
  have hr : (whole 2 0 fun _ : Unit => 0).Reach (fun _ a => a.Sized 2) s :=
    Lts.Reach.exec (fun _ _ _ h => h) (.init rfl) (fun _ a ha => by
      cases a with
      | submit J =>
        obtain rfl := eq_of_mem_takeTurns ha
        exact ⟨by decide, by decide, by decide⟩
      | _ => trivial) hs
  exact ⟨s, hr, h1, hi,
    (whole_submits (by decide) (by decide) hr (by rw [NotWrapped, hh]; decide)).1 hi⟩

end NetworkDemo.Gang
