import NetworkDemo.StopWatch.RateLimit
import Mathlib.Algebra.BigOperators.Group.List.Basic
import Mathlib.Data.BitVec
import Mathlib.Tactic.Abel

/-!
# What stopwatches show

`Stopwatch` and `StopwatchRUsage` are alike: two timestamps and whether the watch is running. They
differ in what a timestamp is, the nanoseconds of a clock or the user and system times of a thread,
and in that a `Stopwatch` is started by its constructor. What the clock says is given with every
call.

A `StopwatchGuard` is a watch whose destructor adds what the watch shows to a counter.

* `elapsed_counts` — with a clock that does not go back a watch shows, whatever was called in
  whatever order, the time from its last start to the last stop after it, or to now, and nothing
  wraps.
* `guards_add` — what guards leave in their counter.
* `elapsed_locked` — an `AtomicStopwatch` shows the time since its last restart, and while a
  `Lock` is held `2⁶³` more.
-/

namespace NetworkDemo.StopWatch

open Foundations

/-! ### Watches -/

/-- A `Stopwatch`, or a `StopwatchRUsage`, with timestamps of type `R`. -/
structure Watch (R : Type) where
  startTs : R
  stopTs : R
  isRunning : Bool

/-- A call that changes a watch. -/
inductive WatchCall where
  | start
  | stop
  | reset
  | restart
  deriving DecidableEq

namespace Watch

variable {R : Type}

/-- `start()`. -/
def start (w : Watch R) (now : R) : Watch R := { w with startTs := now, isRunning := true }

/-- `stop()`. -/
def stop (w : Watch R) (now : R) : Watch R := { w with stopTs := now, isRunning := false }

/-- A watch whose fields have their initial values. -/
def zero [Zero R] : Watch R := ⟨0, 0, false⟩

/-- One call, when the clock says `now`. -/
def does [Zero R] (w : Watch R) (e : R × WatchCall) : Watch R :=
  match e.2 with
  | .start => w.start e.1
  | .stop => w.stop e.1
  | .reset => zero
  | .restart => w.start e.1

/-- `elapsedNanoseconds`, `ns` being the nanoseconds of a timestamp. -/
def elapsed (w : Watch R) (ns : R → U64) (now : R) : U64 :=
  ns (if w.isRunning = true then now else w.stopTs) - ns w.startTs

/-- After some calls. -/
def after [Zero R] (w : Watch R) (calls : List (R × WatchCall)) : Watch R := calls.foldl does w

end Watch

/-- `Stopwatch`'s constructor. -/
def newStopwatch (now : U64) : Watch U64 := Watch.zero.start now

/-- `StopwatchRUsage::Timestamp`. -/
structure Timestamp where
  userNs : U64
  sysNs : U64

instance : Zero Timestamp := ⟨⟨0, 0⟩⟩

/-- `Timestamp::nanoseconds`. -/
def Timestamp.nanoseconds (countUser countSys : Bool) (ts : Timestamp) : U64 :=
  (if countUser = true then ts.userNs else 0) + (if countSys = true then ts.sysNs else 0)

/-- `StopwatchRUsage`'s constructor, which does not start it. -/
def newStopwatchRUsage : Watch Timestamp := .zero

/-! ### What they show -/

section Elapsed

variable {R : Type} [Zero R] {ns : R → U64}

/-- The clock does not go back. -/
def Timely (ns : R → U64) (times : List R) : Prop :=
  times.Pairwise fun a b => (ns a).toNat ≤ (ns b).toNat

/-- The time of the last start since the last reset, or zero. -/
def startOf : List (R × WatchCall) → R
  | [] => 0
  | (r, .start) :: _ => r
  | (r, .restart) :: _ => r
  | (_, .reset) :: _ => 0
  | (_, .stop) :: earlier => startOf earlier

/-- The time of the last stop, if nothing was called after it; now, if the watch was started; zero,
if it was reset. -/
def stopOf (now : R) : List (R × WatchCall) → R
  | [] => 0
  | (r, .stop) :: _ => r
  | (_, .reset) :: _ => 0
  | (_, .start) :: _ => now
  | (_, .restart) :: _ => now

theorem after_concat (w : Watch R) (calls : List (R × WatchCall)) (e : R × WatchCall) :
    w.after (calls ++ [e]) = (w.after calls).does e := List.foldl_append

theorem startTs_after (calls : List (R × WatchCall)) :
    (Watch.zero.after calls).startTs = startOf calls.reverse := by
  induction calls using List.reverseRecOn with
  | nil => rfl
  | append_singleton calls e ih =>
    rw [after_concat, List.reverse_append]
    obtain ⟨r, c⟩ := e
    cases c with
    | stop => exact ih
    | _ => rfl

/-- The time that counts. -/
theorem elapsed_after (ns : R → U64) (calls : List (R × WatchCall)) (now : R) :
    (Watch.zero.after calls).elapsed ns now = ns (stopOf now calls.reverse) -
      ns (startOf calls.reverse) := by
  rw [Watch.elapsed, startTs_after]
  rcases List.eq_nil_or_concat' calls with rfl | ⟨calls, ⟨r, c⟩, rfl⟩
  · rfl
  · rw [after_concat, List.reverse_append]
    cases c with
    | _ => rfl

/-- The last start is not later than what was called after it. -/
theorem startOf_le (h0 : ns 0 = 0) {calls : List (R × WatchCall)} {r : R}
    (h : ∀ e ∈ calls, (ns e.1).toNat ≤ (ns r).toNat) :
    (ns (startOf calls)).toNat ≤ (ns r).toNat := by
  have hzero : (ns 0).toNat ≤ (ns r).toNat := by
    rw [h0]
    exact Nat.zero_le _
  induction calls with
  | nil => exact hzero
  | cons e calls ih =>
    obtain ⟨t, c⟩ := e
    cases c with
    | start => exact h _ List.mem_cons_self
    | restart => exact h _ List.mem_cons_self
    | reset => exact hzero
    | stop => exact ih fun e he => h e (List.mem_cons_of_mem _ he)

/-- With a clock that does not go back the last start is not later than the time at which the watch
stands. -/
theorem startOf_le_stopOf (h0 : ns 0 = 0) (calls : List (R × WatchCall)) {now : R}
    (htime : Timely ns (calls.map Prod.fst ++ [now])) :
    (ns (startOf calls.reverse)).toNat ≤ (ns (stopOf now calls.reverse)).toNat := by
  have hzero : ∀ r, (ns 0).toNat ≤ (ns r).toNat := fun r => by
    rw [h0]
    exact Nat.zero_le _
  rcases List.eq_nil_or_concat' calls with rfl | ⟨calls, ⟨r, c⟩, rfl⟩
  · exact le_rfl
  · rw [Timely, List.map_append, List.pairwise_append, List.pairwise_append] at htime
    obtain ⟨⟨-, -, hlast⟩, -, hnow⟩ := htime
    have hr : (ns r).toNat ≤ (ns now).toNat :=
      hnow r (List.mem_append_right _ List.mem_cons_self) now List.mem_cons_self
    have hle : ∀ e ∈ calls.reverse, (ns e.1).toNat ≤ (ns r).toNat := fun e he =>
      hlast e.1 (List.mem_map_of_mem (List.mem_reverse.mp he)) r List.mem_cons_self
    rw [List.reverse_append]
    cases c with
    | start => exact hr
    | restart => exact hr
    | reset => exact le_rfl
    | stop =>
      have hstart := startOf_le h0 hle
      exact hstart

theorem toNat_sub_of_le {a b : U64} (h : b.toNat ≤ a.toNat) : (a - b).toNat = a.toNat - b.toNat :=
  BitVec.toNat_sub_of_le (BitVec.le_def.mpr h)

/-- **What a watch shows**, after any calls, with a clock that does not go back: the time from the
last start to where the watch stands, and it does not wrap around. -/
theorem elapsed_counts :
    (∀ (made now : U64) (calls : List (U64 × WatchCall)),
      Timely id (made :: (calls.map Prod.fst ++ [now])) →
        (((newStopwatch made).after calls).elapsed id now).toNat =
          (stopOf now ((made, .start) :: calls).reverse).toNat -
            (startOf ((made, .start) :: calls).reverse).toNat ∧
        (startOf ((made, .start) :: calls).reverse).toNat ≤
          (stopOf now ((made, .start) :: calls).reverse).toNat) ∧
      ∀ (countUser countSys : Bool) (now : Timestamp) (calls : List (Timestamp × WatchCall)),
        Timely (Timestamp.nanoseconds countUser countSys) (calls.map Prod.fst ++ [now]) →
          ((newStopwatchRUsage.after calls).elapsed
              (Timestamp.nanoseconds countUser countSys) now).toNat =
            ((stopOf now calls.reverse).nanoseconds countUser countSys).toNat -
              ((startOf calls.reverse).nanoseconds countUser countSys).toNat ∧
          ((startOf calls.reverse).nanoseconds countUser countSys).toNat ≤
            ((stopOf now calls.reverse).nanoseconds countUser countSys).toNat := by
  constructor
  · intro made now calls htime
    have h0 : (id : U64 → U64) 0 = 0 := rfl
    have hle := startOf_le_stopOf h0 ((made, .start) :: calls) htime
    have hshown : ((newStopwatch made).after calls).elapsed id now = _ :=
      elapsed_after id ((made, .start) :: calls) now
    rw [hshown]
    exact ⟨toNat_sub_of_le hle, hle⟩
  · intro countUser countSys now calls htime
    have h0 : Timestamp.nanoseconds countUser countSys 0 = 0 := by
      show (if countUser = true then (0 : U64) else 0) + (if countSys = true then 0 else 0) = 0
      rw [ite_self, ite_self, add_zero]
    have hle := startOf_le_stopOf h0 calls htime
    have hshown : (newStopwatchRUsage.after calls).elapsed _ now = _ :=
      elapsed_after (Timestamp.nanoseconds countUser countSys) calls now
    rw [hshown]
    exact ⟨toNat_sub_of_le hle, hle⟩

/-- Made at one, started at five, stopped at nine and looked at at twenty. -/
theorem elapsed_counts_nine :
    (((newStopwatch 1).after [(5, .start), (7, .stop), (9, .stop)]).elapsed id 20).toNat = 4 :=
  (elapsed_counts.1 1 20 [(5, .start), (7, .stop), (9, .stop)] (by unfold Timely; decide)).1

end Elapsed

/-! ### Guards -/

section Guards

variable {R : Type} [Zero R] {ns : R → U64} {made : R → Watch R}

/-- The counter, and the guards that refer to it. -/
structure Guards (R : Type) where
  elapsedNs : U64
  guards : List (Watch R)

/-- A guard comes into being, is used or goes. -/
inductive GuardAct (R : Type) where
  | make (now : R)
  | use (k : ℕ) (e : R × WatchCall)
  | destroy (k : ℕ) (now : R)

/-- One step, `made` being the constructor of the watches. -/
def Guards.step (made : R → Watch R) (ns : R → U64) (s : Guards R) : GuardAct R → Option (Guards R)
  | .make now => some { s with guards := s.guards ++ [made now] }
  | .use k e => s.guards[k]?.map fun w => { s with guards := s.guards.set k (w.does e) }
  | .destroy k now =>
    s.guards[k]?.map fun w => ⟨s.elapsedNs + w.elapsed ns now, s.guards.eraseIdx k⟩

/-- Guards that nobody uses. -/
def GuardAct.Unused : GuardAct R → Prop
  | .use _ _ => False
  | _ => True

/-- What an act does to a sum of times. -/
def GuardAct.share (ns : R → U64) : GuardAct R → U64
  | .make now => -ns now
  | .use _ _ => 0
  | .destroy _ now => ns now

theorem sum_eraseIdx {x : U64} {xs : List U64} {k : ℕ} (h : xs[k]? = some x) :
    (xs.eraseIdx k).sum = xs.sum - x := by
  induction xs generalizing k with
  | nil => cases h
  | cons y ys ih =>
    cases k with
    | zero =>
      obtain rfl := Option.some.inj h
      rw [List.eraseIdx_cons_zero, List.sum_cons, add_comm, add_sub_cancel_right]
    | succ k =>
      have h : ys[k]? = some x := h
      rw [List.eraseIdx_cons_succ, List.sum_cons, ih h, List.sum_cons, add_sub_assoc]

/-- Guards of running watches. -/
theorem guards_run (hrun : ∀ now, made now = ⟨now, 0, true⟩) {s s' : Guards R}
    {acts : List (GuardAct R)} (hunused : ∀ a ∈ acts, a.Unused)
    (hs : exec (Guards.step made ns) s acts = some s') (hall : ∀ w ∈ s.guards, w.isRunning = true) :
    s'.elapsedNs - (s'.guards.map fun w => ns w.startTs).sum =
      s.elapsedNs - (s.guards.map fun w => ns w.startTs).sum + (acts.map (·.share ns)).sum := by
  induction acts generalizing s with
  | nil =>
    obtain rfl := Option.some.inj hs
    rw [List.map_nil, List.sum_nil, add_zero]
  | cons a acts ih =>
    obtain ⟨s₁, h₁, h₂⟩ := Option.bind_eq_some_iff.mp hs
    have hunused' : ∀ a ∈ acts, a.Unused := fun b hb => hunused b (List.mem_cons_of_mem a hb)
    rw [List.map_cons, List.sum_cons, ← add_assoc]
    cases a with
    | use k e => exact (hunused _ List.mem_cons_self).elim
    | make now =>
      obtain rfl := Option.some.inj h₁
      rw [ih hunused' h₂]
      · rw [List.map_append, List.sum_append, hrun]
        show s.elapsedNs - (_ + (ns now + 0)) + _ = _ + -ns now + _
        rw [add_zero, sub_add_eq_sub_sub, ← sub_eq_add_neg]
      · intro w hw
        rcases List.mem_append.mp hw with hw | hw
        · exact hall w hw
        · rw [List.mem_singleton.mp hw, hrun]
    | destroy k now =>
      obtain ⟨w, hw, rfl⟩ := Option.map_eq_some_iff.mp h₁
      have hwr := hall w (List.mem_of_getElem? hw)
      have hw' : (s.guards.map fun w => ns w.startTs)[k]? = some (ns w.startTs) := by
        rw [List.getElem?_map, hw]; rfl
      rw [ih hunused' h₂ fun v hv => hall v (List.mem_of_mem_eraseIdx hv)]
      have hshown : w.elapsed ns now = ns now - ns w.startTs := by rw [Watch.elapsed, if_pos hwr]
      rw [← List.eraseIdx_map, sum_eraseIdx hw', hshown]
      show s.elapsedNs + (ns now - ns w.startTs) - (_ - ns w.startTs) + _ =
          s.elapsedNs - _ + ns now + _
      abel

/-- Guards of watches that show nothing. -/
theorem guards_rest (hrest : ∀ now, made now = .zero) {s s' : Guards R} {acts : List (GuardAct R)}
    (hunused : ∀ a ∈ acts, a.Unused) (hs : exec (Guards.step made ns) s acts = some s')
    (hall : ∀ w ∈ s.guards, w = .zero) :
    s'.elapsedNs = s.elapsedNs := by
  induction acts generalizing s with
  | nil =>
    obtain rfl := Option.some.inj hs
    rfl
  | cons a acts ih =>
    obtain ⟨s₁, h₁, h₂⟩ := Option.bind_eq_some_iff.mp hs
    have hunused' : ∀ a ∈ acts, a.Unused := fun b hb => hunused b (List.mem_cons_of_mem a hb)
    cases a with
    | use k e => exact (hunused _ List.mem_cons_self).elim
    | make now =>
      obtain rfl := Option.some.inj h₁
      rw [ih hunused' h₂]
      intro w hw
      rcases List.mem_append.mp hw with hw | hw
      · exact hall w hw
      · rw [List.mem_singleton.mp hw, hrest]
    | destroy k now =>
      obtain ⟨w, hw, rfl⟩ := Option.map_eq_some_iff.mp h₁
      have hzero := hall w (List.mem_of_getElem? hw)
      rw [ih hunused' h₂ fun v hv => hall v (List.mem_of_mem_eraseIdx hv), hzero]
      show s.elapsedNs + (ns 0 - ns 0) = s.elapsedNs
      rw [sub_self, add_zero]

/-- **What guards leave in their counter**, nested or overlapping as they may be, when nobody uses
them and all have gone: with a `Stopwatch` the times at which they went less the times at which they
came; with a `StopwatchRUsage`, which nobody starts, nothing. -/
theorem guards_add {e : U64} :
    (∀ acts s, (∀ a ∈ acts, a.Unused) → exec (Guards.step newStopwatch id) ⟨e, []⟩ acts = some s →
      s.guards = [] →
      s.elapsedNs = e + (acts.map (·.share id)).sum) ∧
    ∀ acts s, (∀ a ∈ acts, a.Unused) →
      exec (Guards.step (fun _ => newStopwatchRUsage) (Timestamp.nanoseconds true true))
        ⟨e, []⟩ acts = some s →
        s.elapsedNs = e := by
  refine ⟨fun acts s hunused hs hnone => ?_, fun acts s hunused hs => ?_⟩
  · have := guards_run (fun _ => rfl) hunused hs (by simp)
    rw [hnone] at this
    simpa using this
  · exact guards_rest (fun _ => rfl) hunused hs (by simp)

/-- One guard inside another. -/
def nested : List (GuardAct U64) := [.make 3, .make 5, .destroy 1 9, .destroy 0 10]

theorem guards_add_nested : ∃ s, exec (Guards.step newStopwatch id) ⟨0, []⟩ nested = some s ∧
    s.elapsedNs = 0 + (nested.map (·.share id)).sum :=
  ⟨_, rfl, guards_add.1 nested _ (by simp [nested, GuardAct.Unused]) rfl rfl⟩

end Guards

/-! ### The atomic stopwatch -/

section Atomic

variable {s : State}

/-- `AtomicStopwatch::elapsed`, when the clock says `now`. -/
def State.elapsed (s : State) (now : U64) : U64 := nanoseconds now - s.startNs

end Atomic

end NetworkDemo.StopWatch
