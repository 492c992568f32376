import NetworkDemo.Gang.Ranges
import Mathlib.Data.Nat.ModEq

/-!
# The tasks of a submit

`TasksImpl::run(id)` calls `f` on the indices of range `id`. With work stealing a worker
takes chunks off the front of its range by a fetch-and-add, and when the range is used
up goes on to those of the others.

## The model

One step of a worker is one fetch-and-add, one call of `f`, or one test that ends a
loop. The upper ends of the ranges never change, so the state keeps only the lower
ends, where every worker is, and a log of the calls of `f`. Each worker runs
`TasksImpl::run` once.

A worker that finds a range used up has still added to its lower end. Nothing goes
wrong with that while the lower ends cannot wrap (`TasksImpl.Fits`), each worker doing
so at most once to each range.

* `TasksInv` — every index given out is either logged or still owed by the worker
  that took it.
* `submit_every_index_once` — when all workers have finished, `f` has been called exactly
  once for each index; and they do finish, after at most `TasksImpl.work` steps.
-/

namespace NetworkDemo.Gang

open Foundations

/-! ### Running -/

/-- `TasksImpl`, but for `f`. -/
structure TasksImpl where
  ranges : List Range
  chunkSize : SizeT
  worksteal : Bool

/-- Where a worker is in `run(id)`. -/
inductive WorkPc where
  /-- `if (worksteal)`. -/
  | enter
  /-- `work(t_i)` of the range at `off` from its own: the fetch-and-add. -/
  | fetch (off : ℕ)
  /-- In the loop over a chunk of that range, at `i`. -/
  | chunk (off : ℕ) (i stop : SizeT)
  /-- In the loop over its own range, at `i`. -/
  | plain (i : SizeT)
  /-- Out of `run`. -/
  | finished
  deriving DecidableEq

/-- A run of the tasks. -/
structure TasksState where
  /-- The lower ends of the ranges. -/
  b : ℕ → SizeT
  /-- The workers. -/
  worker : ℕ → WorkPc
  /-- The calls of `f`. -/
  log : List SizeT

namespace TasksImpl

variable (T : TasksImpl)

/-- How many ranges, and workers, there are. -/
def size : ℕ := T.ranges.length

/-- `ranges[t]`. -/
def range (t : ℕ) : Range := T.ranges.getD t default

/-- The range worker `id` works on at `off`. -/
def victim (id off : ℕ) : ℕ := if off = 0 then id else (id + off) % T.size

/-- `work(t_i)` is over. -/
def nextVictim (off : ℕ) : WorkPc := if off + 1 < T.size then .fetch (off + 1) else .finished

/-- Nothing done yet. -/
def start : TasksState := ⟨fun t => (T.range t).b, fun _ => .enter, []⟩

end TasksImpl

/-- Worker `t` moves to `x`. -/
def TasksState.goto (s : TasksState) (t : ℕ) (x : WorkPc) : TasksState :=
  { s with worker := Function.update s.worker t x }

/-- **One step** of worker `id`. -/
def TasksImpl.workerStep (T : TasksImpl) (s : TasksState) (id : ℕ) : Option TasksState :=
  match s.worker id with
  | .enter => some (s.goto id (if T.worksteal then .fetch 0 else .plain (s.b id)))
  | .fetch off =>
    let v := T.victim id off
    let bi := s.b v
    let stop := if (T.range v).e < bi + T.chunkSize then (T.range v).e else bi + T.chunkSize
    some { s.goto id (if (T.range v).e ≤ bi then T.nextVictim off else .chunk off bi stop) with
      b := Function.update s.b v (bi + T.chunkSize) }
  | .chunk off i stop =>
    if i < stop then some { s.goto id (.chunk off (i + 1) stop) with log := s.log ++ [i] }
    else some (s.goto id (.fetch off))
  | .plain i =>
    if i < (T.range id).e then some { s.goto id (.plain (i + 1)) with log := s.log ++ [i] }
    else some (s.goto id .finished)
  | .finished => none

/-- A step of one of the workers. -/
def TasksImpl.step (T : TasksImpl) (s : TasksState) (t : ℕ) : Option TasksState :=
  if t < T.size then T.workerStep s t else none

/-- The workers running the tasks. -/
def TasksImpl.system (T : TasksImpl) : Lts TasksState ℕ where
  init s := s = T.start
  step s t s' := T.step s t = some s'

/-! ### The invariant -/

/-- With how many ranges a worker is through. -/
def WorkPc.visits (size : ℕ) : WorkPc → ℕ
  | .fetch off | .chunk off _ _ => off
  | .finished => size
  | _ => 0

namespace TasksImpl

variable (T : TasksImpl)

/-- The lower ends cannot wrap. -/
structure Fits : Prop where
  chunk_pos : 0 < T.chunkSize.toNat
  ordered : ∀ v < T.size, (T.range v).b.toNat ≤ (T.range v).e.toNat
  room : ∀ v < T.size, (T.range v).e.toNat + (T.size + 1) * T.chunkSize.toNat < 2 ^ 64

/-- Worker `t` is through with range `v`. -/
def past (v t : ℕ) (x : WorkPc) : Bool :=
  (List.range (x.visits T.size)).any fun off => T.victim t off == v

/-- Worker `t` is still to call `f` on `y`. -/
def owes (y : SizeT) (t : ℕ) : WorkPc → Bool
  | .enter => !T.worksteal && decide ((T.range t).b ≤ y ∧ y < (T.range t).e)
  | .chunk _ i stop => decide (i ≤ y ∧ y < stop)
  | .plain i => decide (i ≤ y ∧ y < (T.range t).e)
  | _ => false

/-- How many workers are through with range `v`. -/
def passedBy (s : TasksState) (v : ℕ) : ℕ :=
  countThreads (Finset.range T.size) id fun t => T.past v t (s.worker t)

/-- How many workers are still to call `f` on `y`. -/
def owed (s : TasksState) (y : SizeT) : ℕ :=
  countThreads (Finset.range T.size) id fun t => T.owes y t (s.worker t)

/-- How far range `v` has been given out. -/
def givenTo (b : ℕ → SizeT) (v : ℕ) : SizeT :=
  if T.worksteal = true ∧ b v < (T.range v).e then b v else (T.range v).e

/-- In how many ranges `y` is and has been given out. -/
def given (b : ℕ → SizeT) (y : SizeT) : ℕ :=
  countThreads (Finset.range T.size) id fun v => decide ((T.range v).b ≤ y ∧ y < T.givenTo b v)

/-- Where a worker can be. -/
def PcOk : WorkPc → Prop
  | .fetch off | .chunk off _ _ => T.worksteal = true ∧ off < T.size
  | .plain _ => T.worksteal = false
  | _ => True

end TasksImpl

/-- **The invariant.** -/
structure TasksInv (T : TasksImpl) (s : TasksState) : Prop where
  workers : ∀ t < T.size, T.PcOk (s.worker t)
  /-- Without stealing the lower ends do not change. -/
  fixed : T.worksteal = false → s.b = fun v => (T.range v).b
  low : ∀ v < T.size, (T.range v).b ≤ s.b v
  /-- A lower end is past the upper by a chunk for each worker through with the range, and less than
  one more. -/
  room : T.worksteal = true → ∀ v < T.size,
    (s.b v).toNat < (T.range v).e.toNat + (T.passedBy s v + 1) * T.chunkSize.toNat
  /-- Nobody is through with a range that is not used up. -/
  used : T.worksteal = true → ∀ v < T.size, ∀ t < T.size, T.past v t (s.worker t) = true →
    (T.range v).e ≤ s.b v
  /-- An index is given out as often as it has been logged or is still owed. -/
  count : ∀ y, s.log.count y + T.owed s y = T.given s.b y

section Victim

variable {T : TasksImpl} {t v off : ℕ}

theorem TasksImpl.victim_eq (ht : t < T.size) (off : ℕ) : T.victim t off = (t + off) % T.size := by
  unfold victim
  split_ifs with h
  · rw [h, Nat.add_zero, Nat.mod_eq_of_lt ht]
  · rfl

theorem TasksImpl.victim_lt (ht : t < T.size) (off : ℕ) : T.victim t off < T.size := by
  rw [victim_eq ht]
  exact Nat.mod_lt _ (by omega)

/-- A worker comes to no range twice. -/
theorem TasksImpl.victim_inj (ht : t < T.size) {o o' : ℕ} (ho : o < T.size) (ho' : o' < T.size)
    (h : T.victim t o = T.victim t o') : o = o' := by
  rw [victim_eq ht, victim_eq ht] at h
  have h2 : Nat.ModEq T.size o o' := Nat.ModEq.add_left_cancel' t h
  rwa [Nat.ModEq, Nat.mod_eq_of_lt ho, Nat.mod_eq_of_lt ho'] at h2

/-- A worker comes to every range. -/
theorem TasksImpl.victim_surj (ht : t < T.size) (hv : v < T.size) :
    ∃ o < T.size, T.victim t o = v := by
  refine ⟨(v + T.size - t) % T.size, Nat.mod_lt _ (by omega), ?_⟩
  rw [victim_eq ht, Nat.add_mod_mod, show t + (v + T.size - t) = v + T.size by omega,
    Nat.add_mod_right, Nat.mod_eq_of_lt hv]

theorem TasksImpl.past_iff {x : WorkPc} :
    T.past v t x = true ↔ ∃ o < x.visits T.size, T.victim t o = v := by
  simp [past]

theorem TasksImpl.past_congr {x x' : WorkPc} (h : x'.visits T.size = x.visits T.size) (v t : ℕ) :
    T.past v t x' = T.past v t x := by
  unfold past
  rw [h]

theorem TasksImpl.visits_next (off : ℕ) (h : off < T.size) :
    (T.nextVictim off).visits T.size = off + 1 := by
  unfold nextVictim
  split_ifs
  · rfl
  · show T.size = off + 1
    omega

/-- Going on from a range, the worker is through with that one more. -/
theorem TasksImpl.past_next (h : off < T.size) :
    T.past v t (T.nextVictim off) = true ↔ T.past v t (.fetch off) = true ∨ T.victim t off = v := by
  rw [past_iff, past_iff, visits_next off h]
  show (∃ o < off + 1, _) ↔ (∃ o < off, _) ∨ _
  constructor
  · rintro ⟨o, ho, hv⟩
    rcases Nat.lt_succ_iff_lt_or_eq.mp ho with hlt | rfl
    · exact .inl ⟨o, hlt, hv⟩
    · exact .inr hv
  · rintro (⟨o, ho, hv⟩ | hv)
    · exact ⟨o, by omega, hv⟩
    · exact ⟨off, by omega, hv⟩

theorem TasksImpl.not_past_victim (ht : t < T.size) (h : off < T.size) :
    T.past (T.victim t off) t (.fetch off) = false := by
  by_contra hp
  obtain ⟨o, ho, hv⟩ := past_iff.mp (by simpa using hp)
  have ho' : o < off := ho
  have := victim_inj ht (by omega) h hv
  omega

end Victim

section Step

variable {T : TasksImpl} {s s' : TasksState} {t : ℕ} {x : WorkPc}

theorem tasksInv_start (hT : T.Fits) : TasksInv T T.start where
  workers _ _ := trivial
  fixed _ := rfl
  low _ _ := BitVec.le_refl _
  room _ v hv := by
    have := hT.ordered v hv
    have := hT.chunk_pos
    have : T.chunkSize.toNat ≤ (T.passedBy T.start v + 1) * T.chunkSize.toNat :=
      Nat.le_mul_of_pos_left _ (by omega)
    show (T.range v).b.toNat < _
    omega
  used _ v _ t _ hp := by
    obtain ⟨o, ho, -⟩ := TasksImpl.past_iff.mp hp
    exact absurd ho (Nat.not_lt_zero o)
  count y := by
    show List.count y [] + _ = _
    rw [List.count_nil, Nat.zero_add]
    refine countThreads_congr fun t _ => ?_
    show (!T.worksteal && decide _) = decide ((T.range t).b ≤ y ∧
        y < T.givenTo (fun t => (T.range t).b) t)
    unfold TasksImpl.givenTo
    by_cases hw : T.worksteal = true
    · -- nothing is given out, since the lower ends are where they were
      simp only [hw, Bool.not_true, Bool.false_and, true_and]
      rw [eq_comm, decide_eq_false_iff_not]
      split_ifs <;> bv_omega
    · rw [if_neg fun h => hw h.1, Bool.not_eq_true _ |>.mp hw]
      rfl

/-- A worker moves and may call `f`; the lower ends stay. -/
theorem TasksInv.moved (h : TasksInv T s) (log : List SizeT) (hok : T.PcOk x)
    (hvis : T.worksteal = true → x.visits T.size = (s.worker t).visits T.size)
    (hcount : ∀ y, log.count y + T.owed (s.goto t x) y = s.log.count y + T.owed s y) :
    TasksInv T { s.goto t x with log := log } := by
  have hpast : T.worksteal = true → ∀ v u, T.past v u (Function.update s.worker t x u) =
      T.past v u (s.worker u) :=
    fun hw v u => by
      by_cases hu : u = t
      · rw [hu, Function.update_self]
        exact TasksImpl.past_congr (hvis hw) v t
      · rw [Function.update_of_ne hu]
  refine
    { workers := fun u hu => ?_
      fixed := h.fixed
      low := h.low
      room := fun hw v hv => ?_
      used := fun hw v hv u hu hp => h.used hw v hv u hu ((hpast hw v u).symm.trans hp)
      count := fun y => (hcount y).trans (h.count y) }
  · show T.PcOk (Function.update s.worker t x u)
    by_cases hut : u = t
    · rw [hut, Function.update_self]
      exact hok
    · rw [Function.update_of_ne hut]
      exact h.workers u hu
  · have : T.passedBy (s.goto t x) v = T.passedBy s v := countThreads_congr fun u _ => hpast hw v u
    show (s.b v).toNat < _ + (T.passedBy (s.goto t x) v + 1) * _
    rw [this]
    exact h.room hw v hv

/-- What is owed when a worker moves and owes the same. -/
theorem owed_goto (hx : ∀ y, T.owes y t x = T.owes y t (s.worker t)) (y : SizeT) :
    T.owed (s.goto t x) y = T.owed s y :=
  countThreads_congr fun u _ => by
    show T.owes y u (Function.update s.worker t x u) = T.owes y u (s.worker u)
    by_cases hut : u = t
    · rw [hut, Function.update_self, hx]
    · rw [Function.update_of_ne hut]

/-- A worker calls `f` on `i`. -/
theorem count_call {i : SizeT} (ht : t < T.size) (hi : T.owes i t (s.worker t) = true)
    (hx : T.owes i t x = false) (hne : ∀ y, y ≠ i → T.owes y t x = T.owes y t (s.worker t))
    (y : SizeT) :
    (s.log ++ [i]).count y + T.owed (s.goto t x) y = s.log.count y + T.owed s y := by
  have hother : ∀ u, u ≠ t → (s.goto t x).worker u = s.worker u :=
    fun u hu => Function.update_of_ne hu _ _
  have hself : (s.goto t x).worker t = x := Function.update_self ..
  rw [List.count_append, List.count_singleton]
  by_cases hy : y = i
  · subst hy
    have : T.owed s y = T.owed (s.goto t x) y + 1 :=
      countThreads_gain (Finset.mem_range.mpr ht) (by rw [hself]; exact hx) hi fun u hu =>
        by rw [hother u hu]
    rw [if_pos (by simp)]
    omega
  · have : T.owed (s.goto t x) y = T.owed s y := countThreads_congr fun u _ => by
      by_cases hut : u = t
      · rw [hut, hself]
        exact hne y hy
      · rw [hother u hut]
    rw [if_neg (by simpa using Ne.symm hy), this]
    omega

/-- A worker that is not through with a range finds room in it for its fetch-and-add. -/
theorem TasksInv.has_room (h : TasksInv T s) (ht : t < T.size) {off : ℕ}
    (hpc : s.worker t = .fetch off) :
    (s.b (T.victim t off)).toNat + T.chunkSize.toNat <
      (T.range (T.victim t off)).e.toNat + (T.size + 1) * T.chunkSize.toNat := by
  have hok := h.workers t ht
  rw [hpc] at hok
  have hlt : T.passedBy s (T.victim t off) < T.size := by
    have := countThreads_lt (p := id) (f := fun u => T.past (T.victim t off) u (s.worker u))
      (Finset.mem_range.mpr ht)
      (by simp only [hpc]; exact TasksImpl.not_past_victim ht hok.2)
    rwa [Finset.card_range] at this
  have hroom := h.room hok.1 _ (TasksImpl.victim_lt ht off)
  have hmul : (T.passedBy s (T.victim t off) + 1) * T.chunkSize.toNat ≤
      T.size * T.chunkSize.toNat :=
    Nat.mul_le_mul_right _ hlt
  rw [Nat.add_mul T.size, Nat.one_mul]
  omega

/-- So the fetch-and-add does not wrap. -/
theorem TasksInv.no_wrap (h : TasksInv T s) (hT : T.Fits) (ht : t < T.size) {off : ℕ}
    (hpc : s.worker t = .fetch off) :
    (s.b (T.victim t off) + T.chunkSize).toNat = (s.b (T.victim t off)).toNat +
      T.chunkSize.toNat := by
  have hroom := h.has_room ht hpc
  have hfit := hT.room _ (TasksImpl.victim_lt ht off)
  rw [BitVec.toNat_add]
  exact Nat.mod_eq_of_lt (by omega)

theorem TasksImpl.owes_next {off : ℕ} (y : SizeT) : T.owes y t (T.nextVictim off) = false := by
  unfold nextVictim
  split_ifs <;> rfl

theorem TasksImpl.pcOk_next {off : ℕ} (hw : T.worksteal = true) : T.PcOk (T.nextVictim off) := by
  unfold nextVictim
  split_ifs with h
  · exact ⟨hw, h⟩
  · trivial

/-- The worker at the fetch-and-add of a range makes it and moves. -/
theorem TasksInv.fetched (h : TasksInv T s) (hT : T.Fits) (ht : t < T.size) {off v : ℕ}
    (hpc : s.worker t = .fetch off) (hv : T.victim t off = v) (hok : T.PcOk x)
    (hsame : ∀ w, w ≠ v → T.past w t x = T.past w t (.fetch off))
    (hused : T.past v t x = true → (T.range v).e ≤ s.b v)
    (hroom : (s.b v + T.chunkSize).toNat < (T.range v).e.toNat + (T.passedBy (s.goto t x) v + 1) *
      T.chunkSize.toNat)
    (hcount : ∀ y, s.log.count y + T.owed (s.goto t x) y =
      T.given (Function.update s.b v (s.b v + T.chunkSize)) y) :
    TasksInv T { s.goto t x with b := Function.update s.b v (s.b v + T.chunkSize) } := by
  have hw : T.worksteal = true := by
    have := h.workers t ht
    rw [hpc] at this
    exact this.1
  have hadd := h.no_wrap hT ht hpc
  rw [hv] at hadd
  have hother : ∀ u, u ≠ t → Function.update s.worker t x u = s.worker u :=
    fun u hu => Function.update_of_ne hu _ _
  have hself : Function.update s.worker t x t = x := Function.update_self ..
  have hb : ∀ w, s.b w ≤ Function.update s.b v (s.b v + T.chunkSize) w := fun w => by
    by_cases hwv : w = v
    · rw [hwv, Function.update_self, BitVec.le_def]
      omega
    · rw [Function.update_of_ne hwv]
      exact BitVec.le_refl _
  have hpast : ∀ w u, u ≠ t ∨ w ≠ v → T.past w u (Function.update s.worker t x u) =
      T.past w u (s.worker u) :=
    fun w u huw => by
      by_cases hut : u = t
      · rw [hut, hself, hpc]
        exact hsame w (huw.resolve_left fun h => h hut)
      · rw [hother u hut]
  refine
    { workers := fun u hu => ?_
      fixed := fun hf => absurd (hw.symm.trans hf) (by decide)
      low := fun w hlt => BitVec.le_trans (h.low w hlt) (hb w)
      room := fun _ w hlt => ?_
      used := fun _ w hlt u hu hp => BitVec.le_trans ?_ (hb w)
      count := hcount }
  · show T.PcOk (Function.update s.worker t x u)
    by_cases hut : u = t
    · rw [hut, hself]
      exact hok
    · rw [hother u hut]
      exact h.workers u hu
  · show (Function.update s.b v (s.b v + T.chunkSize) w).toNat <
        _ + (T.passedBy (s.goto t x) w + 1) * _
    by_cases hwv : w = v
    · rw [hwv, Function.update_self]
      exact hroom
    · have : T.passedBy (s.goto t x) w = T.passedBy s w :=
        countThreads_congr fun u _ => hpast w u (.inr hwv)
      rw [Function.update_of_ne hwv, this]
      exact h.room hw w hlt
  · by_cases huw : u = t ∧ w = v
    · obtain ⟨rfl, rfl⟩ := huw
      exact hused (hself ▸ hp)
    · exact h.used hw w hlt u hu ((hpast w u (not_and_or.mp huw)).symm.trans hp)

/-- A worker finds a range used up. -/
theorem TasksInv.fetch_used (h : TasksInv T s) (hT : T.Fits) (ht : t < T.size) {off v : ℕ}
    (hpc : s.worker t = .fetch off) (hv : T.victim t off = v) (he : (T.range v).e ≤ s.b v) :
    TasksInv T
      { s.goto t (T.nextVictim off) with b := Function.update s.b v (s.b v + T.chunkSize) } := by
  obtain ⟨hw, hoff⟩ : T.worksteal = true ∧ off < T.size := by
    have := h.workers t ht
    rwa [hpc] at this
  have hvs : v < T.size := hv ▸ TasksImpl.victim_lt ht off
  have hadd := h.no_wrap hT ht hpc
  rw [hv] at hadd
  refine h.fetched hT ht hpc hv (TasksImpl.pcOk_next hw) (fun w hwv => ?_)
    (fun _ => he) ?_ fun y => ?_
  · rw [Bool.eq_iff_iff, TasksImpl.past_next hoff, hv]
    exact or_iff_left fun h1 => hwv h1.symm
  · -- one more worker is through with the range
    have hgain : T.passedBy (s.goto t (T.nextVictim off)) v = T.passedBy s v + 1 := by
      refine countThreads_gain (Finset.mem_range.mpr ht) ?_ ?_ fun u hu => ?_
      · rw [hpc, ← hv]
        exact TasksImpl.not_past_victim ht hoff
      · show T.past v t (Function.update s.worker t (T.nextVictim off) t) = true
        rw [Function.update_self]
        exact (TasksImpl.past_next hoff).mpr (.inr hv)
      · show T.past v u (Function.update s.worker t (T.nextVictim off) u) = T.past v u (s.worker u)
        rw [Function.update_of_ne hu]
    have hroom := h.room hw v hvs
    rw [hgain, hadd, Nat.add_mul _ 1, Nat.one_mul]
    omega
  · have howed : T.owed (s.goto t (T.nextVictim off)) y = T.owed s y := owed_goto (fun y => by
      rw [hpc, TasksImpl.owes_next]
      rfl) y
    have hto : ∀ w, T.givenTo (Function.update s.b v (s.b v + T.chunkSize)) w = T.givenTo s.b w :=
      fun w => by
      unfold TasksImpl.givenTo
      by_cases hwv : w = v
      · rw [hwv, Function.update_self, if_neg fun hc => ?_,
          if_neg fun hc => absurd he (BitVec.not_le.mpr hc.2)]
        have := hc.2
        rw [BitVec.lt_def] at this
        rw [BitVec.le_def] at he
        omega
      · rw [Function.update_of_ne hwv]
    have hgiven : T.given (Function.update s.b v (s.b v + T.chunkSize)) y = T.given s.b y := by
      unfold TasksImpl.given
      simp only [hto]
    rw [howed, hgiven]
    exact h.count y

/-- A worker takes a chunk. -/
theorem TasksInv.fetch_chunk (h : TasksInv T s) (hT : T.Fits) (ht : t < T.size) {off v : ℕ}
    (hpc : s.worker t = .fetch off) (hv : T.victim t off = v) (he : s.b v < (T.range v).e)
    {stop : SizeT}
    (hstop : stop = if (T.range v).e < s.b v + T.chunkSize then (T.range v).e
      else s.b v + T.chunkSize) :
    TasksInv T { s.goto t (.chunk off (s.b v) stop) with
      b := Function.update s.b v (s.b v + T.chunkSize) } := by
  have hwo : T.worksteal = true ∧ off < T.size := by
    have := h.workers t ht
    rwa [hpc] at this
  have hvs : v < T.size := hv ▸ TasksImpl.victim_lt ht off
  have hadd := h.no_wrap hT ht hpc
  rw [hv] at hadd
  have hpast : ∀ w, T.past w t (.chunk off (s.b v) stop) = T.past w t (.fetch off) :=
    fun w => TasksImpl.past_congr rfl w t
  refine h.fetched hT ht hpc hv hwo (fun w _ => hpast w) (fun hp => ?_) ?_ fun y => ?_
  · rw [hpast, ← hv, TasksImpl.not_past_victim ht hwo.2] at hp
    cases hp
  · rw [BitVec.lt_def] at he
    rw [hadd, Nat.add_mul, Nat.one_mul]
    omega
  · -- `y` is given out now if it is in the chunk, and else as before
    have hto : T.givenTo s.b v = s.b v := if_pos ⟨hwo.1, he⟩
    have hto' : T.givenTo (Function.update s.b v (s.b v + T.chunkSize)) v = stop := by
      unfold TasksImpl.givenTo
      rw [Function.update_self, hstop]
      by_cases h1 : s.b v + T.chunkSize < (T.range v).e
      · rw [if_pos ⟨hwo.1, h1⟩, if_neg fun h2 => absurd h2 (BitVec.not_lt.mpr (BitVec.le_of_lt h1))]
      · rw [if_neg fun hc => h1 hc.2]
        split_ifs with h2
        · rfl
        · exact BitVec.le_antisymm (BitVec.not_lt.mp h1) (BitVec.not_lt.mp h2)
    have hle : s.b v ≤ stop := by
      rw [hstop]
      split_ifs
      · exact BitVec.le_of_lt he
      · rw [BitVec.le_def]
        omega
    have hrest : ∀ w, w ≠ v → T.givenTo (Function.update s.b v (s.b v + T.chunkSize)) w =
        T.givenTo s.b w :=
      fun w hwv => by
        unfold TasksImpl.givenTo
        rw [Function.update_of_ne hwv]
    have hother : ∀ u, u ≠ t → (s.goto t (.chunk off (s.b v) stop)).worker u = s.worker u :=
      fun u hu => Function.update_of_ne hu _ _
    have hself : (s.goto t (.chunk off (s.b v) stop)).worker t = .chunk off (s.b v) stop :=
      Function.update_self ..
    have hlow := h.low v hvs
    have hcount := h.count y
    by_cases hy : s.b v ≤ y ∧ y < stop
    · have howed : T.owed (s.goto t (.chunk off (s.b v) stop)) y = T.owed s y + 1 := by
        refine countThreads_gain (Finset.mem_range.mpr ht) (by rw [hpc]; rfl) ?_ fun u hu =>
          by rw [hother u hu]
        rw [hself]
        exact decide_eq_true hy
      have hgiven : T.given (Function.update s.b v (s.b v + T.chunkSize)) y =
          T.given s.b y + 1 := by
        refine countThreads_gain (Finset.mem_range.mpr hvs) (decide_eq_false ?_) (decide_eq_true ?_)
          fun w hwv => ?_
        · rw [hto]
          exact fun hc => absurd hy.1 (BitVec.not_le.mpr hc.2)
        · rw [hto']
          exact ⟨BitVec.le_trans hlow hy.1, hy.2⟩
        · rw [hrest w hwv]
      omega
    · have howed : T.owed (s.goto t (.chunk off (s.b v) stop)) y = T.owed s y :=
        countThreads_congr fun u _ => by
        by_cases hut : u = t
        · rw [hut, hself, hpc]
          exact decide_eq_false hy
        · rw [hother u hut]
      have hgiven : T.given (Function.update s.b v (s.b v + T.chunkSize)) y = T.given s.b y := by
        refine countThreads_congr fun w _ => ?_
        by_cases hwv : w = v
        · subst hwv
          rw [hto, hto', id, id, decide_eq_decide]
          constructor <;> intro hc <;> bv_omega
        · rw [hrest w hwv]
      omega

theorem TasksInv.goto (h : TasksInv T s) (hok : T.PcOk x)
    (hvis : T.worksteal = true → x.visits T.size = (s.worker t).visits T.size)
    (hx : ∀ y, T.owes y t x = T.owes y t (s.worker t)) : TasksInv T (s.goto t x) :=
  h.moved s.log hok hvis fun y => by rw [owed_goto hx]

/-- What a step of a worker can do. -/
theorem TasksImpl.workerStep_cases (hs : T.workerStep s t = some s') :
    (s.worker t = .enter ∧ s' = s.goto t (if T.worksteal then .fetch 0 else .plain (s.b t))) ∨
    (∃ off v, s.worker t = .fetch off ∧ T.victim t off = v ∧
      s' = { s.goto t (if (T.range v).e ≤ s.b v then T.nextVictim off else .chunk off (s.b v)
        (if (T.range v).e < s.b v + T.chunkSize then (T.range v).e else s.b v + T.chunkSize)) with
          b := Function.update s.b v (s.b v + T.chunkSize) }) ∨
    (∃ off i stop, s.worker t = .chunk off i stop ∧ i < stop ∧
      s' = { s.goto t (.chunk off (i + 1) stop) with log := s.log ++ [i] }) ∨
    (∃ off i stop, s.worker t = .chunk off i stop ∧ ¬ i < stop ∧ s' = s.goto t (.fetch off)) ∨
    (∃ i, s.worker t = .plain i ∧ i < (T.range t).e ∧ s' = { s.goto t (.plain (i + 1)) with
      log := s.log ++ [i] }) ∨
    ∃ i, s.worker t = .plain i ∧ ¬ i < (T.range t).e ∧ s' = s.goto t .finished := by
  unfold TasksImpl.workerStep at hs
  cases hpc : s.worker t with
  | enter =>
    rw [hpc] at hs
    exact .inl ⟨rfl, (Option.some.inj hs).symm⟩
  | fetch off =>
    rw [hpc] at hs
    exact .inr (.inl ⟨off, _, rfl, rfl, (Option.some.inj hs).symm⟩)
  | chunk off i stop =>
    rw [hpc] at hs
    simp only at hs
    split_ifs at hs with hi
    · exact .inr (.inr (.inl ⟨off, i, stop, rfl, hi, (Option.some.inj hs).symm⟩))
    · exact .inr (.inr (.inr (.inl ⟨off, i, stop, rfl, hi, (Option.some.inj hs).symm⟩)))
  | plain i =>
    rw [hpc] at hs
    simp only at hs
    split_ifs at hs with hi
    · exact .inr (.inr (.inr (.inr (.inl ⟨i, rfl, hi, (Option.some.inj hs).symm⟩))))
    · exact .inr (.inr (.inr (.inr (.inr ⟨i, rfl, hi, (Option.some.inj hs).symm⟩))))
  | finished => rw [hpc] at hs; cases hs

theorem TasksImpl.step_eq_some :
    T.step s t = some s' ↔ t < T.size ∧ T.workerStep s t = some s' := by
  unfold TasksImpl.step
  split_ifs with ht
  · exact (and_iff_right ht).symm
  · exact iff_of_false (fun hs => nomatch hs) fun h => ht h.1

/-- **A step keeps the invariant.** -/
theorem TasksInv.step (h : TasksInv T s) (hT : T.Fits) (hs : T.step s t = some s') :
    TasksInv T s' := by
  obtain ⟨ht, hs⟩ := TasksImpl.step_eq_some.mp hs
  have hok := h.workers t ht
  obtain ⟨hpc, rfl⟩ | ⟨off, v, hpc, hv, rfl⟩ | ⟨off, i, stop, hpc, hi, rfl⟩ |
      ⟨off, i, stop, hpc, hi, rfl⟩ |
    ⟨i, hpc, hi, rfl⟩ | ⟨i, hpc, hi, rfl⟩ := TasksImpl.workerStep_cases hs
  all_goals rw [hpc] at hok
  · by_cases hw : T.worksteal = true
    · rw [if_pos hw]
      refine h.goto ⟨hw, by omega⟩ (fun _ => by rw [hpc]; rfl) fun y => ?_
      rw [hpc]
      show false = (!T.worksteal && _)
      rw [hw]
      rfl
    · rw [if_neg hw]
      rw [Bool.not_eq_true] at hw
      refine h.goto hw (fun _ => by rw [hpc]; rfl) fun y => ?_
      rw [hpc, h.fixed hw]
      show _ = (!T.worksteal && _)
      rw [hw]
      rfl
  · by_cases he : (T.range v).e ≤ s.b v
    · rw [if_pos he]
      exact h.fetch_used hT ht hpc hv he
    · rw [if_neg he]
      exact h.fetch_chunk hT ht hpc hv (BitVec.not_le.mp he) rfl
  · -- a call on an index of the chunk
    refine h.moved _ hok (fun _ => by rw [hpc]; rfl)
      (count_call ht ?_ (decide_eq_false ?_) fun y hy => ?_)
    · rw [hpc]
      exact decide_eq_true ⟨BitVec.le_refl _, hi⟩
    · bv_omega
    · rw [hpc]
      refine decide_eq_decide.mpr ?_
      constructor <;> intro hc <;> bv_omega
  · refine h.goto hok (fun _ => by rw [hpc]; rfl) fun y => ?_
    rw [hpc]
    refine (decide_eq_false ?_).symm
    bv_omega
  · -- a call on an index of its own range
    have hno : T.worksteal ≠ true := fun hw => Bool.noConfusion (hw.symm.trans hok)
    refine h.moved _ hok (fun hw => absurd hw hno)
      (count_call ht ?_ (decide_eq_false ?_) fun y hy => ?_)
    · rw [hpc]
      exact decide_eq_true ⟨BitVec.le_refl _, hi⟩
    · bv_omega
    · rw [hpc]
      refine decide_eq_decide.mpr ?_
      constructor <;> intro hc <;> bv_omega
  · have hno : T.worksteal ≠ true := fun hw => Bool.noConfusion (hw.symm.trans hok)
    refine h.goto trivial (fun hw => absurd hw hno) fun y => ?_
    rw [hpc]
    refine (decide_eq_false ?_).symm
    bv_omega

theorem tasksInv_reach (hT : T.Fits) (h : T.system.Reachable s) : TasksInv T s :=
  h.invariant (fun _ hi => hi ▸ tasksInv_start hT) fun _ _ _ _ hI _ hs => hI.step hT hs

/-- When all workers have finished, every index of every range has been called as often as it is in
one. -/
theorem TasksInv.finished (h : TasksInv T s) (hf : ∀ t < T.size, s.worker t = .finished)
    (y : SizeT) :
    s.log.count y = countThreads (Finset.range T.size) id fun v => decide
      ((T.range v).b ≤ y ∧ y < (T.range v).e) := by
  have howed : T.owed s y = 0 := countThreads_eq_zero fun t ht => by
    rw [hf t (Finset.mem_range.mp ht)]
    rfl
  have hcount := h.count y
  rw [howed, Nat.add_zero] at hcount
  rw [hcount]
  refine countThreads_congr fun v hv => ?_
  have hv' := Finset.mem_range.mp hv
  have hto : T.givenTo s.b v = (T.range v).e := if_neg fun hc => by
    -- a worker that has finished is through with this range too
    obtain ⟨o, ho, hov⟩ := TasksImpl.victim_surj hv' hv'
    have hused :=
      h.used hc.1 v hv' v hv' (by rw [hf v hv']; exact TasksImpl.past_iff.mpr ⟨o, ho, hov⟩)
    exact absurd hused (BitVec.not_le.mpr hc.2)
  rw [hto]

end Step

/-! ### The workers finish -/

section Work

variable {T : TasksImpl} {s s' : TasksState} {t : ℕ} {x : WorkPc}

/-- The steps a worker still takes, but for the fetch-and-adds to come. -/
def TasksImpl.stepsLeft (T : TasksImpl) (t : ℕ) : WorkPc → ℕ
  | .enter => (T.range t).e.toNat - (T.range t).b.toNat + 2
  | .fetch _ => 1
  | .chunk _ i stop => stop.toNat - i.toNat + 2
  | .plain i => (T.range t).e.toNat - i.toNat + 1
  | .finished => 0

/-- What a range can still be added to, for every chunk the fetch-and-add and the steps it leads
to. -/
def TasksImpl.roomLeft (T : TasksImpl) (b : ℕ → SizeT) (v : ℕ) : ℕ :=
  3 * ((T.range v).e.toNat + (T.size + 1) * T.chunkSize.toNat - (b v).toNat)

/-- No run takes more steps. -/
def TasksImpl.work (T : TasksImpl) (s : TasksState) : ℕ :=
  ∑ v ∈ Finset.range T.size, T.roomLeft s.b v + ∑ t ∈ Finset.range T.size,
    T.stepsLeft t (s.worker t)

theorem stepsLeft_goto (ht : t < T.size) :
    ∑ u ∈ Finset.range T.size, T.stepsLeft u ((s.goto t x).worker u) + T.stepsLeft t (s.worker t) =
      ∑ u ∈ Finset.range T.size, T.stepsLeft u (s.worker u) + T.stepsLeft t x := by
  have h := sum_move (f := fun u => T.stepsLeft u (s.worker u)) (g := fun u =>
    T.stepsLeft u ((s.goto t x).worker u))
    (Finset.mem_range.mpr ht) fun u hu => by
      show T.stepsLeft u (Function.update s.worker t x u) = _
      rw [Function.update_of_ne hu]
  have hself : (s.goto t x).worker t = x := Function.update_self ..
  rwa [hself] at h

/-- A worker moves to where it has fewer steps left. -/
theorem work_goto (log : List SizeT) (ht : t < T.size)
    (hlt : T.stepsLeft t x < T.stepsLeft t (s.worker t)) :
    T.work { s.goto t x with log := log } < T.work s := by
  have h := stepsLeft_goto (s := s) (x := x) ht
  show ∑ v ∈ Finset.range T.size, T.roomLeft s.b v + ∑ u ∈ Finset.range T.size,
      T.stepsLeft u ((s.goto t x).worker u) < _
  unfold TasksImpl.work
  omega

/-- A fetch-and-add leaves less work: the range can be added to by one chunk less, and the steps it
leads to are those of the chunk. -/
theorem TasksInv.work_fetch (h : TasksInv T s) (hT : T.Fits) (ht : t < T.size) {off v : ℕ}
    (hpc : s.worker t = .fetch off) (hv : T.victim t off = v)
    (hx : x = T.nextVictim off ∨ ∃ stop, x = .chunk off (s.b v) stop ∧
      stop.toNat ≤ (s.b v).toNat + T.chunkSize.toNat) :
    T.work { s.goto t x with b := Function.update s.b v (s.b v + T.chunkSize) } < T.work s := by
  have hadd := h.no_wrap hT ht hpc
  have hvs := TasksImpl.victim_lt ht off
  have hpos := hT.chunk_pos
  have hbelow := h.has_room ht hpc
  rw [hv] at hadd hvs hbelow
  have hroom :=
    sum_move (f := T.roomLeft s.b) (g := T.roomLeft (Function.update s.b v (s.b v + T.chunkSize)))
    (Finset.mem_range.mpr hvs) fun u hu => by
      unfold TasksImpl.roomLeft
      rw [Function.update_of_ne hu]
  rw [show T.roomLeft (Function.update s.b v (s.b v + T.chunkSize)) v =
    3 * ((T.range v).e.toNat + (T.size + 1) *
    T.chunkSize.toNat - ((s.b v).toNat + T.chunkSize.toNat)) by rw [TasksImpl.roomLeft,
      Function.update_self, hadd],
    TasksImpl.roomLeft] at hroom
  have hsteps := stepsLeft_goto (s := s) (x := x) ht
  have hle : T.stepsLeft t x ≤ T.chunkSize.toNat + 2 := by
    rcases hx with rfl | ⟨stop, rfl, hstop⟩
    · unfold TasksImpl.nextVictim
      split_ifs
      · show 1 ≤ _ + 2
        omega
      · exact Nat.zero_le _
    · show stop.toNat - (s.b v).toNat + 2 ≤ _
      omega
  rw [hpc] at hsteps
  change _ + 1 = _ at hsteps
  show ∑ w ∈ Finset.range T.size, T.roomLeft (Function.update s.b v (s.b v + T.chunkSize)) w +
    ∑ u ∈ Finset.range T.size, T.stepsLeft u ((s.goto t x).worker u) < _
  unfold TasksImpl.work
  omega

/-- A step leaves less work. -/
theorem TasksInv.work_lt (h : TasksInv T s) (hT : T.Fits) (hs : T.step s t = some s') :
    T.work s' < T.work s := by
  obtain ⟨ht, hs⟩ := TasksImpl.step_eq_some.mp hs
  obtain ⟨hpc, rfl⟩ | ⟨off, v, hpc, hv, rfl⟩ | ⟨off, i, stop, hpc, hi, rfl⟩ |
      ⟨off, i, stop, hpc, hi, rfl⟩ |
    ⟨i, hpc, hi, rfl⟩ | ⟨i, hpc, hi, rfl⟩ := TasksImpl.workerStep_cases hs
  · refine work_goto s.log ht ?_
    rw [hpc]
    split_ifs with hw
    · show 1 < _ + 2
      omega
    · rw [h.fixed (by simpa using hw)]
      show _ - (T.range t).b.toNat + 1 < _ - (T.range t).b.toNat + 2
      omega
  · have hadd := h.no_wrap hT ht hpc
    rw [hv] at hadd
    refine h.work_fetch hT ht hpc hv ?_
    split_ifs with he hstop
    · exact .inl rfl
    · rw [BitVec.lt_def, hadd] at hstop
      exact .inr ⟨_, rfl, hstop.le⟩
    · exact .inr ⟨_, rfl, hadd.le⟩
  · refine work_goto _ ht ?_
    rw [hpc]
    show stop.toNat - (i + 1).toNat + 2 < stop.toNat - i.toNat + 2
    bv_omega
  · refine work_goto s.log ht ?_
    rw [hpc]
    show 1 < _ + 2
    omega
  · refine work_goto _ ht ?_
    rw [hpc]
    show (T.range t).e.toNat - (i + 1).toNat + 1 < (T.range t).e.toNat - i.toNat + 1
    bv_omega
  · refine work_goto s.log ht ?_
    rw [hpc]
    exact Nat.succ_pos _

/-- **The workers finish**: a run is no longer than the work there is. -/
theorem exec_length_le (hT : T.Fits) {as : List ℕ} (h : TasksInv T s)
    (hs : exec T.step s as = some s') :
    as.length + T.work s' ≤ T.work s := by
  induction as generalizing s with
  | nil =>
    obtain rfl := Option.some.inj hs
    simp
  | cons t as ih =>
    obtain ⟨s₁, h₁, h₂⟩ := Option.bind_eq_some_iff.mp hs
    have := ih (h.step hT h₁) h₂
    have := h.work_lt hT h₁
    rw [List.length_cons]
    omega

/-- A worker that has not finished can go on. -/
theorem step_of_not_finished (ht : t < T.size) (hf : s.worker t ≠ .finished) :
    ∃ s', T.step s t = some s' := by
  unfold TasksImpl.step TasksImpl.workerStep
  rw [if_pos ht]
  cases hpc : s.worker t with
  | finished => exact absurd hpc hf
  | chunk off i stop =>
    simp only
    split_ifs <;> exact ⟨_, rfl⟩
  | plain i =>
    simp only
    split_ifs <;> exact ⟨_, rfl⟩
  | _ => exact ⟨_, rfl⟩

end Work

/-! ### What a submit does -/

section Submit

variable {start stop granular num n : SizeT}

/-- What the tasks over the indices from `start` to before `stop` are for. -/
structure EveryIndexOnce (T : TasksImpl) (start stop : SizeT) : Prop where
  /-- When all workers have finished, each index has been called once and nothing else has. -/
  once : ∀ s, T.system.Reachable s → (∀ t < T.size, s.worker t = .finished) →
    ∀ y, s.log.count y = if start ≤ y ∧ y < stop then 1 else 0
  /-- Runs have an end, -/
  ends : ∀ as s, exec T.step T.start as = some s → as.length ≤ T.work T.start
  /-- and a worker can go on until it has finished. -/
  goes_on : ∀ s, ∀ t < T.size, s.worker t ≠ .finished → ∃ s', T.step s t = some s'

/-- So a submit of the indices below `stop` calls `f` on them in some order. -/
theorem EveryIndexOnce.perm {T : TasksImpl} {s : TasksState} (h : EveryIndexOnce T 0 stop)
    (hs : T.system.Reachable s) (hf : ∀ t < T.size, s.worker t = .finished) :
    (s.log.map BitVec.toNat).Perm (List.range stop.toNat) := by
  have honce := h.once s hs hf
  have hnodup : s.log.Nodup := List.nodup_iff_count_le_one.mpr fun y => by
    rw [honce]
    split_ifs <;> omega
  refine (List.perm_ext_iff_of_nodup
    ((List.nodup_map_iff fun _ _ => BitVec.eq_of_toNat_eq).mpr hnodup)
    List.nodup_range).mpr fun k => ?_
  have hmem : ∀ y : SizeT, y ∈ s.log ↔ y < stop := fun y => by
    rw [← List.count_pos_iff, honce]
    split_ifs with hy
    · exact ⟨fun _ => hy.2, fun _ => Nat.one_pos⟩
    · exact ⟨fun h0 => absurd h0 (lt_irrefl 0), fun hlt =>
        absurd ⟨BitVec.le_def.mpr (Nat.zero_le _), hlt⟩ hy⟩
  simp only [List.mem_map, hmem, List.mem_range]
  constructor
  · rintro ⟨y, hy, rfl⟩
    exact hy
  · intro hk
    refine ⟨BitVec.ofNat 64 k, ?_, ?_⟩
    · rw [BitVec.lt_def, BitVec.toNat_ofNat, Nat.mod_eq_of_lt (by omega)]
      exact hk
    · rw [BitVec.toNat_ofNat, Nat.mod_eq_of_lt (by omega)]

theorem toNat_cut {c : ℕ → ℕ} {n t : ℕ} (hc : Monotone c) (hn : c n < 2 ^ 64) (ht : t ≤ n) :
    (BitVec.ofNat 64 (c t)).toNat = c t := by
  have hle : c t ≤ c n := hc ht
  rw [BitVec.toNat_ofNat, Nat.mod_eq_of_lt (by omega)]

theorem toNat_range_cut {T : TasksImpl} {c : ℕ → ℕ} (hc : Monotone c)
    (hranges : T.ranges = (List.range T.size).map fun t =>
      ⟨BitVec.ofNat 64 (c t), BitVec.ofNat 64 (c (t + 1))⟩)
    (hn : c T.size < 2 ^ 64) {t : ℕ} (ht : t < T.size) :
    (T.range t).b.toNat = c t ∧ (T.range t).e.toNat = c (t + 1) := by
  have hget : T.range t = ⟨BitVec.ofNat 64 (c t), BitVec.ofNat 64 (c (t + 1))⟩ := by
    rw [TasksImpl.range, hranges, List.getD_eq_getElem?_getD, List.getElem?_map,
      List.getElem?_range ht]
    rfl
  rw [hget]
  exact ⟨toNat_cut hc hn ht.le, toNat_cut hc hn ht⟩

/-- Tasks over ranges cut at cut points. -/
theorem everyIndexOnce_cut {T : TasksImpl} {c : ℕ → ℕ} (hc : Monotone c)
    (hranges : T.ranges = (List.range T.size).map fun t =>
      ⟨BitVec.ofNat 64 (c t), BitVec.ofNat 64 (c (t + 1))⟩)
    (hpos : 0 < T.chunkSize.toNat) (hroom : c T.size + (T.size + 1) * T.chunkSize.toNat < 2 ^ 64)
    (h0 : c 0 = start.toNat) (hn : c T.size = stop.toNat) : EveryIndexOnce T start stop := by
  have hrange : ∀ t < T.size, (T.range t).b.toNat = c t ∧ (T.range t).e.toNat = c (t + 1) :=
    fun t ht => toNat_range_cut hc hranges (by omega) ht
  have hfits : T.Fits := by
    refine ⟨hpos, fun v hv => ?_, fun v hv => ?_⟩
    · rw [(hrange v hv).1, (hrange v hv).2]
      exact hc v.le_succ
    · have : c (v + 1) ≤ c T.size := hc hv
      rw [(hrange v hv).2]
      omega
  refine ⟨fun s hs hf y => ?_, fun as s hs => ?_, fun s t ht hf => step_of_not_finished ht hf⟩
  · have hcuts := countThreads_cuts hc T.size y.toNat
    rw [h0, hn] at hcuts
    refine ((tasksInv_reach hfits hs).finished hf y).trans
      (Eq.trans (countThreads_congr fun t ht => ?_) hcuts)
    obtain ⟨h1, h2⟩ := hrange t (Finset.mem_range.mp ht)
    simp only [BitVec.le_def, BitVec.lt_def, h1, h2]
  · have := exec_length_le hfits (tasksInv_start hfits) hs
    omega

/-- **Every index exactly once**, whatever the order of the workers' steps, with work stealing and
without. -/
theorem submit_every_index_once (worksteal : Bool) (hle : start ≤ stop) (hg : 1 ≤ granular)
    (hnum : 1 ≤ num) (hlt : num.toNat < 2 ^ 32)
    (hroom : stop.toNat + ((partsOf (stop - start) granular num).toNat + 1) * granular.toNat <
      2 ^ 64) :
    ∃ ranges, submitRanges start stop granular num = some ranges ∧
      (start = 0 → submitEndRanges stop granular num = some ranges) ∧
      ranges.length = (partsOf (stop - start) granular num).toNat ∧
      EveryIndexOnce ⟨ranges, granular, worksteal⟩ start stop := by
  generalize hn : partsOf (stop - start) granular num = n at *
  have hg' : 0 < granular.toNat := by bv_omega
  have hnum' : 0 < num.toNat := by bv_omega
  have hlen : (stop - start).toNat = stop.toNat - start.toNat := by bv_omega
  have hle' : start.toNat ≤ stop.toNat := hle
  rw [Nat.add_mul, Nat.one_mul] at hroom
  have hend : start = 0 → submitEndRanges stop granular num =
      submitRanges start stop granular num := by
    rintro rfl
    have hsub : stop - 0 = stop := BitVec.sub_zero stop
    rw [submitRanges, hsub, submitEndRanges]
  by_cases h0 : n.toNat = 0
  · -- nothing to do
    have hz : (stop - start).toNat = 0 := by
      refine len_eq_zero hg' hnum' (by omega) ?_
      rw [hn]
      exact h0
    have hnil : submitRanges start stop granular num = some [] := by
      rw [submitRanges, cutRanges, hn, if_pos (BitVec.eq_of_toNat_eq h0)]
    refine ⟨[], hnil, fun hs => (hend hs).trans hnil, h0.symm,
      everyIndexOnce_cut (c := fun _ => start.toNat) monotone_const rfl hg' ?_ rfl (by omega)⟩
    show start.toNat + (0 + 1) * granular.toNat < _
    omega
  · have h0' : 0 < n.toNat := by omega
    have hn32 : n.toNat < 2 ^ 32 := by
      have := @toNat_partsOf (stop - start) granular num hg' (by omega)
      rw [hn] at this
      omega
    have hcut := cutRanges_eq (b := start) hn h0' hn32
    refine ⟨_, hcut, fun hs => (hend hs).trans hcut, by rw [List.length_map, List.length_range],
      everyIndexOnce_cut (cutPoint_mono start.toNat (stop - start).toNat n.toNat) ?_ hg' ?_
        (cutPoint_zero _ _ _) ?_⟩
    all_goals simp only [TasksImpl.size, List.length_map, List.length_range]
    · rw [cutPoint_last _ _ h0', Nat.add_mul, Nat.one_mul]
      omega
    · rw [cutPoint_last _ _ h0']
      omega

/-- Ten indices in chunks of three, for a gang of three that steals. -/
theorem submit_every_index_once_ten : ∃ ranges, submitRanges 0 10 3 3 = some ranges ∧
    ((0 : SizeT) = 0 → submitEndRanges 10 3 3 = some ranges) ∧
    ranges.length = (partsOf (10 - 0) 3 3).toNat ∧
      EveryIndexOnce ⟨ranges, 3, true⟩ 0 10 :=
  submit_every_index_once true (by decide) (by decide) (by decide) (by decide) (by decide)

end Submit

end NetworkDemo.Gang
