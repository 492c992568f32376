import NetworkDemo.Foundations.Interleave
import NetworkDemo.Gang.Tasks

/-!
# Calls that take time

In `Gang.Tasks` a call of `f` is one step. Here it is a program: a worker that calls `f` takes
the acts of the call one at a time, and between any two of them the other workers go on with
theirs, make their fetch-and-adds and begin calls of their own. The store is the memory that
the calls share.

The calls must not get in each other's way: `ApartCalls` says that calls on different indices
have footprints that are apart. Then nobody can tell how the workers' steps were interleaved.

* `CallsInv` — run to their end, the calls that are under way lead to where the calls that have
  begun lead when they are made one after the other, in the order in which they began.
* `calls_sequential` — when all workers have finished, the store is what a loop leaves that
  calls `f` on the indices in increasing order; and they finish, after at most as many steps
  as the tasks alone take and the calls have acts.
-/

namespace NetworkDemo.Gang

open Foundations

variable {ι : Type} {V : ι → Type}

/-! ### The system -/

/-- The workers, what is left of the calls that they are in, and the store. -/
structure CallsState (V : ι → Type) where
  tasks : TasksState
  rest : ℕ → Prog (∀ i, V i) Unit
  mem : ∀ i, V i

/-- The index that worker `t` calls `f` on, if that is its next step. -/
def TasksImpl.callOf (T : TasksImpl) (s : TasksState) (t : ℕ) : Option SizeT :=
  match s.worker t with
  | .chunk _ i stop => if i < stop then some i else none
  | .plain i => if i < (T.range t).e then some i else none
  | _ => none

/-- **One step** of worker `t`: an act of the call that it is in, or a step of its own. -/
def TasksImpl.callsStep (T : TasksImpl) (f : SizeT → Prog (∀ i, V i) Unit) (s : CallsState V)
    (t : ℕ) : Option (CallsState V) :=
  match s.rest t with
  | .act g next => some { s with rest := Function.update s.rest t (next s.mem), mem := g s.mem }
  | .ret () => (T.step s.tasks t).map fun tasks =>
    { s with
      tasks := tasks, rest := Function.update s.rest t ((T.callOf s.tasks t).elim (.ret ()) f) }

/-- Nothing done yet. -/
def TasksImpl.callsStart (T : TasksImpl) (m₀ : ∀ i, V i) : CallsState V :=
  ⟨T.start, fun _ => .ret (), m₀⟩

/-- Worker `t` is out of `run`. -/
def CallsState.done (s : CallsState V) (t : ℕ) : Bool :=
  match s.tasks.worker t, s.rest t with
  | .finished, .ret _ => true
  | _, _ => false

theorem CallsState.done_iff {s : CallsState V} {t : ℕ} :
    s.done t = true ↔ s.tasks.worker t = .finished ∧ s.rest t = .ret () := by
  unfold CallsState.done
  cases s.tasks.worker t <;> cases s.rest t <;> simp

/-- The indices from `start` to before `stop`. -/
def indices (start stop : SizeT) : List SizeT :=
  (List.range' start.toNat (stop.toNat - start.toNat)).map (BitVec.ofNat 64)

/-- Calls of `f`, one after the other. -/
def callAll (f : SizeT → Prog (∀ i, V i) Unit) (is : List SizeT) (m : ∀ i, V i) : ∀ i, V i :=
  is.foldl (fun m i => ((f i).run m).2) m

/-! ### The log -/

section Log

variable {T : TasksImpl} {s s' : TasksState} {start stop : SizeT} {t : ℕ}

theorem mem_indices {i : SizeT} : i ∈ indices start stop ↔ start ≤ i ∧ i < stop := by
  simp only [indices, List.mem_map, List.mem_range'_1, BitVec.le_def, BitVec.lt_def]
  constructor
  · rintro ⟨k, hk, rfl⟩
    rw [BitVec.toNat_ofNat, Nat.mod_eq_of_lt (by omega)]
    omega
  · exact fun h => ⟨i.toNat, by omega, by rw [BitVec.ofNat_toNat, BitVec.setWidth_eq]⟩

theorem indices_nodup : (indices start stop).Nodup := by
  refine List.Nodup.map_on (fun j hj k hk h => ?_) List.nodup_range'
  have hj := (List.mem_range'_1.mp hj).2
  have hk := (List.mem_range'_1.mp hk).2
  have := congrArg BitVec.toNat h
  rwa [BitVec.toNat_ofNat, BitVec.toNat_ofNat, Nat.mod_eq_of_lt (by omega),
    Nat.mod_eq_of_lt (by omega)] at this

/-- A step logs the call it makes. -/
theorem step_log (hs : T.step s t = some s') : s'.log = s.log ++ (T.callOf s t).toList := by
  obtain ⟨-, hs⟩ := TasksImpl.step_eq_some.mp hs
  obtain ⟨hpc, rfl⟩ | ⟨off, v, hpc, -, rfl⟩ | ⟨off, i, stop, hpc, hi, rfl⟩ |
      ⟨off, i, stop, hpc, hi, rfl⟩ |
    ⟨i, hpc, hi, rfl⟩ | ⟨i, hpc, hi, rfl⟩ := TasksImpl.workerStep_cases hs
  all_goals unfold TasksImpl.callOf; rw [hpc]
  · exact (List.append_nil _).symm
  · exact (List.append_nil _).symm
  · simp only [if_pos hi, Option.toList_some]
  · simp only [if_neg hi, Option.toList_none, List.append_nil]
    rfl
  · simp only [if_pos hi, Option.toList_some]
  · simp only [if_neg hi, Option.toList_none, List.append_nil]
    rfl

theorem exec_log {as : List ℕ} (hs : exec T.step s as = some s') :
    ∃ more, s'.log = s.log ++ more := by
  induction as generalizing s with
  | nil =>
    obtain rfl := Option.some.inj hs
    exact ⟨[], (List.append_nil _).symm⟩
  | cons t as ih =>
    obtain ⟨s₁, h₁, h₂⟩ := Option.bind_eq_some_iff.mp hs
    obtain ⟨more, hmore⟩ := ih h₂
    exact ⟨(T.callOf s t).toList ++ more, by rw [hmore, step_log h₁, List.append_assoc]⟩

theorem reachable_of_exec {as : List ℕ} (hs : exec T.step T.start as = some s) :
    T.system.Reachable s :=
  Lts.Reach.exec (fun _ _ _ h => h) (.init rfl) (fun _ _ _ => trivial) hs

theorem EveryIndexOnce.log_perm (h : EveryIndexOnce T start stop) (hs : T.system.Reachable s)
    (hf : ∀ t < T.size, s.worker t = .finished) : s.log.Perm (indices start stop) := by
  have honce := h.once s hs hf
  refine (List.perm_ext_iff_of_nodup (List.nodup_iff_count_le_one.mpr fun y => ?_)
    indices_nodup).mpr fun y => ?_
  · rw [honce]
    split_ifs <;> omega
  · rw [mem_indices, ← List.count_pos_iff, honce]
    split_ifs with hy <;> simp [hy]

/-- What has been logged is the beginning of what will have been. -/
theorem EveryIndexOnce.log_extends (h : EveryIndexOnce T start stop) {as : List ℕ}
    (hs : exec T.step T.start as = some s) :
    ∃ more, (s.log ++ more).Perm (indices start stop) := by
  have hbound : ∀ bs s', exec T.step s bs = some s' → bs.length ≤ T.work T.start := by
    intro bs s' hb
    have := h.ends (as ++ bs) s' (by rw [exec_append, hs]; exact hb)
    rw [List.length_append] at this
    omega
  obtain ⟨bs, s', hs', hstuck⟩ := exists_stuck hbound
  obtain ⟨more, hmore⟩ := exec_log hs'
  have hexec : exec T.step T.start (as ++ bs) = some s' := by
    rw [exec_append, hs]
    exact hs'
  refine ⟨more, hmore ▸ h.log_perm (reachable_of_exec hexec) fun t ht => ?_⟩
  by_contra hf
  obtain ⟨s'', hs''⟩ := h.goes_on s' t ht hf
  rw [hstuck t] at hs''
  cases hs''

/-- Nothing else has been logged, -/
theorem EveryIndexOnce.log_mem (h : EveryIndexOnce T start stop) {as : List ℕ}
    (hs : exec T.step T.start as = some s) :
    ∀ i ∈ s.log, i ∈ indices start stop := fun i hi => by
  obtain ⟨more, hmore⟩ := h.log_extends hs
  exact hmore.mem_iff.mp (List.mem_append_left _ hi)

/-- and nothing twice. -/
theorem EveryIndexOnce.log_nodup (h : EveryIndexOnce T start stop) {as : List ℕ}
    (hs : exec T.step T.start as = some s) :
    s.log.Nodup := by
  obtain ⟨more, hmore⟩ := h.log_extends hs
  exact (List.nodup_append.mp (hmore.nodup_iff.mpr indices_nodup)).1

/-- The call that begins is a new one. -/
theorem callOf_new (hs : T.step s t = some s') (hd : s'.log.Nodup) (i : SizeT)
    (hi : T.callOf s t = some i) :
    i ∈ s'.log ∧ i ∉ s.log := by
  have hlog := step_log hs
  rw [hi] at hlog
  rw [hlog] at hd ⊢
  exact ⟨by simp, fun hm => (List.nodup_append.mp hd).2.2 i hm i (by simp) rfl⟩

end Log

/-! ### The invariant -/

section Calls

variable {T : TasksImpl} {f : SizeT → Prog (∀ i, V i) Unit} {F : SizeT → Footprint ι}
    {start stop : SizeT} {m₀ : ∀ i, V i}
  {s s' : CallsState V} {as : List ℕ} {t : ℕ}

/-- **Calls on different indices do not get in each other's way.** -/
structure ApartCalls (f : SizeT → Prog (∀ i, V i) Unit) (F : SizeT → Footprint ι)
    (start stop : SizeT) : Prop where
  within : ∀ i ∈ indices start stop, (f i).Within (F i)
  apart : ∀ i ∈ indices start stop, ∀ j ∈ indices start stop, i ≠ j → (F i).Apart (F j)

/-- The footprint of a worker that is in a call, or in none. -/
def footOf (F : SizeT → Footprint ι) (call : Option SizeT) : Footprint ι :=
  call.elim ⟨fun _ => False, fun _ => False⟩ F

/-- The calls that the workers are in: they have been logged, and each worker is in its own. -/
structure Called (log : List SizeT) (call : ℕ → Option SizeT) : Prop where
  logged : ∀ t i, call t = some i → i ∈ log
  alone : ∀ t u i, call t = some i → call u = some i → t = u

/-- They keep to their footprints. -/
structure InCalls (F : SizeT → Footprint ι) (log : List SizeT) (rest : ℕ → Prog (∀ i, V i) Unit)
    (call : ℕ → Option SizeT) : Prop
    extends Called log call where
  within : ∀ t, (rest t).Within (footOf F (call t))

/-- **The invariant**, after the steps `as`. -/
structure CallsInv (T : TasksImpl) (f : SizeT → Prog (∀ i, V i) Unit) (F : SizeT → Footprint ι)
    (start stop : SizeT) (m₀ : ∀ i, V i) (as : List ℕ) (s : CallsState V) : Prop where
  /-- The steps are those of the workers and the acts of their calls. -/
  steps : ∃ bs, exec T.step T.start bs = some s.tasks ∧
    as.length + ∑ t ∈ Finset.range T.size, (s.rest t).steps s.mem =
      bs.length + (s.tasks.log.map fun i => (f i).steps m₀).sum
  calls : ∃ call, InCalls F s.tasks.log s.rest call
  /-- The calls that have begun lead to where they lead one after the other. -/
  settled : settle (List.range T.size) s.rest s.mem = callAll f s.tasks.log m₀
  /-- What the others are about is as it was. -/
  untouched : ∀ i ∈ indices start stop, i ∉ s.tasks.log → AgreeOn (F i).Uses s.mem m₀
  outside : ∀ t, T.size ≤ t → s.rest t = .ret ()

theorem footOf_none_apart (G : Footprint ι) : (footOf F none).Apart G :=
  ⟨fun _ h => h.elim, fun _ _ h => h.elim id id⟩

/-- Workers are in different calls. -/
theorem ApartCalls.footOf_apart (hf : ApartCalls f F start stop) {c d : Option SizeT}
    (hc : ∀ i ∈ c, i ∈ indices start stop) (hd : ∀ i ∈ d, i ∈ indices start stop)
    (h : ∀ i ∈ c, i ∉ d) : (footOf F c).Apart (footOf F d) := by
  cases c with
  | none => exact footOf_none_apart _
  | some i =>
    cases d with
    | none => exact (footOf_none_apart _).symm
    | some j =>
      refine hf.apart i (hc i rfl) j (hd j rfl) fun hij => h i rfl ?_
      rw [hij]
      rfl

/-- A worker begins a call, or leaves its own. -/
theorem Called.begin {s s' : TasksState} {call : ℕ → Option SizeT} (h : Called s.log call)
    (hs : T.step s t = some s') (hd : s'.log.Nodup) :
    Called s'.log (Function.update call t (T.callOf s t)) := by
  have hnew := callOf_new hs hd
  refine ⟨fun u i hu => ?_, fun u v i hu hv => ?_⟩
  · by_cases hut : u = t
    · rw [hut, Function.update_self] at hu
      exact (hnew i hu).1
    · rw [Function.update_of_ne hut] at hu
      rw [step_log hs]
      exact List.mem_append_left _ (h.logged u i hu)
  · by_cases hut : u = t
    · by_cases hvt : v = t
      · rw [hut, hvt]
      · rw [hut, Function.update_self] at hu
        rw [Function.update_of_ne hvt] at hv
        exact absurd (h.logged v i hv) (hnew i hu).2
    · rw [Function.update_of_ne hut] at hu
      by_cases hvt : v = t
      · rw [hvt, Function.update_self] at hv
        exact absurd (h.logged u i hu) (hnew i hv).2
      · rw [Function.update_of_ne hvt] at hv
        exact h.alone u v i hu hv

theorem InCalls.independent {log : List SizeT} {rest : ℕ → Prog (∀ i, V i) Unit}
    {call : ℕ → Option SizeT} (h : InCalls F log rest call) (hf : ApartCalls f F start stop)
    (hlog : ∀ i ∈ log, i ∈ indices start stop) (ts : List ℕ) :
    Independent ts rest fun t => footOf F (call t) where
  within t _ := h.within t
  apart t _ u _ htu :=
    hf.footOf_apart (fun i hi => hlog i (h.logged t i hi)) (fun i hi => hlog i (h.logged u i hi))
    fun i hi hi' => htu (h.alone t u i hi hi')

/-- **What a step can do**: an act of the worker's call, or a step of the worker's own. -/
theorem callsStep_cases (hs : T.callsStep f s t = some s') :
    (∃ g next, s.rest t = .act g next ∧ s' = { s with
      rest := Function.update s.rest t (next s.mem), mem := g s.mem }) ∨
      ∃ tasks, s.rest t = .ret () ∧ T.step s.tasks t = some tasks ∧
        s' = { s with
          tasks := tasks,
          rest := Function.update s.rest t ((T.callOf s.tasks t).elim (.ret ()) f) } := by
  unfold TasksImpl.callsStep at hs
  cases hr : s.rest t with
  | act g next =>
    rw [hr] at hs
    exact .inl ⟨g, next, rfl, (Option.some.inj hs).symm⟩
  | ret x =>
    rw [hr] at hs
    obtain ⟨tasks, htasks, rfl⟩ := Option.map_eq_some_iff.mp hs
    exact .inr ⟨tasks, rfl, htasks, rfl⟩

theorem callsInv_start : CallsInv T f F start stop m₀ [] (T.callsStart m₀) where
  steps := ⟨[], rfl, by
    refine (Nat.zero_add _).trans (Finset.sum_eq_zero fun t _ => ?_)
    rfl⟩
  calls := ⟨fun _ => none, ⟨by simp, by simp⟩, fun _ => trivial⟩
  settled := settle_ret (fun _ _ => rfl) m₀
  untouched _ _ _ _ _ := rfl
  outside _ _ := rfl

/-- A worker goes on with its call. -/
theorem CallsInv.act (h : CallsInv T f F start stop m₀ as s) (hf : ApartCalls f F start stop)
    (hlog : ∀ i ∈ s.tasks.log, i ∈ indices start stop) {g : (∀ i, V i) → ∀ i, V i}
    {next : (∀ i, V i) → Prog (∀ i, V i) Unit} (hr : s.rest t = .act g next) :
    CallsInv T f F start stop m₀ (as ++ [t]) { s with
      rest := Function.update s.rest t (next s.mem), mem := g s.mem } := by
  obtain ⟨call, hcall⟩ := h.calls
  have ht : t < T.size := by
    by_contra hge
    rw [h.outside t (Nat.not_lt.mp hge)] at hr
    cases hr
  have hin : (Prog.act g next).Within (footOf F (call t)) := hr ▸ hcall.within t
  have hind := hcall.independent hf hlog
  refine
    { steps := ?_
      calls := ⟨call, hcall.toCalled, fun u => ?_⟩
      settled :=
        (settle_act (hind _) List.nodup_range (List.mem_range.mpr ht) hr s.mem).trans h.settled
      untouched := fun i hi hni => ?_
      outside := fun u hu => ?_ }
  · obtain ⟨bs, hbs, hlen⟩ := h.steps
    refine ⟨bs, hbs, ?_⟩
    -- the others' calls do not notice
    have hother : ∀ u, u ≠ t → (Function.update s.rest t (next s.mem) u).steps (g s.mem) =
        (s.rest u).steps s.mem := by
      intro u hut
      rw [Function.update_of_ne hut]
      exact ((hcall.within u).agree
        (hin.1.agree_apart ((hind [t, u]).apart t (by simp) u (by simp) (Ne.symm hut)) s.mem)).2.2
    have hsum := sum_move (f := fun u => (s.rest u).steps s.mem)
      (g := fun u => (Function.update s.rest t (next s.mem) u).steps (g s.mem))
        (Finset.mem_range.mpr ht) hother
    simp only [Function.update_self, hr, Prog.steps] at hsum
    rw [List.length_append, List.length_singleton]
    show _ + ∑ u ∈ Finset.range T.size, (Function.update s.rest t (next s.mem) u).steps (g s.mem) =
      _ + (s.tasks.log.map fun i => (f i).steps m₀).sum
    omega
  · show (Function.update s.rest t (next s.mem) u).Within (footOf F (call u))
    by_cases hut : u = t
    · rw [hut, Function.update_self]
      exact hin.2.2 s.mem
    · rw [Function.update_of_ne hut]
      exact hcall.within u
  · have hapart : (footOf F (call t)).Apart (footOf F (some i)) :=
      hf.footOf_apart (fun j hj => hlog j (hcall.logged t j hj)) (fun j hj => by cases hj; exact hi)
        fun j hj hj' => hni (by cases hj'; exact hcall.logged t i hj)
    exact fun k hk => (hin.1.agree_apart hapart s.mem k hk).trans (h.untouched i hi hni k hk)
  · have hut : u ≠ t := by omega
    show Function.update s.rest t (next s.mem) u = _
    rw [Function.update_of_ne hut]
    exact h.outside u hu

/-- A worker takes a step of its own, and may begin a call. -/
theorem CallsInv.taskStep (h : CallsInv T f F start stop m₀ as s) (hT : EveryIndexOnce T start stop)
    (hf : ApartCalls f F start stop)
    (hr : s.rest t = .ret ()) {tasks : TasksState} (hs : T.step s.tasks t = some tasks) :
    CallsInv T f F start stop m₀ (as ++ [t])
      { s with
        tasks := tasks,
        rest := Function.update s.rest t ((T.callOf s.tasks t).elim (.ret ()) f) } := by
  obtain ⟨bs, hbs, hlen⟩ := h.steps
  obtain ⟨call, hcall⟩ := h.calls
  have ht : t < T.size := (TasksImpl.step_eq_some.mp hs).1
  have hbs' : exec T.step T.start (bs ++ [t]) = some tasks := by
    rw [exec_append, hbs, Option.bind_some, exec, hs]
    rfl
  have hlog' := step_log hs
  have hmem := hT.log_mem hbs'
  have hmono : ∀ i ∈ s.tasks.log, i ∈ tasks.log := fun i hi => by
    rw [hlog']
    exact List.mem_append_left _ hi
  have hnew := callOf_new hs (hT.log_nodup hbs')
  have hcall' : InCalls F tasks.log
      (Function.update s.rest t ((T.callOf s.tasks t).elim (.ret ()) f))
      (Function.update call t (T.callOf s.tasks t)) := by
    refine ⟨hcall.toCalled.begin hs (hT.log_nodup hbs'), fun u => ?_⟩
    by_cases hut : u = t
    · rw [hut, Function.update_self, Function.update_self]
      cases hc : T.callOf s.tasks t with
      | none => trivial
      | some i => exact hf.within i (hmem i (hnew i hc).1)
    · rw [Function.update_of_ne hut, Function.update_of_ne hut]
      exact hcall.within u
  refine ⟨⟨bs ++ [t], hbs', ?_⟩, ⟨_, hcall'⟩, ?_, fun i hi hni => h.untouched i hi fun hm =>
    hni (hmono i hm), fun u hu => ?_⟩
  · have hsum := sum_move (f := fun u => (s.rest u).steps s.mem)
      (g := fun u => (Function.update s.rest t ((T.callOf s.tasks t).elim (.ret ()) f) u).steps
        s.mem) (Finset.mem_range.mpr ht)
      fun u hut => by rw [Function.update_of_ne hut]
    have hsteps : ((T.callOf s.tasks t).elim (.ret ()) f : Prog (∀ i, V i) Unit).steps s.mem =
        ((T.callOf s.tasks t).toList.map fun i => (f i).steps m₀).sum := by
      cases hc : T.callOf s.tasks t with
      | none => rfl
      | some i =>
        have hi := hnew i hc
        simpa using ((hf.within i (hmem i hi.1)).agree (h.untouched i (hmem i hi.1) hi.2)).2.2
    simp only [Function.update_self, hr, Prog.steps, hsteps] at hsum
    rw [List.length_append, List.length_append, hlog', List.map_append, List.sum_append,
      List.length_singleton]
    show _ + ∑ u ∈ Finset.range T.size, (Function.update s.rest t _ u).steps s.mem = _
    omega
  · refine (settle_begin (hcall'.independent hf hmem _) List.nodup_range
      (List.mem_range.mpr ht) hr s.mem).trans ?_
    rw [h.settled, hlog']
    cases T.callOf s.tasks t with
    | none => simp [Prog.run]
    | some i => simp [callAll]
  · have hut : u ≠ t := by omega
    show Function.update s.rest t _ u = _
    rw [Function.update_of_ne hut]
    exact h.outside u hu

theorem CallsInv.step (h : CallsInv T f F start stop m₀ as s) (hT : EveryIndexOnce T start stop)
    (hf : ApartCalls f F start stop) (hs : T.callsStep f s t = some s') :
    CallsInv T f F start stop m₀ (as ++ [t]) s' := by
  obtain ⟨g, next, hr, rfl⟩ | ⟨tasks, hr, htasks, rfl⟩ := callsStep_cases hs
  · obtain ⟨bs, hbs, -⟩ := h.steps
    exact h.act hf (hT.log_mem hbs) hr
  · exact h.taskStep hT hf hr htasks

theorem CallsInv.exec (h : CallsInv T f F start stop m₀ as s) (hT : EveryIndexOnce T start stop)
    (hf : ApartCalls f F start stop) {bs : List ℕ}
    (hs : Foundations.exec (T.callsStep f) s bs = some s') :
    CallsInv T f F start stop m₀ (as ++ bs) s' := by
  induction bs generalizing s as with
  | nil =>
    obtain rfl := Option.some.inj hs
    rwa [List.append_nil]
  | cons t bs ih =>
    obtain ⟨s₁, h₁, h₂⟩ := Option.bind_eq_some_iff.mp hs
    rw [List.append_cons]
    exact ih (h.step hT hf h₁) h₂

/-- A worker that has not finished can go on. -/
theorem callsStep_of_not_done (hT : EveryIndexOnce T start stop) (ht : t < T.size)
    (hd : s.done t = false) :
    ∃ s', T.callsStep f s t = some s' := by
  unfold TasksImpl.callsStep
  cases hr : s.rest t with
  | act g next => exact ⟨_, rfl⟩
  | ret x =>
    have hf : s.tasks.worker t ≠ .finished := fun hf => by
      rw [CallsState.done_iff.mpr ⟨hf, hr⟩] at hd
      cases hd
    obtain ⟨tasks, htasks⟩ := hT.goes_on s.tasks t ht hf
    exact ⟨_, by rw [htasks]; rfl⟩

/-- The order of calls that are apart does not matter. -/
theorem callAll_perm (hf : ApartCalls f F start stop) {is js : List SizeT} (hp : is.Perm js)
    (his : ∀ i ∈ is, i ∈ indices start stop) (m : ∀ i, V i) : callAll f is m = callAll f js m := by
  refine hp.foldl_eq' (fun i hi j hj m => ?_) m
  by_cases hij : i = j
  · rw [hij]
  · exact (hf.within j (his j hj)).keeps.comm (hf.within i (his i hi)).keeps
      (hf.apart j (his j hj) i (his i hi) (Ne.symm hij)) m

/-- What the workers' calls of `f` come to. -/
structure AsLoop (T : TasksImpl) (f : SizeT → Prog (∀ i, V i) Unit) (start stop : SizeT)
    (m₀ : ∀ i, V i) : Prop where
  /-- When all workers have finished, the store is what a loop leaves. -/
  result : ∀ as s, exec (T.callsStep f) (T.callsStart m₀) as = some s →
    (∀ t < T.size, s.done t = true) →
    s.mem = callAll f (indices start stop) m₀
  /-- Runs have an end, -/
  ends : ∀ as s, exec (T.callsStep f) (T.callsStart m₀) as = some s →
    as.length ≤ T.work T.start + ((indices start stop).map fun i => (f i).steps m₀).sum
  /-- and a worker can go on until it has finished. -/
  goes_on : ∀ s, ∀ t < T.size, s.done t = false → ∃ s', T.callsStep f s t = some s'

/-- **The workers together are a loop**, whatever the order of their steps. -/
theorem calls_sequential (hT : EveryIndexOnce T start stop) (hf : ApartCalls f F start stop)
    (m₀ : ∀ i, V i) :
    AsLoop T f start stop m₀ where
  result as s hs hd := by
    have h := callsInv_start.exec hT hf hs
    obtain ⟨bs, hbs, -⟩ := h.steps
    have hfin := fun t ht => CallsState.done_iff.mp (hd t ht)
    have hperm := hT.log_perm (reachable_of_exec hbs) fun t ht => (hfin t ht).1
    have hsettled := h.settled
    rw [settle_ret fun t ht => (hfin t (List.mem_range.mp ht)).2] at hsettled
    rw [hsettled]
    exact callAll_perm hf hperm (fun i hi => hperm.mem_iff.mp hi) m₀
  ends as s hs := by
    have h := callsInv_start.exec hT hf hs
    obtain ⟨bs, hbs, hlen⟩ := h.steps
    obtain ⟨more, hmore⟩ := hT.log_extends hbs
    have hsum := (hmore.map fun i => (f i).steps m₀).sum_eq
    rw [List.map_append, List.sum_append] at hsum
    have := hT.ends bs _ hbs
    rw [List.nil_append] at hlen
    omega
  goes_on _ _ ht hd := callsStep_of_not_done hT ht hd

/-! ### A submit -/

variable {granular num : SizeT}

theorem everyIndexOnce_submit (worksteal : Bool) (hle : start ≤ stop) (hg : 1 ≤ granular)
    (hnum : 1 ≤ num) (hlt : num.toNat < 2 ^ 32)
    (hroom : stop.toNat + ((partsOf (stop - start) granular num).toNat + 1) * granular.toNat <
      2 ^ 64) :
    ∃ ranges, submitRanges start stop granular num = some ranges ∧
      (start = 0 → submitEndRanges stop granular num = some ranges) ∧
        EveryIndexOnce ⟨ranges, granular, worksteal⟩ start stop := by
  have hg' : 0 < granular.toNat := by bv_omega
  have hlen : (stop - start).toNat = stop.toNat - start.toNat := by bv_omega
  have hle' : start.toNat ≤ stop.toNat := hle
  have hend : start = 0 → submitEndRanges stop granular num =
      submitRanges start stop granular num := by
    rintro rfl
    have hsub : stop - 0 = stop := BitVec.sub_zero stop
    rw [submitRanges, hsub, submitEndRanges]
  obtain ⟨n, hn⟩ : ∃ n, partsOf (stop - start) granular num = n := ⟨_, rfl⟩
  rw [hn] at hroom
  have hone : stop.toNat + granular.toNat < 2 ^ 64 := by
    rw [Nat.add_mul, Nat.one_mul] at hroom
    omega
  have hparts : (partsOf (stop - start) granular num).toNat = _ := toNat_partsOf hg' (by omega)
  rw [hn] at hparts
  rcases Nat.eq_zero_or_pos n.toNat with h0 | h0
  · have hz : (stop - start).toNat = 0 :=
      len_eq_zero hg' (show 0 < num.toNat by bv_omega) (by omega) (by rw [hn, h0])
    have hnil : submitRanges start stop granular num = some [] := by
      rw [submitRanges, cutRanges, hn, if_pos (BitVec.eq_of_toNat_eq h0)]
    refine ⟨[], hnil, fun hs => (hend hs).trans hnil,
      everyIndexOnce_cut (c := fun _ => start.toNat) monotone_const rfl hg' ?_ rfl ?_⟩
    · show start.toNat + (0 + 1) * granular.toNat < 2 ^ 64
      omega
    · show start.toNat = stop.toNat
      omega
  · have hcut := cutRanges_eq (b := start) hn h0 (by omega)
    have hlast : cutPoint start.toNat (stop - start).toNat n.toNat n.toNat = stop.toNat := by
      rw [hlen]
      exact cutPoint_stop hle' h0
    refine ⟨_, hcut, fun hs => (hend hs).trans hcut,
      everyIndexOnce_cut (cutPoint_mono start.toNat (stop - start).toNat n.toNat) ?_ hg' ?_
        (cutPoint_zero _ _ _) ?_⟩
    all_goals simp only [TasksImpl.size, List.length_map, List.length_range]
    · rw [hlast]
      exact hroom
    · exact hlast

/-- The submit that begins at zero. -/
theorem everyIndexOnce_submitEnd (worksteal : Bool) (hg : 1 ≤ granular) (hnum : 1 ≤ num)
    (hlt : num.toNat < 2 ^ 32)
    (hroom : stop.toNat + ((partsOf stop granular num).toNat + 1) * granular.toNat < 2 ^ 64) :
    ∃ ranges, submitEndRanges stop granular num = some ranges ∧
    EveryIndexOnce ⟨ranges, granular, worksteal⟩ 0 stop := by
  have hsub : stop - 0 = stop := BitVec.sub_zero stop
  have hle : 0 ≤ stop := BitVec.le_def.mpr (Nat.zero_le _)
  obtain ⟨ranges, -, hend, hT⟩ :=
    everyIndexOnce_submit worksteal hle hg hnum hlt (by rw [hsub]; exact hroom)
  exact ⟨ranges, hend rfl, hT⟩

/-- **A submit is a loop**: whatever the workers' acts and fetch-and-adds are interleaved to, the
store is left as by calls on the indices in increasing order. -/
theorem submit_sequential (worksteal : Bool) (hle : start ≤ stop) (hg : 1 ≤ granular)
    (hnum : 1 ≤ num) (hlt : num.toNat < 2 ^ 32)
    (hroom : stop.toNat + ((partsOf (stop - start) granular num).toNat + 1) * granular.toNat <
      2 ^ 64)
    (hf : ApartCalls f F start stop) (m₀ : ∀ i, V i) :
    ∃ ranges, submitRanges start stop granular num = some ranges ∧
      (start = 0 → submitEndRanges stop granular num = some ranges) ∧
      AsLoop ⟨ranges, granular, worksteal⟩ f start stop m₀ := by
  obtain ⟨ranges, hr, hend, hT⟩ := everyIndexOnce_submit worksteal hle hg hnum hlt hroom
  exact ⟨ranges, hr, hend, calls_sequential hT hf m₀⟩

/-- A submit of the indices below `stop` can leave `m'` where it finds `m`. -/
def Submitted (stop granular num : SizeT) (worksteal : Bool) (f : SizeT → Prog (∀ i, V i) Unit)
    (m m' : ∀ i, V i) : Prop :=
  ∃ ranges as s, submitEndRanges stop granular num = some ranges ∧
    exec (TasksImpl.callsStep ⟨ranges, granular, worksteal⟩ f)
      (TasksImpl.callsStart ⟨ranges, granular, worksteal⟩ m) as = some s ∧
    (∀ t < ranges.length, s.done t = true) ∧ s.mem = m'

/-- It leaves what a loop leaves, and it does leave it. -/
theorem submitted_iff {worksteal : Bool} (hg : 1 ≤ granular) (hnum : 1 ≤ num)
    (hlt : num.toNat < 2 ^ 32)
    (hroom : stop.toNat + ((partsOf stop granular num).toNat + 1) * granular.toNat < 2 ^ 64)
    (hf : ApartCalls f F 0 stop) {m m' : ∀ i, V i} :
    Submitted stop granular num worksteal f m m' ↔ m' = callAll f (indices 0 stop) m := by
  obtain ⟨ranges, hend, hT⟩ := everyIndexOnce_submitEnd worksteal hg hnum hlt hroom
  have hseq := calls_sequential hT hf m
  constructor
  · rintro ⟨ranges', as, s, hr, hs, hd, rfl⟩
    obtain rfl := Option.some.inj (hend.symm.trans hr)
    exact hseq.result as s hs hd
  · rintro rfl
    obtain ⟨as, s, hs, hstuck⟩ := exists_stuck hseq.ends
    have hd : ∀ t < ranges.length, s.done t = true := fun t ht => by
      by_contra hd
      obtain ⟨s', hs'⟩ := hseq.goes_on s t ht (by simpa using hd)
      rw [hstuck t] at hs'
      cases hs'
    exact ⟨ranges, as, s, hend, hs, hd, hseq.result as s hs hd⟩

end Calls

/-- Read a cell, and write its double to it. -/
def double (i : SizeT) : Prog (SizeT → ℕ) Unit := do
  let x ← Prog.read fun m => m i
  Prog.write fun m => Function.update m i (2 * x)

theorem double_apart (start stop : SizeT) :
    ApartCalls double (fun i => ⟨fun _ => False, (· = i)⟩) start stop where
  within i _ := by
    refine .bind (.read fun m m' hm => hm i (.inr rfl)) fun x =>
      .write ⟨fun m j hj => Function.update_of_ne hj _ _, ?_⟩
    rintro m m' - j rfl
    rw [Function.update_self, Function.update_self]
  apart i _ j _ hij := by
    constructor
    · rintro k rfl (hk | hk)
      · exact hk
      · exact hij hk
    · rintro k rfl (hk | hk)
      · exact hk
      · exact hij hk.symm

/-- Ten cells doubled by a gang of three, in chunks of three. -/
theorem submit_sequential_double : ∃ ranges, submitRanges 0 10 3 3 = some ranges ∧
    ((0 : SizeT) = 0 → submitEndRanges 10 3 3 = some ranges) ∧
      AsLoop ⟨ranges, 3, true⟩ double 0 10 fun _ => 1 :=
  submit_sequential true (by decide) (by decide) (by decide) (by decide) (by decide)
    (double_apart 0 10) fun _ => 1

end NetworkDemo.Gang
