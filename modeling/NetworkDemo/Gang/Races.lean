import NetworkDemo.Foundations.Pools
import NetworkDemo.Gang.Calls

/-!
# Calls that race

In `Gang.Calls` the calls of a submit do not get in each other's way. Here they may: `dedup` has its
tasks race for the places of an index with `CAS`. Then what is left depends on how the acts
were interleaved, and the workers, their ranges and their fetch-and-adds are still
nobody's business: a submit is a pool of calls, one for each index (`Foundations.Pools`).

* `PoolInv` — beside a run of the workers there is one of the pool: the call of an index that
  has not been logged has not begun, that of a worker is where the worker is, the others are over.
* `submit_interleaves` — when all workers have finished they have taken the calls once each,
  interleaved; and they finish, after at most the steps of the tasks and the acts of the calls.
-/

namespace NetworkDemo.Gang

open Foundations

variable {ι : Type} {V : ι → Type} {T : TasksImpl} {f : SizeT → Prog (∀ i, V i) Unit}
    {start stop : SizeT} {m₀ : ∀ i, V i}
  {s s' : CallsState V} {p p' : Pool SizeT (∀ i, V i)} {as : List ℕ} {t : ℕ}

/-! ### The invariant -/

/-- Where the calls are that have begun. -/
structure Running (log : List SizeT) (rest : ℕ → Prog (∀ i, V i) Unit)
    (left : SizeT → Prog (∀ i, V i) Unit) (call : ℕ → Option SizeT) :
    Prop extends Called log call where
  same : ∀ t i, call t = some i → left i = rest t
  idle : ∀ t, call t = none → rest t = .ret ()
  ended : ∀ i ∈ log, (∀ t, call t ≠ some i) → left i = .ret ()

/-- **The invariant**, after the steps `as`. -/
structure PoolInv (T : TasksImpl) (f : SizeT → Prog (∀ i, V i) Unit) (start stop : SizeT)
    (m₀ : ∀ i, V i) (as : List ℕ) (s : CallsState V) (p : Pool SizeT (∀ i, V i)) : Prop where
  /-- The steps are those of the workers and those of the pool. -/
  steps : ∃ bs is, exec T.step T.start bs = some s.tasks ∧
    exec Pool.step (Pool.start (indices start stop) f m₀) is = some p ∧
      as.length = bs.length + is.length
  mem : p.mem = s.mem
  calls : ∃ call, Running s.tasks.log s.rest p.rest call
  waiting : ∀ i, i ∉ s.tasks.log → p.rest i = if i ∈ indices start stop then f i else .ret ()
  outside : ∀ t, T.size ≤ t → s.rest t = .ret ()

theorem poolInv_start : PoolInv T f start stop m₀ [] (T.callsStart m₀)
    (Pool.start (indices start stop) f m₀) where
  steps := ⟨[], [], rfl, rfl, rfl⟩
  mem := rfl
  calls := ⟨fun _ => none, ⟨by simp, by simp⟩, by simp, fun _ _ => rfl, fun i hi => by cases hi⟩
  waiting _ _ := rfl
  outside _ _ := rfl

/-- A worker goes on with its call. -/
theorem PoolInv.act (h : PoolInv T f start stop m₀ as s p) {g : (∀ i, V i) → ∀ i, V i}
    {next : (∀ i, V i) → Prog (∀ i, V i) Unit} (hr : s.rest t = .act g next) :
    ∃ p', PoolInv T f start stop m₀ (as ++ [t])
      { s with rest := Function.update s.rest t (next s.mem), mem := g s.mem } p' := by
  obtain ⟨call, hcall⟩ := h.calls
  obtain ⟨i, hi⟩ : ∃ i, call t = some i := by
    cases hc : call t with
    | none =>
      rw [hcall.idle t hc] at hr
      cases hr
    | some i => exact ⟨i, rfl⟩
  have hstep := Pool.step_act ((hcall.same t i hi).trans hr)
  rw [h.mem] at hstep
  obtain ⟨bs, is, hbs, his, hlen⟩ := h.steps
  refine ⟨⟨Function.update p.rest i (next s.mem), g s.mem⟩,
    { steps := ⟨bs, is ++ [i], hbs, ?_, ?_⟩
      mem := rfl
      calls := ⟨call, hcall.toCalled, fun u j hu => ?_, fun u hu => ?_, fun j hj hnone => ?_⟩
      waiting := fun j hj => ?_
      outside := fun u hu => ?_ }⟩
  · rw [exec_append, his, Option.bind_some, exec, hstep]
    rfl
  · rw [List.length_append, List.length_append, List.length_singleton, hlen]
    rfl
  · show Function.update p.rest i (next s.mem) j = Function.update s.rest t (next s.mem) u
    by_cases hut : u = t
    · obtain rfl : i = j := Option.some.inj (hi.symm.trans (hut ▸ hu))
      rw [hut, Function.update_self, Function.update_self]
    · have hji : j ≠ i := fun hji => hut (hcall.alone u t i (hji ▸ hu) hi)
      rw [Function.update_of_ne hut, Function.update_of_ne hji]
      exact hcall.same u j hu
  · have hut : u ≠ t := fun hut => by
      rw [hut, hi] at hu
      cases hu
    show Function.update s.rest t (next s.mem) u = _
    rw [Function.update_of_ne hut]
    exact hcall.idle u hu
  · have hji : j ≠ i := fun hji => hnone t (hji ▸ hi)
    show Function.update p.rest i (next s.mem) j = _
    rw [Function.update_of_ne hji]
    exact hcall.ended j hj hnone
  · have hji : j ≠ i := fun hji => hj (hji ▸ hcall.logged t i hi)
    show Function.update p.rest i (next s.mem) j = _
    rw [Function.update_of_ne hji]
    exact h.waiting j hj
  · have hut : u ≠ t := fun hut => by
      rw [← hut, h.outside u hu] at hr
      cases hr
    show Function.update s.rest t (next s.mem) u = _
    rw [Function.update_of_ne hut]
    exact h.outside u hu

/-- A worker takes a step of its own, and may begin a call. -/
theorem PoolInv.taskStep (h : PoolInv T f start stop m₀ as s p) (hT : EveryIndexOnce T start stop)
    (hr : s.rest t = .ret ()) {tasks : TasksState} (hs : T.step s.tasks t = some tasks) :
    PoolInv T f start stop m₀ (as ++ [t])
      { s with
        tasks := tasks,
        rest := Function.update s.rest t ((T.callOf s.tasks t).elim (.ret ()) f) } p := by
  obtain ⟨bs, is, hbs, his, hlen⟩ := h.steps
  obtain ⟨call, hcall⟩ := h.calls
  have hbs' : exec T.step T.start (bs ++ [t]) = some tasks := by
    rw [exec_append, hbs, Option.bind_some, exec, hs]
    rfl
  have hmem := hT.log_mem hbs'
  have hnew := callOf_new hs (hT.log_nodup hbs')
  refine
    { steps := ⟨bs ++ [t], is, hbs', his, ?_⟩
      mem := h.mem
      calls := ⟨_, hcall.toCalled.begin hs (hT.log_nodup hbs'), fun u i hu => ?_, fun u hu => ?_,
        fun i hi hnone => ?_⟩
      waiting := fun i hi => h.waiting i fun hm => hi ?_
      outside := fun u hu => ?_ }
  · rw [List.length_append, List.length_append, List.length_singleton]
    omega
  · show p.rest i = Function.update s.rest t _ u
    by_cases hut : u = t
    · -- the call that begins
      rw [hut, Function.update_self] at hu ⊢
      obtain ⟨hi, hni⟩ := hnew i hu
      rw [h.waiting i hni, if_pos (hmem i hi), hu]
      rfl
    · rw [Function.update_of_ne hut] at hu ⊢
      exact hcall.same u i hu
  · show Function.update s.rest t _ u = _
    by_cases hut : u = t
    · rw [hut, Function.update_self] at hu ⊢
      rw [hu]
      rfl
    · rw [Function.update_of_ne hut] at hu ⊢
      exact hcall.idle u hu
  · by_cases hm : i ∈ s.tasks.log
    · by_cases ht : call t = some i
      · -- the call that the worker has come out of
        exact (hcall.same t i ht).trans hr
      · refine hcall.ended i hm fun u hu => ?_
        by_cases hut : u = t
        · exact ht (hut ▸ hu)
        · exact hnone u (by rw [Function.update_of_ne hut]; exact hu)
    · have hlast : T.callOf s.tasks t = some i := by
        rw [step_log hs, List.mem_append, Option.mem_toList] at hi
        exact hi.resolve_left hm
      exact absurd (by rw [Function.update_self]; exact hlast) (hnone t)
  · rw [step_log hs]
    exact List.mem_append_left _ hm
  · have ht : t < T.size := (TasksImpl.step_eq_some.mp hs).1
    have hut : u ≠ t := by omega
    show Function.update s.rest t _ u = _
    rw [Function.update_of_ne hut]
    exact h.outside u hu

theorem PoolInv.exec (h : PoolInv T f start stop m₀ as s p) (hT : EveryIndexOnce T start stop)
    {bs : List ℕ} (hs : Foundations.exec (T.callsStep f) s bs = some s') :
    ∃ p', PoolInv T f start stop m₀ (as ++ bs) s' p' := by
  induction bs generalizing s p as with
  | nil =>
    obtain rfl := Option.some.inj hs
    rw [List.append_nil]
    exact ⟨p, h⟩
  | cons t bs ih =>
    obtain ⟨s₁, h₁, h₂⟩ := Option.bind_eq_some_iff.mp hs
    rw [List.append_cons]
    obtain ⟨g, next, hr, rfl⟩ | ⟨tasks, hr, htasks, rfl⟩ := callsStep_cases h₁
    · obtain ⟨p₁, hp⟩ := h.act hr
      exact ih hp h₂
    · exact ih (h.taskStep hT hr htasks) h₂

/-! ### A submit -/

/-- When all workers have finished, so has the pool. -/
theorem PoolInv.finished (h : PoolInv T f start stop m₀ as s p) (hT : EveryIndexOnce T start stop)
    (hd : ∀ t < T.size, s.done t = true) : p.Finished := fun i => by
  obtain ⟨bs, -, hbs, -⟩ := h.steps
  obtain ⟨call, hcall⟩ := h.calls
  have hfin := fun t ht => CallsState.done_iff.mp (hd t ht)
  have hperm := hT.log_perm (reachable_of_exec hbs) fun t ht => (hfin t ht).1
  by_cases hi : i ∈ s.tasks.log
  · by_cases ht : ∃ t, call t = some i
    · obtain ⟨t, ht⟩ := ht
      rw [hcall.same t i ht]
      rcases Nat.lt_or_ge t T.size with hlt | hge
      · exact (hfin t hlt).2
      · exact h.outside t hge
    · exact hcall.ended i hi (not_exists.mp ht)
  · rw [h.waiting i hi, if_neg fun hm => hi (hperm.mem_iff.mpr hm)]

/-- What the workers' calls of `f` come to when they race. -/
structure AsPool (T : TasksImpl) (f : SizeT → Prog (∀ i, V i) Unit) (start stop : SizeT)
    (m₀ : ∀ i, V i) : Prop where
  /-- When all workers have finished, each index has been called once, and the acts of the calls
  were interleaved. -/
  result : ∀ as s, exec (T.callsStep f) (T.callsStart m₀) as = some s →
    (∀ t < T.size, s.done t = true) →
    Interleaves (indices start stop) f m₀ s.mem
  /-- Runs have an end if the calls have, -/
  ends : ∀ b : SizeT → ℕ, (∀ i ∈ indices start stop, (f i).AtMost (b i)) → ∀ as s,
    exec (T.callsStep f) (T.callsStart m₀) as = some s →
      as.length ≤ T.work T.start + ((indices start stop).map b).sum
  /-- and a worker can go on until it has finished. -/
  goes_on : ∀ s, ∀ t < T.size, s.done t = false → ∃ s', T.callsStep f s t = some s'

/-- **The workers together are a pool**, whatever the calls share. -/
theorem calls_interleave (hT : EveryIndexOnce T start stop) (f : SizeT → Prog (∀ i, V i) Unit)
    (m₀ : ∀ i, V i) :
    AsPool T f start stop m₀ where
  result as s hs hd := by
    obtain ⟨p, hp⟩ := poolInv_start.exec hT hs
    obtain ⟨-, is, -, his, -⟩ := hp.steps
    exact ⟨is, p, his, hp.finished hT hd, hp.mem⟩
  ends b hb as s hs := by
    obtain ⟨p, hp⟩ := poolInv_start.exec hT hs
    obtain ⟨bs, is, hbs, his, hlen⟩ := hp.steps
    have hwork := hT.ends bs _ hbs
    have hacts := Pool.length_le hb indices_nodup his
    rw [List.nil_append] at hlen
    omega
  goes_on _ _ ht hd := callsStep_of_not_done hT ht hd

variable {granular num : SizeT}

/-- **A submit is a pool** of calls of `f`, one for each index, whatever they share. -/
theorem submit_interleaves (worksteal : Bool) (hle : start ≤ stop) (hg : 1 ≤ granular)
    (hnum : 1 ≤ num) (hlt : num.toNat < 2 ^ 32)
    (hroom : stop.toNat + ((partsOf (stop - start) granular num).toNat + 1) * granular.toNat <
      2 ^ 64)
    (f : SizeT → Prog (∀ i, V i) Unit) (m₀ : ∀ i, V i) :
    ∃ ranges, submitRanges start stop granular num = some ranges ∧
      (start = 0 → submitEndRanges stop granular num = some ranges) ∧
      AsPool ⟨ranges, granular, worksteal⟩ f start stop m₀ := by
  obtain ⟨ranges, hr, hend, hT⟩ := everyIndexOnce_submit worksteal hle hg hnum hlt hroom
  exact ⟨ranges, hr, hend, calls_interleave hT f m₀⟩

/-- A cell that is read, and written. -/
def increment (_ : SizeT) : Prog (Unit → ℕ) Unit := do
  let x ← Prog.read fun m => m ()
  Prog.write fun m => Function.update m () (x + 1)

/-- Ten increments of one cell by a gang of three, in chunks of three. -/
theorem submit_interleaves_increment : ∃ ranges, submitRanges 0 10 3 3 = some ranges ∧
    ((0 : SizeT) = 0 → submitEndRanges 10 3 3 = some ranges) ∧
      AsPool (V := fun _ : Unit => ℕ) ⟨ranges, 3, true⟩ increment 0 10 fun _ => 0 :=
  submit_interleaves true (by decide) (by decide) (by decide) (by decide)
    (by decide) increment fun _ => 0

end NetworkDemo.Gang
