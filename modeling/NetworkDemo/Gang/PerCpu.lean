import NetworkDemo.Gang.FlagWord
import NetworkDemo.Gang.FullRange

/-!
# `submitPerCpu`

The range list of `submitPerCpu` is that of a submit to the threads of one CPU, copied for
each of the others. Only as many workers run as one copy has ranges.

* `submitPerCpu_eq` — the ranges are `cpu_num` times those between the cut points.
* `perCpu_stolen` — with work stealing the workers go through all the copies;
* `perCpu_plain` — without, through the first.
* `perCpu_iff` — exactly when each index is called once for each CPU.
-/

namespace NetworkDemo.Gang

open Foundations

/-! ### The call -/

/-- What `submitPerCpu` comes to: it returns, it aborts, or the tasks are run with `n` workers. -/
inductive PerCpu where
  | nothing
  | aborts
  | tasks (n : SizeT) (ranges : List Range)
  deriving DecidableEq

/-- `ranges.emplace_back(ranges[i])`. -/
def emplaceCopy (ranges : List Range) (i : ℕ) : List Range := ranges ++ [ranges.getD i default]

/-- The two loops that append the copies. -/
def copyRanges (cpuNum n : SizeT) (ranges : List Range) : Option (List Range) :=
  (forUnsigned (cpuNum - 1) (fun copied _ => copied.bind
    (forUnsigned n emplaceCopy unsignedTurns 0)) unsignedTurns 0
    (some ranges)).join

/-- `submitPerCpu(end, f, granular, worksteal)` up to the tasks' running: none if a loop does not
end. -/
def submitPerCpu (stop granular num cpuNum : SizeT) : Option PerCpu :=
  let n := partsOf stop granular (num / cpuNum)
  if n = 0 then some .nothing
  else if n % cpuNum ≠ 0 then some .aborts
  else ((partSizes stop n).bind (partRanges 0 n)).bind fun ranges =>
    (copyRanges cpuNum n ranges).map (.tasks n)

/-- The workers in `tasks->run`: main alone, or those that `run` lets in when `reinit(n)` has
published the round at generation `gen`. -/
def perCpuWorkers (num : ℕ) (gen : Sync.U32) (n : ℕ) : Finset ℕ :=
  if n = 1 then {0} else participants num (gen + Sync.BAR_INCR) (reinitFlag gen n)

/-- When the call returns, `f` has been called `cpu_num` times on each index below `stop`, and on
nothing else. -/
def PerCpuRight (stop granular num cpuNum : SizeT) (worksteal : Bool) (gen : Sync.U32) : Prop :=
  match submitPerCpu stop granular num cpuNum with
  | some .nothing => cpuNum.toNat • Multiset.range stop.toNat = 0
  | some (.tasks n ranges) =>
    Does ⟨ranges, granular, worksteal⟩ (perCpuWorkers num.toNat gen n.toNat)
      (cpuNum.toNat • Multiset.range stop.toNat)
  | _ => False

/-! ### The copies -/

section Copies

variable {n cpuNum : SizeT} {ranges : List Range}

theorem emplaceCopies (more : List Range) :
    (List.range ranges.length).foldl emplaceCopy (ranges ++ more) = ranges ++ more ++ ranges := by
  have hall : ∀ m ≤ ranges.length, (List.range m).foldl emplaceCopy (ranges ++ more) =
      ranges ++ more ++ ranges.take m := by
    intro m hm
    induction m with
    | zero => rw [List.take_zero, List.append_nil]; rfl
    | succ m ih =>
      have hget : (ranges ++ more ++ ranges.take m).getD m default = ranges[m] := by
        rw [List.getD_eq_getElem?_getD, List.append_assoc, List.getElem?_append_left (by omega),
          List.getElem?_eq_getElem (by omega), Option.getD_some]
      rw [List.range_succ, List.foldl_append, ih (by omega), List.foldl_cons, List.foldl_nil,
        emplaceCopy, hget, List.append_assoc _ (ranges.take m),
          List.take_succ_eq_append_getElem (by omega)]
  rw [hall _ le_rfl, List.take_length]

/-- As many copies as there are CPUs. -/
theorem copyRanges_eq (hn : ranges.length = n.toNat) (hlt : n.toNat < 2 ^ 32)
    (hcpu : 1 ≤ cpuNum.toNat) (hcpu32 : cpuNum.toNat < 2 ^ 32) :
    copyRanges cpuNum n ranges = some (List.replicate cpuNum.toNat ranges).flatten := by
  have hsub : (cpuNum - 1).toNat = cpuNum.toNat - 1 := by bv_omega
  have hinner : ∀ more, forUnsigned n emplaceCopy unsignedTurns 0 (ranges ++ more) =
      some (ranges ++ more ++ ranges) := fun more => by
    rw [forUnsigned_eq hlt (by rw [unsignedTurns]; omega), ← hn, emplaceCopies]
  rw [copyRanges, forUnsigned_eq (by omega) (by rw [hsub, unsignedTurns]; omega), hsub]
  have hall : ∀ m, (List.range m).foldl (fun copied _ =>
      copied.bind (forUnsigned n emplaceCopy unsignedTurns 0)) (some ranges) =
      some (List.replicate (m + 1) ranges).flatten := by
    intro m
    induction m with
    | zero => simp
    | succ m ih =>
      rw [List.range_succ, List.foldl_append, ih, List.foldl_cons, List.foldl_nil, Option.bind_some,
        List.replicate_succ, List.flatten_cons, hinner, List.replicate_succ' (n := m + 1),
          List.flatten_append, List.replicate_succ, List.flatten_cons,
        List.flatten_singleton]
  rw [hall, Nat.sub_add_cancel hcpu]
  rfl

end Copies

/-! ### The copies as tasks -/

section Tasks

variable {base : List Range} {k : ℕ} {granular : SizeT} {worksteal : Bool}

/-- The tasks over `k` copies of the ranges. -/
def copiesOf (base : List Range) (k : ℕ) (granular : SizeT) (worksteal : Bool) : TasksImpl :=
  ⟨(List.replicate k base).flatten, granular, worksteal⟩

theorem size_copiesOf : (copiesOf base k granular worksteal).size = k * base.length := by
  simp [TasksImpl.size, copiesOf]

/-- The ranges of the copies are those of one. -/
theorem range_copiesOf {v : ℕ} (hv : v < (copiesOf base k granular worksteal).size) :
    ∃ u < base.length, (copiesOf base k granular worksteal).range v =
      TasksImpl.range ⟨base, granular, worksteal⟩ u := by
  have hmem : (copiesOf base k granular worksteal).range v ∈ (List.replicate k base).flatten := by
    rw [TasksImpl.range, List.getD_eq_getElem _ _ hv]
    exact List.getElem_mem hv
  obtain ⟨l, hl, hr⟩ := List.mem_flatten.mp hmem
  rw [List.eq_of_mem_replicate hl] at hr
  obtain ⟨u, hu, heq⟩ := List.getElem_of_mem hr
  exact ⟨u, hu, heq.symm.trans (List.getD_eq_getElem _ _ hu).symm⟩

/-- The first copy comes first. -/
theorem range_copiesOf_first (hk : 0 < k) {v : ℕ} (hv : v < base.length) :
    (copiesOf base k granular worksteal).range v =
      TasksImpl.range ⟨base, granular, worksteal⟩ v := by
  obtain ⟨m, rfl⟩ : ∃ m, k = m + 1 := ⟨k - 1, by omega⟩
  rw [TasksImpl.range, copiesOf, List.replicate_succ, List.flatten_cons,
    List.getD_append _ _ _ _ hv]
  rfl

theorem unwrapped_copiesOf
    (hU : TasksImpl.Unwrapped ⟨base, granular, worksteal⟩ (Finset.range base.length)) :
    (copiesOf base k granular worksteal).Unwrapped (Finset.range base.length) := by
  intro v hv j hj
  obtain ⟨u, hu, heq⟩ := range_copiesOf hv
  unfold TasksImpl.numChunks at hj
  unfold TasksImpl.ticket
  rw [heq] at hj ⊢
  exact hU u hu j hj

theorem indices_eq_sum (T : TasksImpl) : T.indices (Finset.range T.size) =
    (T.ranges.map fun r => (List.range' r.b.toNat (r.e.toNat - r.b.toNat) : Multiset ℕ)).sum := by
  obtain ⟨ranges, chunkSize, steal⟩ := T
  induction ranges using List.reverseRecOn with
  | nil => rfl
  | append_singleton ranges r ih =>
    have hsame : ∀ v ∈ Finset.range ranges.length,
        TasksImpl.range ⟨ranges ++ [r], chunkSize, steal⟩ v =
        TasksImpl.range ⟨ranges, chunkSize, steal⟩ v :=
          fun v hv => List.getD_append _ _ _ _ (Finset.mem_range.mp hv)
    have hlast : TasksImpl.range ⟨ranges ++ [r], chunkSize, steal⟩ ranges.length = r := by
      simp [TasksImpl.range]
    rw [List.map_append, List.sum_append, ← ih, TasksImpl.indices, TasksImpl.size,
      List.length_append, List.length_singleton, Finset.sum_range_succ, hlast,
        Finset.sum_congr rfl fun v hv => by rw [hsame v hv]]
    simp [TasksImpl.indices, TasksImpl.size]

theorem indices_copiesOf : (copiesOf base k granular worksteal).indices
    (Finset.range (copiesOf base k granular worksteal).size) =
    k • TasksImpl.indices ⟨base, granular, worksteal⟩ (Finset.range base.length) := by
  have hbase := indices_eq_sum ⟨base, granular, worksteal⟩
  rw [TasksImpl.size] at hbase
  rw [indices_eq_sum, hbase, copiesOf, List.map_flatten, List.sum_flatten, List.map_replicate,
    List.map_replicate, List.sum_replicate]

/-- **With work stealing the workers go through all the copies**, -/
theorem perCpu_stolen (hg : 0 < granular.toNat)
    (hU : TasksImpl.Unwrapped ⟨base, granular, true⟩ (Finset.range base.length)) (hk : 0 < k)
    (hpos : 0 < base.length) : Does (copiesOf base k granular true) (Finset.range base.length)
      (k • TasksImpl.indices ⟨base, granular, true⟩ (Finset.range base.length)) := by
  have hle : base.length ≤ (copiesOf base k granular true).size := by
    rw [size_copiesOf]
    exact Nat.le_mul_of_pos_left _ hk
  have hdoes := (unwrapped_copiesOf (k := k) hU).stolen hg rfl (Finset.range_subset_range.mpr hle)
    (Finset.nonempty_range_iff.mpr hpos.ne')
  rwa [indices_copiesOf] at hdoes

/-- **and without through the first.** -/
theorem perCpu_plain (hk : 0 < k) : Does (copiesOf base k granular false) (Finset.range base.length)
    (TasksImpl.indices ⟨base, granular, false⟩ (Finset.range base.length)) := by
  have hdoes := does_plain (T := copiesOf base k granular false) rfl (Finset.range base.length)
  have hsame : (copiesOf base k granular false).indices (Finset.range base.length) =
      TasksImpl.indices ⟨base, granular, false⟩ (Finset.range base.length) :=
    Finset.sum_congr rfl fun v hv => by rw [range_copiesOf_first hk (Finset.mem_range.mp hv)]
  rwa [hsame] at hdoes

/-- Some run comes to its end. -/
theorem Does.exists_finished {T : TasksImpl} {workers : Finset ℕ} {work : Multiset ℕ}
    (h : Does T workers work) (hsub : workers ⊆ Finset.range T.size) :
    ∃ s, (T.team workers).Reachable s ∧ ∀ t ∈ workers, s.worker t = .finished := by
  obtain ⟨bound, hb⟩ := h.ends
  obtain ⟨as, s, hs, hstuck⟩ := exists_stuck hb
  refine ⟨s, Lts.Reach.exec (fun _ _ _ hst => hst) (.init rfl) (fun _ _ _ => trivial) hs,
    fun t ht => ?_⟩
  by_contra hf
  obtain ⟨s', hs'⟩ := step_of_not_finished (Finset.mem_range.mp (hsub ht)) hf
  have hno := hstuck t
  rw [TasksImpl.teamStep, if_pos ht] at hno
  have hstep := hno.symm.trans (TasksImpl.step_eq_some.mp hs').2
  cases hstep

/-- What is done is determined. -/
theorem Does.unique {T : TasksImpl} {workers : Finset ℕ} {work work' : Multiset ℕ}
    (h : Does T workers work) (h' : Does T workers work') (hsub : workers ⊆ Finset.range T.size) :
    work = work' := by
  obtain ⟨s, hs, hf⟩ := h.exists_finished hsub
  exact (h.all s hs hf).symm.trans (h'.all s hs hf)

/-- So without work stealing each index is called for each copy only if there is one. -/
theorem perCpu_plain_iff (hk : 0 < k) {stop : ℕ} (hstop : 0 < stop)
    (hindices : TasksImpl.indices ⟨base, granular, false⟩ (Finset.range base.length) =
      Multiset.range stop) :
    Does (copiesOf base k granular false) (Finset.range base.length) (k • Multiset.range stop) ↔
    k = 1 := by
  have hdoes : Does (copiesOf base k granular false) _ _ := perCpu_plain hk
  rw [hindices] at hdoes
  constructor
  · intro h
    have hsub : Finset.range base.length ⊆ Finset.range (copiesOf base k granular false).size := by
      rw [size_copiesOf]
      exact Finset.range_subset_range.mpr (Nat.le_mul_of_pos_left _ hk)
    have hcard := congrArg Multiset.card (hdoes.unique h hsub)
    rw [Multiset.card_nsmul, Multiset.card_range] at hcard
    exact Nat.eq_of_mul_eq_mul_right hstop (hcard.symm.trans (Nat.one_mul _).symm)
  · rintro rfl
    rwa [one_nsmul]

end Tasks

/-! ### When each index is called once for each CPU -/

section PerCpu

variable {stop granular num cpuNum : SizeT} {gen : Sync.U32}

theorem perCpuWorkers_eq {num n : ℕ} (hle : n ≤ num) (hn : n < 256) :
    perCpuWorkers num gen n = Finset.range n := by
  unfold perCpuWorkers
  split_ifs with h1
  · rw [h1]
    rfl
  · exact participants_own hn hle

/-- The tasks of a call that neither returns at once nor aborts. -/
theorem submitPerCpu_eq {n : SizeT} (hn : partsOf stop granular (num / cpuNum) = n)
    (hpos : 0 < n.toNat) (hlt : n.toNat < 2 ^ 32) (hcpu : 1 ≤ cpuNum.toNat)
    (hcpu32 : cpuNum.toNat < 2 ^ 32) (hdvd : n % cpuNum = 0) :
    submitPerCpu stop granular num cpuNum =
      some (.tasks n
        (List.replicate cpuNum.toNat
        (cutList (cutPoint 0 stop.toNat n.toNat) n.toNat)).flatten) := by
  have hne : n ≠ 0 := fun h => by
    rw [h] at hpos
    exact absurd hpos (lt_irrefl 0)
  have hcut := cutRanges_eq (b := 0) hn hpos hlt
  unfold cutRanges at hcut
  rw [hn, if_neg hne] at hcut
  unfold submitPerCpu
  rw [hn, if_neg hne, if_neg (not_not_intro hdvd), hcut, Option.bind_some,
    copyRanges_eq (by rw [List.length_map, List.length_range]) hlt hcpu hcpu32]
  rfl

/-- A call that returns at once has called `f` on nothing. -/
theorem perCpuRight_nothing {worksteal : Bool} (hn : partsOf stop granular (num / cpuNum) = 0)
    (hcpu : 1 ≤ cpuNum.toNat) :
    PerCpuRight stop granular num cpuNum worksteal gen ↔ stop = 0 := by
  have hcall : submitPerCpu stop granular num cpuNum = some .nothing := by
    unfold submitPerCpu
    rw [hn, if_pos rfl]
  unfold PerCpuRight
  rw [hcall]
  constructor
  · intro h
    have hcard := congrArg Multiset.card h
    rw [Multiset.card_nsmul, Multiset.card_range, Multiset.card_zero, Nat.mul_eq_zero] at hcard
    exact BitVec.eq_of_toNat_eq (hcard.resolve_left (by omega))
  · rintro rfl
    exact nsmul_zero _

/-- One copy covers the indices below `len`. -/
theorem indices_cutList {len m : ℕ} (hm : 0 < m) (hlen : len < 2 ^ 64) (worksteal : Bool) :
    TasksImpl.indices ⟨cutList (cutPoint 0 len m) m, granular, worksteal⟩
      (Finset.range m) = Multiset.range len := by
  have hlast : cutPoint 0 len m m = len := by rw [cutPoint_last _ _ hm, Nat.zero_add]
  have h := (cutAt_cutList (cutPoint_mono 0 len m) (by rwa [hlast]) granular worksteal).indices_eq
  rwa [TasksImpl.size, length_cutList, cutPoint_zero, hlast, Nat.sub_zero, ← List.range_eq_range']
    at h

/-- What the workers do with the copies. -/
theorem does_copies_iff {k m : ℕ} (hg : 0 < granular.toNat) (hk : 0 < k) (hm : 0 < m)
    (hle : m ≤ stop.toNat) (hlast : lastTicket 0 stop.toNat granular.toNat m < 2 ^ 64)
    (worksteal : Bool) :
    Does (copiesOf (cutList (cutPoint 0 stop.toNat m) m) k granular worksteal) (Finset.range m)
      (k • Multiset.range stop.toNat) ↔
      worksteal = true ∨ k = 1 := by
  have hsize := length_cutList (cutPoint 0 stop.toNat m) m
  have hindices : TasksImpl.indices ⟨cutList (cutPoint 0 stop.toNat m) m, granular, worksteal⟩ _ =
      _ :=
    indices_cutList hm stop.isLt worksteal
  cases worksteal with
  | true =>
    have hat : CutAt ⟨cutList (cutPoint 0 stop.toNat m) m, granular,
        true⟩ (cutPoint 0 stop.toNat m) :=
      cutAt_cutList (cutPoint_mono 0 stop.toNat m)
        (by rw [cutPoint_last _ _ hm, Nat.zero_add]; exact stop.isLt) granular true
    have hU : TasksImpl.Unwrapped ⟨cutList (cutPoint 0 stop.toNat m) m, granular,
        true⟩ (Finset.range m) := by
      refine (unwrapped_iff hat hg hsize hm ((Nat.le_div_iff_mul_le hm).mpr (by omega))).mpr ?_
      rwa [Nat.zero_add]
    have hdoes := perCpu_stolen (k := k) hg (by rwa [hsize]) hk (by omega)
    rw [hsize, hindices] at hdoes
    exact iff_of_true hdoes (.inl rfl)
  | false =>
    rw [or_iff_right Bool.false_ne_true, ← perCpu_plain_iff hk (hm.trans_le hle)
      (by rwa [hsize]), hsize]

/-- **When `submitPerCpu` repeats the range once for each CPU**: if and only if there is nothing to
do, or each CPU has a thread and either there is work stealing or there is one CPU. -/
theorem perCpu_iff (worksteal : Bool) (gen : Sync.U32) (hg : 1 ≤ granular) (hnum : num.toNat ≤ 255)
    (hcpu : 1 ≤ cpuNum) (hab : submitPerCpu stop granular num cpuNum ≠ some .aborts)
    (hov : NoWrap 0 stop.toNat granular.toNat (num.toNat / cpuNum.toNat)) :
    PerCpuRight stop granular num cpuNum worksteal gen ↔
      stop = 0 ∨ cpuNum ≤ num ∧ (worksteal = true ∨ cpuNum = 1) := by
  have hg' : 0 < granular.toNat := by bv_omega
  have hcpu' : 1 ≤ cpuNum.toNat := by bv_omega
  have hroom : stop.toNat + granular.toNat ≤ 2 ^ 64 := by
    rcases hov with h0 | h
    · rw [← h0, Nat.zero_add]
      exact granular.isLt.le
    · exact h.1
  have hn : (partsOf stop granular (num / cpuNum)).toNat =
      min (stop.toNat ⌈/⌉ granular.toNat) (num.toNat / cpuNum.toNat) := by
    rw [toNat_partsOf hg' hroom, BitVec.toNat_udiv]
    rfl
  have hceil : 0 < stop.toNat ⌈/⌉ granular.toNat ↔ 0 < stop.toNat := by
    rw [lt_ceilDiv_iff hg', Nat.mul_zero]
  have hthreads : 0 < num.toNat / cpuNum.toNat ↔ cpuNum ≤ num := by
    rw [Nat.div_pos_iff, BitVec.le_def]
    exact and_iff_right hcpu'
  have hstop : stop = 0 ↔ stop.toNat = 0 := BitVec.toNat_inj.symm
  generalize hparts : partsOf stop granular (num / cpuNum) = n at *
  by_cases h0 : n.toNat = 0
  · -- no index or no thread
    rw [perCpuRight_nothing (hparts.trans (BitVec.eq_of_toNat_eq h0)) hcpu']
    refine (or_iff_left_of_imp fun h => ?_).symm
    have hpos := hthreads.mpr h.1
    by_contra hne
    rw [hstop] at hne
    have := hceil.mpr (by omega)
    omega
  · -- the tasks are run
    have hdvd : n % cpuNum = 0 := by
      by_contra hne
      refine hab ?_
      unfold submitPerCpu
      rw [hparts, if_neg fun h => h0 (by rw [h]; rfl), if_pos hne]
    have hle : num.toNat / cpuNum.toNat ≤ num.toNat := Nat.div_le_self _ _
    have hcpunum := hthreads.mp (by omega)
    have hspos : 0 < stop.toNat := hceil.mp (by omega)
    have hceil' : stop.toNat ⌈/⌉ granular.toNat ≤ stop.toNat :=
      (ceilDiv_le_iff_le_mul hg').mpr (Nat.le_mul_of_pos_left _ hg')
    have hcall := submitPerCpu_eq hparts (by omega) (by omega) hcpu'
      (by rw [BitVec.le_def] at hcpunum; omega) hdvd
    have hlast : lastTicket 0 stop.toNat granular.toNat n.toNat < 2 ^ 64 := by
      rw [hn]
      exact (hov.resolve_left hspos.ne).2
    have hone : cpuNum = 1 ↔ cpuNum.toNat = 1 := BitVec.toNat_inj.symm
    unfold PerCpuRight
    rw [hcall]
    dsimp only
    rw [perCpuWorkers_eq (by omega) (by omega), or_iff_right (by rw [hstop]; omega),
      and_iff_right hcpunum, hone]
    exact does_copies_iff hg' hcpu' (by omega) (by omega) hlast worksteal

/-- Ten indices for two CPUs of two threads each, with work stealing. -/
theorem perCpu_iff_ten : PerCpuRight 10 1 4 2 true 0 ↔
    (10 : SizeT) = 0 ∨ (2 : SizeT) ≤ 4 ∧ (true = true ∨ (2 : SizeT) = 1) :=
  perCpu_iff true 0 (by decide) (by decide) (by decide) (by decide) (.inr ⟨by decide, by decide⟩)

/-- Without work stealing each of four indices is called once for the two CPUs; and if there are
more CPUs than threads, none is called. -/
theorem not_perCpuRight : ¬ PerCpuRight 4 1 4 2 false 0 ∧ ¬ PerCpuRight 4 1 1 2 true 0 := by
  constructor
  · have hcall : submitPerCpu 4 1 4 2 = some (.tasks 2 [⟨0, 2⟩, ⟨2, 4⟩, ⟨0, 2⟩, ⟨2, 4⟩]) := by
      decide
    unfold PerCpuRight
    rw [hcall]
    intro h
    have hplain := does_plain (T := ⟨[⟨0, 2⟩, ⟨2, 4⟩, ⟨0, 2⟩, ⟨2, 4⟩], 1, false⟩) rfl
      (perCpuWorkers 4 0 2)
    exact absurd (hplain.unique h (by decide)) (by decide)
  · have hcall : submitPerCpu 4 1 1 2 = some .nothing := by decide
    unfold PerCpuRight
    rw [hcall]
    decide

end PerCpu

end NetworkDemo.Gang
