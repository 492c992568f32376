import NetworkDemo.Gang.Tasks
import NetworkDemo.Foundations.Tickets

/-!
# Teams

Some of the workers that have a range run the tasks; there may be more ranges than workers.

With work stealing the lower ends of the ranges are counters that give out chunks, each a
multiple of `granular` above the range's beginning, in 64 bits. A worker does what it would
do with counters that are not bounded, as long as what it reads has not wrapped
(`Tracks.step`), and so it is in every run if no value that is read has (`Unwrapped`).

* `Unwrapped.stolen` — each index of each range is called once, with stealing.
* `does_plain` — without, those of the ranges that have a worker.
-/

namespace NetworkDemo.Gang

open Foundations

/-! ### Some of the workers -/

/-- A step of one of the workers in `run`. -/
def TasksImpl.teamStep (T : TasksImpl) (workers : Finset ℕ) (s : TasksState) (t : ℕ) :
    Option TasksState :=
  if t ∈ workers then T.workerStep s t else none

/-- Some workers running the tasks. -/
def TasksImpl.team (T : TasksImpl) (workers : Finset ℕ) : Lts TasksState ℕ where
  init s := s = T.start
  step s t s' := T.teamStep workers s t = some s'

theorem TasksImpl.teamStep_range (T : TasksImpl) : T.teamStep (Finset.range T.size) = T.step := by
  funext s t
  simp only [teamStep, step, Finset.mem_range]

theorem TasksImpl.team_range (T : TasksImpl) : T.team (Finset.range T.size) = T.system := by
  rw [team, system, teamStep_range]

/-! ### The tickets -/

namespace TasksImpl

variable (T : TasksImpl)

/-- The ranges as heaps of chunks. -/
def heaps : Heaps ℕ where
  size := T.size
  pieces v :=
    chunks (T.range v).b.toNat ((T.range v).e.toNat - (T.range v).b.toNat) T.chunkSize.toNat
  route := T.victim

/-- How many chunks range `v` has. -/
def numChunks (v : ℕ) : ℕ := ((T.range v).e.toNat - (T.range v).b.toNat) ⌈/⌉ T.chunkSize.toNat

/-- The lower end of range `v` after `k` fetches, if it does not wrap. -/
def ticket (v k : ℕ) : ℕ := (T.range v).b.toNat + T.chunkSize.toNat * k

/-- No value of a lower end that is read has wrapped. -/
def Unwrapped (workers : Finset ℕ) : Prop :=
  ∀ v < T.size, ∀ k < T.numChunks v + workers.card, T.ticket v k < 2 ^ 64

/-- Neither the value read by the next fetch of range `v` nor the end of a chunk there wraps. -/
structure SafeAt (d : Draws ℕ) (v : ℕ) : Prop where
  value : T.ticket v (d.taken v) < 2 ^ 64
  chunk_end : d.taken v < T.numChunks v → T.ticket v (d.taken v + 1) < 2 ^ 64

end TasksImpl

/-- Where a worker is, by tickets. -/
def WorkPc.stage : WorkPc → Stage ℕ
  | .enter | .plain _ => .out
  | .fetch off => .draw off
  | .chunk off i stop => .hands off (List.range' i.toNat (stop.toNat - i.toNat))
  | .finished => .through

/-- The run is the one by tickets. -/
structure Tracks (T : TasksImpl) (s : TasksState) (d : Draws ℕ) : Prop where
  worker : ∀ t, d.worker t = (s.worker t).stage
  steals : ∀ t i, s.worker t ≠ .plain i
  counter : ∀ v, s.b v = BitVec.ofNat 64 (T.ticket v (d.taken v))
  log : s.log.map BitVec.toNat = d.log

section Step

variable {T : TasksImpl} {s s' : TasksState} {d : Draws ℕ} {t v k : ℕ} {workers : Finset ℕ}

theorem tracks_start : Tracks T T.start .start where
  worker _ := rfl
  steals _ _ h := nomatch h
  counter v := by
    show (T.range v).b = BitVec.ofNat 64 ((T.range v).b.toNat + T.chunkSize.toNat * 0)
    rw [Nat.mul_zero, Nat.add_zero, BitVec.ofNat_toNat, BitVec.setWidth_eq]
  log := rfl

theorem TasksImpl.ticket_succ (v k : ℕ) :
    T.ticket v (k + 1) = T.ticket v k + T.chunkSize.toNat := by
  unfold ticket
  rw [Nat.mul_succ, Nat.add_assoc]

/-- A ticket is that of a chunk if it is in the range. -/
theorem TasksImpl.lt_numChunks_iff (hg : 0 < T.chunkSize.toNat) :
    k < T.numChunks v ↔ T.ticket v k < (T.range v).e.toNat := by
  unfold numChunks ticket
  rw [lt_ceilDiv_iff hg]
  omega

theorem TasksImpl.length_pieces (v : ℕ) : (T.heaps.pieces v).length = T.numChunks v :=
  length_chunks ..

theorem Tracks.moved (h : Tracks T s d) (x : WorkPc) (hx : ∀ i, x ≠ .plain i) {log : List SizeT}
    {log' : List ℕ} (hlog : log.map BitVec.toNat = log') :
    Tracks T { s.goto t x with log := log } { d.goto t x.stage with log := log' } where
  worker u := by
    show Function.update d.worker t x.stage u = (Function.update s.worker t x u).stage
    by_cases hu : u = t
    · rw [hu, Function.update_self, Function.update_self]
    · rw [Function.update_of_ne hu, Function.update_of_ne hu, h.worker u]
  steals u i := by
    show Function.update s.worker t x u ≠ _
    by_cases hu : u = t
    · rw [hu, Function.update_self]
      exact hx i
    · rw [Function.update_of_ne hu]
      exact h.steals u i
  counter := h.counter
  log := hlog

/-- The fetch-and-add, whether it wraps or not. -/
theorem Tracks.fetched (h : Tracks T s d) (x : WorkPc) (hx : ∀ i, x ≠ .plain i) (v : ℕ) :
    Tracks T { s.goto t x with b := Function.update s.b v (s.b v + T.chunkSize) }
      { d.goto t x.stage with taken := Function.update d.taken v (d.taken v + 1) } where
  worker := (h.moved x hx h.log).worker
  steals := (h.moved x hx h.log).steals
  counter w := by
    show Function.update s.b v (s.b v + T.chunkSize) w =
      BitVec.ofNat 64 (T.ticket w (Function.update d.taken v (d.taken v + 1) w))
    by_cases hw : w = v
    · rw [hw, Function.update_self, Function.update_self, h.counter v, T.ticket_succ,
        BitVec.ofNat_add, BitVec.ofNat_toNat, BitVec.setWidth_eq]
    · rw [Function.update_of_ne hw, Function.update_of_ne hw, h.counter w]
  log := h.log

theorem TasksImpl.stage_next (off : ℕ) : (T.nextVictim off).stage = T.heaps.next off := by
  unfold nextVictim Heaps.next
  show (if off + 1 < T.size then WorkPc.fetch (off + 1) else WorkPc.finished).stage =
      if off + 1 < T.size then _ else _
  split_ifs <;> rfl

theorem TasksImpl.next_ne_plain (off : ℕ) (i : SizeT) : T.nextVictim off ≠ .plain i := by
  unfold nextVictim
  split_ifs <;> exact fun h => nomatch h

theorem Tracks.toNat_counter (h : Tracks T s d) (hsafe : T.ticket v (d.taken v) < 2 ^ 64) :
    (s.b v).toNat = T.ticket v (d.taken v) := by
  rw [h.counter v, BitVec.toNat_ofNat, Nat.mod_eq_of_lt hsafe]

/-- Where the worker goes after a fetch is where the ticket sends it. -/
theorem Tracks.drawn (h : Tracks T s d) (hg : 0 < T.chunkSize.toNat)
    (hsafe : T.SafeAt d v) (off : ℕ) :
    (if (T.range v).e ≤ s.b v then T.nextVictim off else .chunk off (s.b v)
      (if (T.range v).e < s.b v + T.chunkSize then (T.range v).e else s.b v + T.chunkSize)).stage =
        T.heaps.drawn off v (d.taken v) := by
  have hval := h.toNat_counter hsafe.value
  by_cases hk : d.taken v < T.numChunks v
  · have hin := (T.lt_numChunks_iff hg).mp hk
    have hend := hsafe.chunk_end hk
    rw [T.ticket_succ] at hend
    have hadd : (s.b v + T.chunkSize).toNat = T.ticket v (d.taken v) + T.chunkSize.toNat := by
      rw [BitVec.toNat_add, hval, Nat.mod_eq_of_lt hend]
    have hnot : ¬ (T.range v).e ≤ s.b v := by
      rw [BitVec.le_def, hval]
      omega
    have hlen : d.taken v < (T.heaps.pieces v).length := by rwa [T.length_pieces]
    rw [if_neg hnot, Heaps.drawn_of_lt hlen]
    show Stage.hands off (List.range' _ _) = .hands off _
    have hpiece : (T.heaps.pieces v)[d.taken v] = List.range' (T.ticket v (d.taken v))
        (min T.chunkSize.toNat
        ((T.range v).e.toNat - (T.range v).b.toNat - T.chunkSize.toNat *
          d.taken v)) := getElem_chunks _
    rw [hpiece, hval]
    congr 2
    unfold TasksImpl.ticket at hin hadd ⊢
    split_ifs with hstop
    · rw [BitVec.lt_def] at hstop
      omega
    · rw [BitVec.lt_def] at hstop
      omega
  · have hin := (T.lt_numChunks_iff hg).not.mp hk
    have hle : (T.range v).e ≤ s.b v := by
      rw [BitVec.le_def, hval]
      omega
    rw [if_pos hle, Heaps.drawn_of_le (by rw [T.length_pieces]; omega), T.stage_next]

/-- **A step is one by tickets**, where nothing wraps. -/
theorem Tracks.step (h : Tracks T s d) (hg : 0 < T.chunkSize.toNat) (hw : T.worksteal = true)
    (hsafe : ∀ off, s.worker t = .fetch off → T.SafeAt d (T.victim t off))
    (hs : T.workerStep s t = some s') :
    ∃ d', T.heaps.step d t = some d' ∧ Tracks T s' d' := by
  have hd := h.worker t
  unfold Heaps.step
  obtain ⟨hpc, rfl⟩ | ⟨off, v, hpc, hv, rfl⟩ | ⟨off, i, stop, hpc, hi, rfl⟩ |
      ⟨off, i, stop, hpc, hi, rfl⟩ |
    ⟨i, hpc, hi, rfl⟩ | ⟨i, hpc, hi, rfl⟩ := TasksImpl.workerStep_cases hs
  · rw [hd, hpc, if_pos hw]
    exact ⟨_, rfl, h.moved (.fetch 0) (fun _ hx => nomatch hx) h.log⟩
  · subst hv
    rw [hd, hpc]
    refine ⟨_, rfl, ?_⟩
    dsimp only
    have hroute : T.heaps.route t off = T.victim t off := rfl
    rw [hroute, ← h.drawn hg (hsafe off hpc) off]
    refine h.fetched _ (fun i => ?_) _
    split_ifs
    · exact T.next_ne_plain off i
    · exact fun hx => nomatch hx
    · exact fun hx => nomatch hx
  · -- the index is the first in its hands
    rw [BitVec.lt_def] at hi
    have hsucc : (i + 1).toNat = i.toNat + 1 := by bv_omega
    have hlist : List.range' i.toNat (stop.toNat - i.toNat) =
        i.toNat :: List.range' (i + 1).toNat (stop.toNat - (i + 1).toNat) := by
      rw [hsucc, show stop.toNat - i.toNat = stop.toNat - (i.toNat + 1) + 1 by omega,
        List.range'_succ]
    rw [hd, hpc, WorkPc.stage, hlist]
    refine ⟨_, rfl, h.moved (.chunk off (i + 1) stop) (fun _ hx => nomatch hx) ?_⟩
    rw [List.map_append, h.log]
    rfl
  · rw [BitVec.lt_def] at hi
    rw [hd, hpc, WorkPc.stage, show stop.toNat - i.toNat = 0 by omega]
    exact ⟨_, rfl, h.moved (.fetch off) (fun _ hx => nomatch hx) h.log⟩
  · exact absurd hpc (h.steals t i)
  · exact absurd hpc (h.steals t i)

end Step

/-! ### Runs -/

/-- However the workers' steps interleave, they call `f` on what there is to do. -/
structure Does (T : TasksImpl) (workers : Finset ℕ) (work : Multiset ℕ) : Prop where
  at_most : ∀ s, (T.team workers).Reachable s → (s.log.map BitVec.toNat : Multiset ℕ) ≤ work
  all : ∀ s, (T.team workers).Reachable s → (∀ t ∈ workers, s.worker t = .finished) →
    (s.log.map BitVec.toNat : Multiset ℕ) = work
  /-- Runs have an end. -/
  ends : ∃ bound, ∀ as s, exec (T.teamStep workers) T.start as = some s → as.length ≤ bound

section Runs

variable {T : TasksImpl} {s s' : TasksState} {d : Draws ℕ} {t off : ℕ} {workers : Finset ℕ}

theorem TasksImpl.teamStep_eq_some :
    T.teamStep workers s t = some s' ↔ t ∈ workers ∧ T.workerStep s t = some s' := by
  unfold teamStep
  split_ifs with h
  · simp [h]
  · simp [h]

theorem TasksImpl.routed (hsub : workers ⊆ Finset.range T.size) (hne : workers.Nonempty) :
    T.heaps.Routed workers := by
  have hlt : ∀ t ∈ workers, t < T.size := fun t ht => Finset.mem_range.mp (hsub ht)
  obtain ⟨u, hu⟩ := hne
  exact ⟨Nat.zero_lt_of_lt (hlt u hu), fun t ht off _ => victim_lt (hlt t ht) off,
    fun t ht _ ho _ ho' h => victim_inj (hlt t ht) ho ho' h,
      fun t ht _ hv => victim_surj (hlt t ht) hv⟩

/-- What a worker reads has not wrapped. -/
theorem TasksImpl.Unwrapped.safeAt (hU : T.Unwrapped workers) (hR : T.heaps.Routed workers)
    (h : TicketInv T.heaps workers d) (ht : t ∈ workers) (hpc : d.worker t = .draw off) :
    T.SafeAt d (T.victim t off) := by
  have hok := h.place t ht
  rw [hpc] at hok
  have hv : T.victim t off < T.size := hR.lt t ht off hok
  have htaken := h.taken_lt hR ht hpc
  rw [T.length_pieces] at htaken
  change d.taken (T.victim t off) < T.numChunks (T.victim t off) + _ at htaken
  have hpos : 0 < workers.card := Finset.card_pos.mpr ⟨t, ht⟩
  exact ⟨hU _ hv _ htaken, fun hk => hU _ hv _ (by omega)⟩

/-- **A run is one by tickets**, if no value that is read has wrapped. -/
theorem team_tracks (hg : 0 < T.chunkSize.toNat) (hw : T.worksteal = true)
    (hU : T.Unwrapped workers) (hR : T.heaps.Routed workers) (h : (T.team workers).Reachable s) :
    ∃ d, (T.heaps.system workers).Reachable d ∧ Tracks T s d := by
  have hstart : ∀ s, (T.team workers).init s → ∃ d, (T.heaps.system workers).Reachable d ∧
      Tracks T s d := by
    rintro s rfl
    exact ⟨.start, .init rfl, tracks_start⟩
  refine h.invariant hstart fun s t s' _ hI _ hs => ?_
  obtain ⟨d, hd, htr⟩ := hI
  obtain ⟨ht, hs⟩ := TasksImpl.teamStep_eq_some.mp hs
  have hinv := ticketInv_reach hR hd
  obtain ⟨d', hd', htr'⟩ :=
    htr.step hg hw (fun off hpc => hU.safeAt hR hinv ht (by rw [htr.worker t, hpc]; rfl)) hs
  exact ⟨d', .step hd trivial ⟨ht, hd'⟩, htr'⟩

/-- No run is longer than one by tickets. -/
theorem exec_team_le (hg : 0 < T.chunkSize.toNat) (hw : T.worksteal = true)
    (hU : T.Unwrapped workers) (hR : T.heaps.Routed workers) {as : List ℕ}
    (hinv : TicketInv T.heaps workers d) (htr : Tracks T s d)
    (hs : exec (T.teamStep workers) s as = some s') : as.length ≤ T.heaps.work workers d := by
  induction as generalizing s d with
  | nil => exact Nat.zero_le _
  | cons t as ih =>
    obtain ⟨s₁, h₁, h₂⟩ := Option.bind_eq_some_iff.mp hs
    obtain ⟨ht, h₁⟩ := TasksImpl.teamStep_eq_some.mp h₁
    obtain ⟨d₁, hd₁, htr₁⟩ :=
      htr.step hg hw (fun off hpc => hU.safeAt hR hinv ht (by rw [htr.worker t, hpc]; rfl)) h₁
    have hlt := hinv.work_lt hR ht hd₁
    have hlen := ih (hinv.step hR ht hd₁) htr₁ h₂
    rw [List.length_cons]
    omega

/-- All that is in the ranges. -/
def TasksImpl.indices (T : TasksImpl) (ranges : Finset ℕ) : Multiset ℕ :=
  ∑ v ∈ ranges,
    (List.range' (T.range v).b.toNat ((T.range v).e.toNat - (T.range v).b.toNat) : Multiset ℕ)

theorem TasksImpl.flatten_pieces (hg : 0 < T.chunkSize.toNat) (v : ℕ) : (T.heaps.pieces v).flatten =
    List.range' (T.range v).b.toNat ((T.range v).e.toNat - (T.range v).b.toNat) :=
  flatten_chunks _ _ hg

/-- **With stealing each index of each range is called once.** -/
theorem TasksImpl.Unwrapped.stolen (hg : 0 < T.chunkSize.toNat) (hw : T.worksteal = true)
    (hU : T.Unwrapped workers) (hsub : workers ⊆ Finset.range T.size) (hne : workers.Nonempty) :
    Does T workers (T.indices (Finset.range T.size)) where
  at_most s hs := by
    have hR := T.routed hsub hne
    obtain ⟨d, hd, htr⟩ := team_tracks hg hw hU hR hs
    rw [htr.log]
    refine (ticketInv_reach hR hd).log_le.trans (le_of_eq (Finset.sum_congr rfl fun v _ => ?_))
    rw [T.flatten_pieces hg]
  all s hs hf := by
    have hR := T.routed hsub hne
    obtain ⟨d, hd, htr⟩ := team_tracks hg hw hU hR hs
    rw [htr.log, (ticketInv_reach hR hd).finished hR hne fun t ht =>
      by rw [htr.worker t, hf t ht]; rfl]
    exact Finset.sum_congr rfl fun v _ => by rw [T.flatten_pieces hg]
  ends :=
    ⟨_, fun _ _ hs => exec_team_le hg hw hU (T.routed hsub hne) ticketInv_start tracks_start hs⟩

end Runs

/-! ### Without stealing -/

/-- What worker `t` is still to call `f` on. -/
def TasksImpl.plainRest (T : TasksImpl) (t : ℕ) : WorkPc → List ℕ
  | .enter => List.range' (T.range t).b.toNat ((T.range t).e.toNat - (T.range t).b.toNat)
  | .plain i => List.range' i.toNat ((T.range t).e.toNat - i.toNat)
  | _ => []

/-- The invariant without stealing. -/
structure PlainInv (T : TasksImpl) (workers : Finset ℕ) (s : TasksState) : Prop where
  fixed : s.b = fun v => (T.range v).b
  place : ∀ t, s.worker t = .enter ∨ (∃ i, s.worker t = .plain i) ∨ s.worker t = .finished
  issued : (s.log.map BitVec.toNat : Multiset ℕ) + ∑ t ∈ workers,
    (T.plainRest t (s.worker t) : Multiset ℕ) = T.indices workers

section Plain

variable {T : TasksImpl} {s s' : TasksState} {t : ℕ} {x : WorkPc} {workers : Finset ℕ}

theorem plainInv_start (workers : Finset ℕ) : PlainInv T workers T.start where
  fixed := rfl
  place _ := .inl rfl
  issued := zero_add _

/-- A worker moves and may call `f`. -/
theorem PlainInv.moved (h : PlainInv T workers s) (ht : t ∈ workers) (calls : List SizeT)
    (hx : (∃ i, x = .plain i) ∨ x = .finished)
    (hrest : T.plainRest t (s.worker t) = calls.map BitVec.toNat ++ T.plainRest t x) :
    PlainInv T workers { s.goto t x with log := s.log ++ calls } where
  fixed := h.fixed
  place u := by
    show Function.update s.worker t x u = _ ∨ (∃ i, Function.update s.worker t x u = _) ∨
        Function.update s.worker t x u = _
    by_cases hu : u = t
    · rw [hu, Function.update_self]
      exact .inr hx
    · rw [Function.update_of_ne hu]
      exact h.place u
  issued := by
    have hsum := sum_move (f := fun u => (T.plainRest u (s.worker u) : Multiset ℕ))
      (g := fun u => (T.plainRest u (Function.update s.worker t x u) : Multiset ℕ)) ht
        fun u hu => by
        rw [Function.update_of_ne hu]
    rw [Function.update_self, hrest, ← Multiset.coe_add, ← add_assoc] at hsum
    show ((s.log ++ calls).map BitVec.toNat : Multiset ℕ) +
      ∑ u ∈ workers, (T.plainRest u (Function.update s.worker t x u) : Multiset ℕ) = _
    rw [List.map_append, ← Multiset.coe_add, add_assoc,
      add_comm (calls.map BitVec.toNat : Multiset ℕ), add_right_cancel hsum]
    exact h.issued

/-- A worker calls `f` on what is left of its range, in order. -/
theorem PlainInv.step (h : PlainInv T workers s) (hw : T.worksteal = false)
    (hs : T.teamStep workers s t = some s') :
    PlainInv T workers s' ∧ ∑ u ∈ workers, T.stepsLeft u (s'.worker u) < ∑ u ∈ workers,
      T.stepsLeft u (s.worker u) := by
  obtain ⟨ht, hs⟩ := TasksImpl.teamStep_eq_some.mp hs
  have hless : ∀ x, T.stepsLeft t x < T.stepsLeft t (s.worker t) →
      ∑ u ∈ workers, T.stepsLeft u ((s.goto t x).worker u) < ∑ u ∈ workers,
        T.stepsLeft u (s.worker u) := fun x hlt => by
    have hsum := sum_move (f := fun u => T.stepsLeft u (s.worker u))
      (g := fun u => T.stepsLeft u (Function.update s.worker t x u)) ht fun u hu =>
        by rw [Function.update_of_ne hu]
    rw [Function.update_self] at hsum
    show ∑ u ∈ workers, T.stepsLeft u (Function.update s.worker t x u) < _
    omega
  have hfetch : ∀ off, s.worker t ≠ .fetch off := fun off hx => by
    rcases h.place t with h1 | ⟨i, h1⟩ | h1 <;> rw [hx] at h1 <;> cases h1
  have hchunk : ∀ off i stop, s.worker t ≠ .chunk off i stop := fun off i stop hx => by
    rcases h.place t with h1 | ⟨i, h1⟩ | h1 <;> rw [hx] at h1 <;> cases h1
  obtain ⟨hpc, rfl⟩ | ⟨off, -, hpc, -⟩ | ⟨off, i, stop, hpc, -⟩ |
      ⟨off, i, stop, hpc, -⟩ | ⟨i, hpc, hi, rfl⟩ | ⟨i, hpc, hi, rfl⟩ :=
    TasksImpl.workerStep_cases hs
  · rw [hw, h.fixed]
    refine ⟨?_, hless _ ?_⟩
    · have hmoved := h.moved ht (x := .plain (T.range t).b) [] (.inl ⟨_, rfl⟩) (by rw [hpc]; rfl)
      rwa [List.append_nil] at hmoved
    · rw [hpc]
      exact Nat.lt_succ_self _
  · exact absurd hpc (hfetch off)
  · exact absurd hpc (hchunk off i stop)
  · exact absurd hpc (hchunk off i stop)
  · rw [BitVec.lt_def] at hi
    have hsucc : (i + 1).toNat = i.toNat + 1 := by bv_omega
    refine ⟨h.moved ht [i] (.inl ⟨_, rfl⟩) ?_, hless _ ?_⟩
    · rw [hpc]
      show List.range' i.toNat _ = i.toNat :: List.range' (i + 1).toNat _
      rw [hsucc, ← List.range'_succ]
      congr 1
      omega
    · rw [hpc]
      show _ - (i + 1).toNat + 1 < _ - i.toNat + 1
      omega
  · rw [BitVec.lt_def] at hi
    refine ⟨?_, hless _ ?_⟩
    · have hmoved := h.moved ht (x := .finished) [] (.inr rfl) (by
        rw [hpc]
        show List.range' _ _ = []
        rw [show (T.range t).e.toNat - i.toNat = 0 by omega, List.range'_zero])
      rwa [List.append_nil] at hmoved
    · rw [hpc]
      exact Nat.succ_pos _

theorem PlainInv.exec_le (h : PlainInv T workers s) (hw : T.worksteal = false) {as : List ℕ}
    (hs : exec (T.teamStep workers) s as = some s') :
    as.length ≤ ∑ u ∈ workers, T.stepsLeft u (s.worker u) := by
  induction as generalizing s with
  | nil => exact Nat.zero_le _
  | cons t as ih =>
    obtain ⟨s₁, h₁, h₂⟩ := Option.bind_eq_some_iff.mp hs
    obtain ⟨hinv, hlt⟩ := h.step hw h₁
    have hlen := ih hinv h₂
    rw [List.length_cons]
    omega

/-- **Without stealing each worker calls `f` on its own range.** -/
theorem does_plain (hw : T.worksteal = false) (workers : Finset ℕ) :
    Does T workers (T.indices workers) := by
  have hinv : ∀ s, (T.team workers).Reachable s → PlainInv T workers s := fun s hs =>
    hs.invariant (fun _ hi => hi ▸ plainInv_start workers) fun _ _ _ _ hI _ hst =>
      (hI.step hw hst).1
  refine ⟨fun s hs => ?_, fun s hs hf => ?_, ⟨_, fun as s hs =>
    (plainInv_start workers).exec_le hw hs⟩⟩
  · rw [← (hinv s hs).issued]
    exact Multiset.le_add_right _ _
  · have hrest : ∑ t ∈ workers, (T.plainRest t (s.worker t) : Multiset ℕ) = 0 :=
      Finset.sum_eq_zero fun t ht => by
      rw [hf t ht]
      rfl
    rw [← (hinv s hs).issued, hrest, add_zero]

end Plain

end NetworkDemo.Gang
