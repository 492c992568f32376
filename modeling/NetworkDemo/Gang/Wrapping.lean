import NetworkDemo.Gang.Teams

/-!
# A lower end that wraps

If a value that is read off a lower end has wrapped, then some run calls `f` on an index
twice, or on one that is not the submit's. The run is the one in which the workers come
one after the other, worker `0` first.

* `reissue` — a worker that reads a lower end which is below its range's upper end calls
  `f` on an index no greater.
* `Sequential.safeAt` — in that run no such value can have wrapped.
* `unwrapped_of_atMostOnce` — and all values are read in it.
-/

namespace NetworkDemo.Gang

open Foundations

/-! ### Indices given out again -/

/-- `f` is called at most once on each index from `start` to before `stop`, and on nothing else. -/
def AtMostOnce (T : TasksImpl) (W start stop : ℕ) : Prop :=
  ∀ s, (T.team (Finset.range W)).Reachable s → (s.log.map BitVec.toNat : Multiset ℕ) ≤
    List.range' start (stop - start)

section Reissue

variable {T : TasksImpl} {W start stop : ℕ} {s s' : TasksState} {t off : ℕ}

theorem AtMostOnce.fresh (h : AtMostOnce T W start stop) {log : List SizeT} {i : SizeT}
    (hs : (T.team (Finset.range W)).Reachable s) (hlog : s.log = log ++ [i]) :
    start ≤ i.toNat ∧ i.toNat ∉ log.map BitVec.toNat := by
  have hle := h s hs
  rw [hlog, List.map_append] at hle
  have hnodup := Multiset.nodup_of_le hle (Multiset.coe_nodup.mpr List.nodup_range')
  have hmem : i.toNat ∈ (List.range' start (stop - start) : Multiset ℕ) :=
    Multiset.mem_of_le hle (Multiset.mem_coe.mpr (List.mem_append_right _
      (List.mem_singleton_self _)))
  refine ⟨(List.mem_range'_1.mp (Multiset.mem_coe.mp hmem)).1, fun hc => ?_⟩
  exact (List.disjoint_of_nodup_append (Multiset.coe_nodup.mp hnodup)) hc
    (List.mem_singleton_self _)

theorem reach_step (hs : (T.team (Finset.range W)).Reachable s) (ht : t < W)
    (hstep : T.workerStep s t = some s') :
    (T.team (Finset.range W)).Reachable s' :=
  .step hs trivial (TasksImpl.teamStep_eq_some.mpr ⟨Finset.mem_range.mpr ht, hstep⟩)

/-- The end of the chunk that begins at `i` in range `v`. -/
def TasksImpl.chunkStop (T : TasksImpl) (v : ℕ) (i : SizeT) : SizeT :=
  if (T.range v).e < i + T.chunkSize then (T.range v).e else i + T.chunkSize

/-- The fetch-and-add of a worker that gets a chunk. -/
theorem workerStep_fetch (hpc : s.worker t = .fetch off)
    (hlt : s.b (T.victim t off) < (T.range (T.victim t off)).e) :
    T.workerStep s t = some
      { s.goto t
      (.chunk off (s.b (T.victim t off)) (T.chunkStop (T.victim t off) (s.b (T.victim t off)))) with
      b := Function.update s.b (T.victim t off) (s.b (T.victim t off) + T.chunkSize) } := by
  unfold TasksImpl.workerStep
  rw [hpc]
  dsimp only
  rw [if_neg (BitVec.not_le.mpr hlt), TasksImpl.chunkStop]

/-- If the end of the chunk wraps, the chunk is empty and the lower end comes to be less than it
was. -/
theorem skip_chunk (hs : (T.team (Finset.range W)).Reachable s) (ht : t < W)
    (hpc : s.worker t = .fetch off) (hlt : s.b (T.victim t off) < (T.range (T.victim t off)).e)
    (hwrap : 2 ^ 64 ≤ (s.b (T.victim t off)).toNat + T.chunkSize.toNat) :
    ∃ s', (T.team (Finset.range W)).Reachable s' ∧ s'.worker t = .fetch off ∧ s'.log = s.log ∧
      (s'.b (T.victim t off)).toNat < (s.b (T.victim t off)).toNat := by
  generalize hv : T.victim t off = v at *
  have hstep := workerStep_fetch (T := T) hpc (by rwa [hv])
  rw [hv] at hstep
  have hless : s.b v + T.chunkSize < s.b v := by bv_omega
  have hstop : T.chunkStop v (s.b v) = s.b v + T.chunkSize := if_neg fun h => by bv_omega
  rw [hstop] at hstep
  have h₁ := reach_step hs ht hstep
  generalize hs₁ : ({ s.goto t (.chunk off (s.b v) (s.b v + T.chunkSize)) with
    b := Function.update s.b v (s.b v + T.chunkSize) } : TasksState) = s₁ at *
  have hpc₁ : s₁.worker t = .chunk off (s.b v) (s.b v + T.chunkSize) :=
    hs₁ ▸ Function.update_self ..
  have hb₁ : s₁.b v = s.b v + T.chunkSize := hs₁ ▸ Function.update_self ..
  have hstep₁ : T.workerStep s₁ t = some (s₁.goto t (.fetch off)) := by
    unfold TasksImpl.workerStep
    rw [hpc₁]
    exact if_neg (BitVec.not_lt.mpr (BitVec.le_of_lt hless))
  refine ⟨_, reach_step h₁ ht hstep₁, Function.update_self .., hs₁ ▸ rfl, ?_⟩
  show (s₁.b v).toNat < _
  rw [hb₁]
  exact BitVec.lt_def.mp hless

/-- **What has been given out is given out again**, if a worker reads a lower end below the
upper. -/
theorem reissue (hg : 0 < T.chunkSize.toNat) (hq : AtMostOnce T W start stop)
    (hs : (T.team (Finset.range W)).Reachable s) (ht : t < W) (hpc : s.worker t = .fetch off)
    (hlt : s.b (T.victim t off) < (T.range (T.victim t off)).e)
    (hcalled : ∀ y, start ≤ y → y ≤ (s.b (T.victim t off)).toNat → y ∈ s.log.map BitVec.toNat) :
    False := by
  generalize hc : (s.b (T.victim t off)).toNat = c at hcalled
  induction c using Nat.strong_induction_on generalizing s with
  | _ c ih =>
    by_cases hwrap : 2 ^ 64 ≤ (s.b (T.victim t off)).toNat + T.chunkSize.toNat
    · obtain ⟨s', hs', hpc', hlog, hless⟩ := skip_chunk hs ht hpc hlt hwrap
      refine ih _ (hc ▸ hless) hs' hpc' (BitVec.lt_def.mpr (hless.trans (BitVec.lt_def.mp hlt))) rfl
        fun y h0 hy => ?_
      rw [hlog]
      exact hcalled y h0 (by omega)
    · -- it is called on the next index
      have h₁ := reach_step hs ht (workerStep_fetch hpc hlt)
      generalize hv : T.victim t off = v at *
      generalize hs₁ : ({ s.goto t (.chunk off (s.b v) (T.chunkStop v (s.b v))) with
        b := Function.update s.b v (s.b v + T.chunkSize) } : TasksState) = s₁ at *
      have hpc₁ : s₁.worker t = .chunk off (s.b v) (T.chunkStop v (s.b v)) :=
        hs₁ ▸ Function.update_self ..
      have hlog₁ : s₁.log = s.log := hs₁ ▸ rfl
      have hin : s.b v < T.chunkStop v (s.b v) := by
        unfold TasksImpl.chunkStop
        split_ifs
        · exact hlt
        · bv_omega
      have hstep₁ : T.workerStep s₁ t =
          some { s₁.goto t (.chunk off (s.b v + 1) (T.chunkStop v (s.b v))) with
            log := s₁.log ++ [s.b v] } := by
        unfold TasksImpl.workerStep
        rw [hpc₁]
        exact if_pos hin
      obtain ⟨h0, hnew⟩ := hq.fresh (reach_step h₁ ht hstep₁) rfl
      rw [hlog₁] at hnew
      exact hnew (hcalled _ h0 hc.le)

end Reissue

/-! ### One worker after the other -/

/-- The ranges are the pieces between the cut points `c`. -/
structure CutAt (T : TasksImpl) (c : ℕ → ℕ) : Prop where
  mono : Monotone c
  range : ∀ v < T.size, (T.range v).b.toNat = c v ∧ (T.range v).e.toNat = c (v + 1)

/-- Of the values a lower end takes, the first that wraps is below the upper end. -/
def WrapsLow (T : TasksImpl) (W : ℕ) : Prop := ∀ v < T.size, ∀ k < T.numChunks v + W,
  T.ticket v k < 2 ^ 64 + T.chunkSize.toNat → T.ticket v k < 2 ^ 64 + (T.range v).e.toNat

/-- The workers before `t` are through and those after it have not begun; nothing read has
wrapped. -/
structure Sequential (T : TasksImpl) (W t : ℕ) (s : TasksState) (d : Draws ℕ) : Prop where
  reach : (T.team (Finset.range W)).Reachable s
  inv : TicketInv T.heaps (Finset.range W) d
  tracks : Tracks T s d
  unwrapped : ∀ v < T.size, ∀ k < d.taken v, T.ticket v k < 2 ^ 64
  before : ∀ u < t, d.worker u = .through
  after : ∀ u, t < u → d.worker u = .out

section Sequential

variable {T : TasksImpl} {W t off : ℕ} {c : ℕ → ℕ} {s : TasksState} {d : Draws ℕ}

theorem exists_cut {y v : ℕ} (h0 : c 0 ≤ y) (hv : y < c (v + 1)) :
    ∃ u ≤ v, c u ≤ y ∧ y < c (u + 1) := by
  induction v with
  | zero => exact ⟨0, le_rfl, h0, hv⟩
  | succ v ih =>
    rcases Nat.lt_or_ge y (c (v + 1)) with h | h
    · obtain ⟨u, hu, hin⟩ := ih h
      exact ⟨u, by omega, hin⟩
    · exact ⟨v + 1, le_rfl, h, hv⟩

theorem TasksImpl.mem_given (hg : 0 < T.chunkSize.toNat) {v k y : ℕ} (hb : (T.range v).b.toNat ≤ y)
    (he : y < (T.range v).e.toNat) (hk : T.numChunks v ≤ k ∨ y < T.ticket v k) :
    y ∈ T.heaps.given v k := by
  rcases Nat.lt_or_ge k (T.numChunks v) with hlt | hge
  · have hy := hk.resolve_left (by omega)
    have hgiven : T.heaps.given v k = (List.range' (T.range v).b.toNat
        (min ((T.range v).e.toNat - (T.range v).b.toNat) (T.chunkSize.toNat * k)) : Multiset ℕ) :=
      congrArg _ (flatten_take_chunks (le_of_lt hlt) hg)
    unfold TasksImpl.ticket at hy
    rw [hgiven, Multiset.mem_coe, List.mem_range'_1]
    omega
  · rw [T.heaps.given_of_le (by rwa [T.length_pieces]), T.flatten_pieces hg, Multiset.mem_coe,
      List.mem_range'_1]
    omega

/-- All indices before the one that the worker's next ticket is about have been called. -/
theorem Sequential.called (h : Sequential T W t s d) (hg : 0 < T.chunkSize.toNat)
    (hR : T.heaps.Routed (Finset.range W)) (hW : W ≤ T.size) (hcut : CutAt T c) (ht : t < W)
    (hpc : d.worker t = .draw off) {y : ℕ} (h0 : c 0 ≤ y)
    (he : y < (T.range (T.victim t off)).e.toNat)
    (hy : y < T.ticket (T.victim t off) (d.taken (T.victim t off))) :
    y ∈ s.log.map BitVec.toNat := by
  have hrest : ∀ u ∈ Finset.range W, (d.worker u).rest = [] := fun u _ => by
    rcases Nat.lt_trichotomy u t with hu | rfl | hu
    · rw [h.before u hu]
      rfl
    · rw [hpc]
      rfl
    · rw [h.after u hu]
      rfl
  have hok := h.inv.place t (Finset.mem_range.mpr ht)
  rw [hpc] at hok
  have hsize : off < T.size := hok
  have hv : T.victim t off < T.size := TasksImpl.victim_lt (by omega) off
  rw [(hcut.range _ hv).2] at he
  obtain ⟨u, hu, hin⟩ := exists_cut h0 he
  have hrange := hcut.range u (by omega)
  rw [h.tracks.log]
  refine h.inv.mem_log hrest (v := u) (show u < T.size by omega)
    (T.mem_given hg (by omega) (by omega) ?_)
  rw [← T.length_pieces]
  have hzero : 0 ∈ Finset.range W := Finset.mem_range.mpr (by omega)
  rcases Nat.eq_zero_or_pos t with rfl | hpos
  · -- the first worker has left the ranges before this one
    have hoff : ∀ o < T.size, T.victim 0 o = o := fun o ho => by
      rw [TasksImpl.victim_eq (by omega), Nat.zero_add, Nat.mod_eq_of_lt ho]
    rw [hoff off hsize] at hu hy
    rcases Nat.lt_or_ge u off with hlt | hge
    · refine .inl (h.inv.le_taken (show u < T.size by omega) hzero ?_)
      rw [hpc]
      exact Heaps.past_iff.mpr ⟨u, hlt, hoff u (by omega)⟩
    · obtain rfl : u = off := by omega
      exact .inr hy
  · refine .inl (h.inv.le_taken (show u < T.size by omega) hzero ?_)
    rw [h.before 0 hpos]
    exact hR.past_through hzero (show u < T.size by omega)

/-- **Nothing wraps** in the run of one worker after the other, if `f` is called at most once on
each index. -/
theorem Sequential.safeAt (h : Sequential T W t s d) (hg : 0 < T.chunkSize.toNat)
    (hR : T.heaps.Routed (Finset.range W)) (hW : W ≤ T.size) (hcut : CutAt T c)
    (hlow : WrapsLow T W) {stop : ℕ} (hq : AtMostOnce T W (c 0) stop) (ht : t < W)
    (hpc : s.worker t = .fetch off) : T.SafeAt d (T.victim t off) := by
  have hpcd : d.worker t = .draw off := by
    rw [h.tracks.worker t, hpc]
    rfl
  have hv : T.victim t off < T.size := TasksImpl.victim_lt (by omega) off
  have htaken := h.inv.taken_lt hR (Finset.mem_range.mpr ht) hpcd
  rw [T.length_pieces, Finset.card_range] at htaken
  have hcalled := fun y => h.called hg hR hW hcut ht hpcd (y := y)
  have hcounter := h.tracks.counter (T.victim t off)
  have hread := h.unwrapped (T.victim t off) hv
  have hwraps := hlow (T.victim t off) hv (d.taken (T.victim t off)) htaken
  generalize hvic : T.victim t off = v at *
  have hb : (T.range v).b.toNat < 2 ^ 64 := (T.range v).b.isLt
  have he : (T.range v).e.toNat < 2 ^ 64 := (T.range v).e.isLt
  have hvalue : T.ticket v (d.taken v) < 2 ^ 64 := by
    by_contra hge
    -- the value before it has not wrapped
    obtain ⟨k, hk⟩ : ∃ k, d.taken v = k + 1 := Nat.exists_eq_succ_of_ne_zero fun h0 => by
      rw [h0] at hge
      exact hge (by simpa [TasksImpl.ticket] using hb)
    have hprev := hread k (by omega)
    rw [hk, T.ticket_succ] at hge hwraps hcalled hcounter
    have hnow := hwraps (by omega)
    have hval : (s.b v).toNat = T.ticket v k + T.chunkSize.toNat - 2 ^ 64 := by
      rw [hcounter, BitVec.toNat_ofNat]
      omega
    refine reissue hg hq h.reach ht hpc (by rw [hvic, BitVec.lt_def, hval]; omega) fun y h0 hy => ?_
    rw [hvic, hval] at hy
    exact hcalled y h0 (by omega) (by omega)
  refine ⟨hvalue, fun hk => ?_⟩
  by_contra hge
  have hin := (T.lt_numChunks_iff hg).mp hk
  have hval := h.tracks.toNat_counter hvalue
  rw [T.ticket_succ] at hge
  obtain ⟨s', hs', hpc', hlog, hless⟩ :=
    skip_chunk h.reach ht hpc (by rw [hvic, BitVec.lt_def, hval]; exact hin)
    (by rw [hvic, hval]; omega)
  rw [hvic, hval] at hless
  refine reissue hg hq hs' ht hpc' (by rw [hvic, BitVec.lt_def]; omega) fun y h0 hy => ?_
  rw [hvic] at hy
  rw [hlog]
  exact hcalled y h0 (by omega) (by omega)

theorem WorkPc.ne_finished {x : WorkPc} (h : x.stage ≠ .through) : x ≠ .finished :=
  fun hx => h (by rw [hx]; rfl)

theorem WorkPc.eq_fetch {x : WorkPc} (h : x.stage = .draw off) : x = .fetch off := by
  cases x with
  | fetch o =>
    obtain rfl := Stage.draw.inj h
    rfl
  | _ => cases h

/-- The worker takes a step. -/
theorem Sequential.step (h : Sequential T W t s d) (hg : 0 < T.chunkSize.toNat)
    (hw : T.worksteal = true) (hR : T.heaps.Routed (Finset.range W)) (hW : W ≤ T.size)
    (hcut : CutAt T c) (hlow : WrapsLow T W) {stop : ℕ} (hq : AtMostOnce T W (c 0) stop)
    (ht : t < W) (hf : d.worker t ≠ .through) :
    ∃ s' d', Sequential T W t s' d' ∧ T.heaps.work (Finset.range W) d' < T.heaps.work
      (Finset.range W) d := by
  have htm := Finset.mem_range.mpr ht
  obtain ⟨s', hs'⟩ := step_of_not_finished (T := T) (s := s) (t := t) (by omega)
    (WorkPc.ne_finished (h.tracks.worker t ▸ hf))
  have hstep := (TasksImpl.step_eq_some.mp hs').2
  have hsafe := fun off (hpc : s.worker t = .fetch off) => h.safeAt hg hR hW hcut hlow hq ht hpc
  obtain ⟨d', hd', htr⟩ := h.tracks.step hg hw hsafe hstep
  refine ⟨s', d', ⟨reach_step h.reach ht hstep, h.inv.step hR htm hd', htr, fun v hv k hk => ?_,
    fun u hu => ?_, fun u hu => ?_⟩, h.inv.work_lt hR htm hd'⟩
  · rcases Heaps.step_taken hd' with hsame | ⟨off, hpc, htaken⟩
    · exact h.unwrapped v hv k (hsame ▸ hk)
    · change d'.taken = Function.update d.taken (T.victim t off) (d.taken (T.victim t off) + 1)
        at htaken
      rw [htaken] at hk
      by_cases hvt : v = T.victim t off
      · rw [hvt, Function.update_self] at hk
        rw [hvt] at hv ⊢
        rcases Nat.lt_succ_iff_lt_or_eq.mp hk with hlt | rfl
        · exact h.unwrapped _ hv k hlt
        · exact (hsafe off (WorkPc.eq_fetch ((h.tracks.worker t).symm.trans hpc))).value
      · rw [Function.update_of_ne hvt] at hk
        exact h.unwrapped v hv k hk
  · rw [Heaps.step_worker hd' (by omega)]
    exact h.before u hu
  · rw [Heaps.step_worker hd' (by omega)]
    exact h.after u hu

/-- The worker gets through. -/
theorem Sequential.run (h : Sequential T W t s d) (hg : 0 < T.chunkSize.toNat)
    (hw : T.worksteal = true) (hR : T.heaps.Routed (Finset.range W)) (hW : W ≤ T.size)
    (hcut : CutAt T c) (hlow : WrapsLow T W) {stop : ℕ} (hq : AtMostOnce T W (c 0) stop)
    (ht : t < W) : ∃ s' d', Sequential T W (t + 1) s' d' := by
  induction hn : T.heaps.work (Finset.range W) d using Nat.strong_induction_on generalizing s d with
  | _ n ih =>
    by_cases hf : d.worker t = .through
    · refine ⟨s, d, h.reach, h.inv, h.tracks, h.unwrapped, fun u hu => ?_,
        fun u hu => h.after u (by omega)⟩
      rcases Nat.lt_succ_iff_lt_or_eq.mp hu with hlt | rfl
      · exact h.before u hlt
      · exact hf
    · obtain ⟨s', d', h', hless⟩ := h.step hg hw hR hW hcut hlow hq ht hf
      exact ih _ (hn ▸ hless) h' rfl

/-- **No value that is read has wrapped**, if `f` is called at most once on each index in every
run. -/
theorem unwrapped_of_atMostOnce (stop : ℕ) (hg : 0 < T.chunkSize.toNat) (hw : T.worksteal = true)
    (hpos : 0 < W) (hW : W ≤ T.size) (hcut : CutAt T c) (hlow : WrapsLow T W)
    (hq : AtMostOnce T W (c 0) stop) : T.Unwrapped (Finset.range W) := by
  have hne : (Finset.range W).Nonempty := Finset.nonempty_range_iff.mpr (by omega)
  have hR : T.heaps.Routed (Finset.range W) := T.routed (Finset.range_subset_range.mpr hW) hne
  have hall : ∀ t ≤ W, ∃ s d, Sequential T W t s d := by
    intro t ht
    induction t with
    | zero =>
      exact ⟨T.start, .start, .init rfl, ticketInv_start, tracks_start,
    fun _ _ _ hk => absurd hk (Nat.not_lt_zero _),
        fun _ hu => absurd hu (Nat.not_lt_zero _), fun _ _ => rfl⟩
    | succ t ih =>
      obtain ⟨s, d, h⟩ := ih (by omega)
      exact h.run hg hw hR hW hcut hlow hq ht
  obtain ⟨s, d, h⟩ := hall W le_rfl
  intro v hv k hk
  refine h.unwrapped v hv k ?_
  rwa [h.inv.taken_eq hR hne (fun t ht => h.before t (Finset.mem_range.mp ht)) hv, T.length_pieces]

end Sequential

end NetworkDemo.Gang
