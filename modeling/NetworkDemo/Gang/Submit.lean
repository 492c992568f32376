import NetworkDemo.Gang.Record

/-!
# Submitting work to the gang

What a caller of `Gang::submit` relies on, for a gang of at most 255 threads whose
`abb.generation` has not gone round its 32 bits:

* `calls_once` — in a round of `n` parts `tasks->run(id)` is called on the round's
  object, once for each `id < n` and for no other;
* `calls_complete` — when `submit` returns they have all been made and have all
  returned, so no later submit replaces `tasks` under a thread that is using it;
* `progress` — while main is in `submit`, some thread can take a step.

Each round of several parts adds `BAR_INCR` to the generation, so it goes round when
`2 ^ 23` of them have been submitted (`NotWrapped`). Until then a thread that comes
late to a flag sees that it is of a later round, and every step is honest.
-/

namespace NetworkDemo.Gang

open Foundations Sync

section Submit

variable {num : ℕ} {flag : U32} {s s' : State} {a : Act}

/-- The rounds published do not take the generation round its 32 bits. -/
def NotWrapped (s : State) : Prop := BAR_INCR.toNat * s.history.length < 2 ^ 32

/-- Main is not in a round: it has not published one, or its submit is about to return or has. -/
def Pc.outOfRound : Pc → Bool
  | .idle | .resetTasks _ | .inlineTasks | .reinitLoad _ | .storeFlag _ _ => true
  | _ => false

/-- What a caller relies on. -/
structure SubmitOk (num : ℕ) (s : State) : Prop where
  /-- A call of `tasks->run` is of a round published, on its object and of one of its parts. -/
  calls_own : ∀ e ∈ s.log, ∃ n, 1 ≤ e.round ∧ s.history[e.round - 1]? = some (n, e.obj) ∧ e.id < n
  /-- Each part of each round is called at most once. -/
  calls_once : ∀ round id, s.calls round id ≤ 1
  /-- Each part of each round that main is through with has been called. -/
  calls_complete : ∀ k n obj, s.history[k]? = some (n, obj) →
    k + 1 < s.history.length ∨ (s.pc 0).outOfRound = true → ∀ id < n, s.calls (k + 1) id = 1
  /-- While main is out of a round, nobody is in `tasks->run` or about to call it. -/
  returned : (s.pc 0).outOfRound = true → ∀ t, s.pc t ≠ .inTasks ∧ s.pc t ≠ .callTasks
  /-- While main is in `submit`, some thread can take a step. -/
  progress : s.isIdle = false → ∃ t < num, ∃ s', step num s (.thread t) = some s'

/-! ### Honest runs -/

/-- Only the store of `flag` publishes a round. -/
theorem threadStep_history {t : ℕ} (hs : s.threadStep num t = some s') :
    s'.history = s.history ∨ ∃ n f, s.pc t = .storeFlag n f ∧ s' = s.published n f := by
  unfold State.threadStep at hs
  cases hpc : s.pc t with
  | storeFlag n f =>
    rw [hpc] at hs
    exact .inr ⟨n, f, rfl, (Option.some.inj hs).symm⟩
  | abb w =>
    rw [hpc] at hs
    obtain ⟨⟨_, _⟩, -, rfl⟩ := Option.map_eq_some_iff.mp hs
    exact .inl rfl
  | abb2 w =>
    rw [hpc] at hs
    obtain ⟨⟨_, _⟩, -, rfl⟩ := Option.map_eq_some_iff.mp hs
    exact .inl rfl
  | exited => rw [hpc] at hs; cases hs
  | idle => rw [hpc] at hs; cases hs
  | done => rw [hpc] at hs; cases hs
  | join k =>
    rw [hpc] at hs
    simp only at hs
    split_ifs at hs <;> (obtain rfl := Option.some.inj hs; exact .inl rfl)
  | _ =>
    rw [hpc] at hs
    obtain rfl := Option.some.inj hs
    exact .inl rfl

theorem step_history_le (hs : step num s a = some s') : s.history.length ≤ s'.history.length := by
  cases a with
  | thread t =>
    simp only [step] at hs
    split_ifs at hs
    rcases threadStep_history hs with h | ⟨n, f, -, rfl⟩
    · rw [h]
    · simp [State.published]
  | submit n =>
    simp only [step] at hs
    split_ifs at hs <;> (obtain rfl := Option.some.inj hs; exact le_rfl)
  | destroy =>
    simp only [step] at hs
    split_ifs at hs
    obtain rfl := Option.some.inj hs
    exact le_rfl

theorem NotWrapped.of_step (h : NotWrapped s') (hs : step num s a = some s') : NotWrapped s := by
  have := step_history_le hs
  unfold NotWrapped at *
  rw [show BAR_INCR.toNat = 512 from rfl] at *
  omega

/-- Publishing a round that does not take the generation round. -/
theorem generation_lt_of_notWrapped (h2 : 2 ≤ num) (hn : num ≤ 255)
    (h : (system num flag).Reach (Honest num) s) {n : ℕ} {f : U32} (hpc : s.pc 0 = .storeFlag n f)
    (hs : step num s (.thread 0) = some s') (hw : NotWrapped s') :
    s.abb.generation.toNat + 512 < 4294967296 := by
  simp only [step] at hs
  split_ifs at hs
  rcases threadStep_history hs with hh | ⟨n', f', -, rfl⟩
  · unfold State.threadStep at hs
    rw [hpc] at hs
    obtain rfl := Option.some.inj hs
    simp [State.published] at hh
  -- `512` is added for each round, the one about to be published included
  have hgen := (recorded_reach h2 hn h).gen
  have hent : s.entered = s.history.length :=
    if_neg (by rw [State.phase, hpc]; exact fun hc => by cases hc)
  have hlen : 512 * (s.history.length + 1) < 2 ^ 32 := by
    have : (s.published n' f').history.length = s.history.length + 1 := by simp [State.published]
    rw [NotWrapped, this] at hw
    exact hw
  rw [hent] at hgen
  omega

/-- A flag published before the generation goes round misleads nobody. -/
theorem honest_of_notWrapped (h2 : 2 ≤ num) (hn : num ≤ 255)
    (h : (system num flag).Reach (Honest num) s) (ha : a ≠ .destroy) (hs : step num s a = some s')
    (hw : NotWrapped s') : Honest num s a := by
  refine ⟨ha, fun n f hpc hat => ?_⟩
  subst hat
  have hI := gangInv_reach h2 (by omega) h
  have hm := hI.core.main
  rw [hpc] at hm
  obtain ⟨-, -, rfl⟩ := hm
  exact fun t _ _ _ => takesPart_stale hI.core.abbInv.aligned
    (generation_lt_of_notWrapped h2 hn h hpc hs hw)

theorem honest_reach (h2 : 2 ≤ num) (hn : num ≤ 255)
    (h : (system num flag).Reach (fun _ a => a ≠ .destroy) s) (hw : NotWrapped s) :
    (system num flag).Reach (Honest num) s := by
  exact h.strengthen (fun s a s' hs hB => hB.of_step hs)
    (fun s a s' hr ha hs hB => honest_of_notWrapped h2 hn hr ha hs hB) hw

/-! ### Progress -/

theorem mainOk_inCall {g fl total2 : U32} {r : Bool} {x : Pc} (h : MainOk num g fl total2 r x) :
    (∀ w, x = .abb w → w.returned = false) ∧ ∀ w, x = .abb2 w → w.returned = false :=
  ⟨fun w hx => by rw [hx] at h; exact h, fun w hx => by rw [hx] at h; exact h.1⟩

theorem workerOk_inCall {ph : Phase} {g g2 : U32} {r : Bool} {x : Pc} (h : WorkerOk ph g g2 r x) :
    (∀ w, x = .abb w → w.returned = false) ∧ ∀ w, x = .abb2 w → w.returned = false :=
  ⟨fun w hx => by rw [hx] at h; exact h.1, fun w hx => by rw [hx] at h; exact h.1⟩

/-- A thread of the gang that can take no step is asleep at a barrier, or is main between
submits. -/
theorem GangInv.stuck (h : GangInv num s) {t : ℕ} (ht : t < num) (hs : s.threadStep num t = none) :
    (∃ g, s.pc t = .abb (.asleep g)) ∨ (∃ g, s.pc t = .abb2 (.asleep g)) ∨
    t = 0 ∧ s.pc t = .idle := by
  have hin : (∀ w, s.pc t = .abb w → w.returned = false) ∧ ∀ w, s.pc t = .abb2 w →
      w.returned = false := by
    by_cases h0 : t = 0
    · rw [h0]
      exact mainOk_inCall h.core.main
    · exact workerOk_inCall (h.core.workers t h0 ht)
  have hm := h.core.main
  have hw := h.core.workers t
  unfold State.threadStep at hs
  cases hpc : s.pc t with
  | abb w =>
    rw [hpc] at hs
    rcases AbBarrier.step_eq_none (Option.map_eq_none_iff.mp hs) with ⟨g, rfl⟩ | rfl
    · exact .inl ⟨g, rfl⟩
    · cases hin.1 _ hpc
  | abb2 w =>
    rw [hpc] at hs
    rcases AbBarrier.step_eq_none (Option.map_eq_none_iff.mp hs) with ⟨g, rfl⟩ | rfl
    · exact .inr (.inl ⟨g, rfl⟩)
    · cases hin.2 _ hpc
  | idle =>
    refine .inr (.inr ⟨?_, rfl⟩)
    by_contra h0
    have := hw h0 ht
    rw [hpc] at this
    exact this
  | exited =>
    by_cases h0 : t = 0
    · subst h0
      rw [hpc] at hm
      exact absurd hm id
    · have := hw h0 ht
      rw [hpc] at this
      exact absurd this id
  | done =>
    by_cases h0 : t = 0
    · subst h0
      rw [hpc] at hm
      exact absurd hm id
    · have := hw h0 ht
      rw [hpc] at this
      exact absurd this id
  | join k =>
    by_cases h0 : t = 0
    · subst h0
      rw [hpc] at hm
      exact absurd hm id
    · have := hw h0 ht
      rw [hpc] at this
      exact absurd this id
  | _ => rw [hpc] at hs; cases hs

/-- **No deadlock**: unless main is between submits, some thread can take a step. -/
theorem GangInv.progress (h : GangInv num s) (h2 : 2 ≤ num) (hn : num ≤ 255)
    (hidle : s.isIdle = false) :
    ∃ t < num, ∃ s', Gang.step num s (.thread t) = some s' := by
  by_contra hno
  have hc := h.core
  have hstuck : ∀ t < num, (∃ g, s.pc t = .abb (.asleep g)) ∨ (∃ g, s.pc t = .abb2 (.asleep g)) :=
    fun t ht => by
    have hnone : s.threadStep num t = none := by
      cases hs : s.threadStep num t with
      | none => rfl
      | some s' => exact absurd ⟨t, ht, s', by simp [Gang.step, ht, hs]⟩ hno
    rcases h.stuck ht hnone with hg | hg | ⟨rfl, hg⟩
    · exact .inl hg
    · exact .inr hg
    · rw [State.isIdle_iff.mpr hg] at hidle
      cases hidle
  -- everybody sleeps, so nobody is closing a round of a barrier or waking its sleepers
  have hcalm : ∀ u, ((s.pc u).abbPos.waking = false ∧ (s.pc u).abbPos.last = false) ∧
      (s.pc u).abb2Pos.waking = false ∧ (s.pc u).abb2Pos.last = false := fun u => by
    rcases Nat.lt_or_ge u num with hu | hu
    · rcases hstuck u hu with ⟨g, hg⟩ | ⟨g, hg⟩ <;> rw [hg] <;> exact ⟨⟨rfl, rfl⟩, rfl, rfl⟩
    · rw [hc.outside u hu]
      exact ⟨⟨rfl, rfl⟩, rfl, rfl⟩
  have hcur : ∀ u g, s.pc u = .abb (.asleep g) → g = s.abb.generation := fun u g hg =>
    hc.abbInv.toBarOk.asleep_current (fun v => (hcalm v).1.1) (u := u) (by rw [hg]; rfl)
  have hcur2 : ∀ u g, s.pc u = .abb2 (.asleep g) → g = s.abb2.generation := fun u g hg =>
    hc.abb2Ok.asleep_current (fun v => (hcalm v).2.1) (u := u) (by rw [hg]; rfl)
  have hnl : ∀ g : U32, (WaitPc.asleep g).leaving g = false := fun g => by
    simp [WaitPc.leaving, WaitPc.waking, WaitPc.saved]
  have harr : ∀ g : U32, (WaitPc.asleep g).arrived g = true :=
    fun g => by simp [WaitPc.arrived, WaitPc.saved]
  rcases hstuck 0 (by omega) with ⟨g, hg⟩ | ⟨g, hg⟩
  · -- main waits at `abb`, where somebody has yet to arrive, and nobody can be at `abb2`
    obtain rfl := hcur 0 g hg
    have hp : phaseOf s.abb.generation s.abb2.generation (s.pc 0) = .published := by
      rw [hg]
      exact if_neg (by rw [hnl]; decide)
    obtain ⟨v, hv, hva⟩ :=
      hc.abbInv.missing (by rw [Finset.card_range, hc.abbTotal]) fun v => (hcalm v).1.2
    have hvn := Finset.mem_range.mp hv
    rcases hstuck v hvn with ⟨g', hg'⟩ | ⟨g', hg'⟩
    · obtain rfl := hcur v g' hg'
      rw [hg'] at hva
      exact absurd ((harr _).symm.trans hva) (by decide)
    · obtain rfl := hcur2 v g' hg'
      have := hc.abb2_leaving (by rw [hp]; decide) hg'
      rw [hnl] at this
      cases this
  · -- main waits at `abb2`, where a thread that takes part has yet to arrive
    obtain rfl := hcur2 0 g hg
    have hp : s.phase = .running := by
      rw [State.phase, hg]
      exact if_neg (by rw [hnl]; decide)
    obtain ⟨g0, hc2, hle, hf, hrg, htot⟩ := h.count_eq hn (by rw [hp]; decide)
    have hset : (s.pc 0).setsUp = false := by rw [hg]; rfl
    have hinv := hc.abb2Inv hset
    rw [show phaseOf _ _ _ = _ from hp] at hinv
    have hcard : (participants num (roundGen .running s.abb.generation) s.flag).card =
        s.abb2.total.toNat := by
      rw [hp] at hrg
      rw [htot hset, hrg]
      conv_lhs => rw [hf]
      rw [participants_own (by omega) hle, Finset.card_range]
    obtain ⟨v, hv, hva⟩ := hinv.missing hcard fun v => (hcalm v).2.2
    obtain ⟨hvr, hvt⟩ := Finset.mem_filter.mp hv
    have hvn := Finset.mem_range.mp hvr
    rcases hstuck v hvn with ⟨g', hg'⟩ | ⟨g', hg'⟩
    · obtain rfl := hcur v g' hg'
      have hv0 : v ≠ 0 := by
        rintro rfl
        rw [hg] at hg'
        cases hg'
      have hw := hc.workers v hv0 hvn
      rw [hg', show phaseOf _ _ _ = _ from hp] at hw
      have h2 := hw.2
      rw [if_neg (by rw [hnl]; decide)] at h2
      exact absurd (hvt.symm.trans (h2 rfl)) (by decide)
    · obtain rfl := hcur2 v g' hg'
      rw [hg'] at hva
      exact absurd ((harr _).symm.trans hva) (by decide)

/-! ### The protocol -/

theorem callsDue_le (ph : Phase) (x : Pc) : callsDue ph x ≤ 1 := by
  cases ph <;> simp only [callsDue] <;> first | omega | (split <;> omega)

theorem Recorded.calls_le (h : Recorded num s) (round id : ℕ) : s.calls round id ≤ 1 := by
  by_cases he : ∃ e ∈ s.log, e.round = round ∧ e.id = id
  · obtain ⟨e, he, rfl, rfl⟩ := he
    obtain ⟨n, h1, h2, h3⟩ := h.events e he
    have := h.counts _ n e.obj h2 e.id h3
    rw [Nat.sub_add_cancel h1] at this
    rw [this]
    split
    · exact callsDue_le _ _
    · exact le_rfl
  · have : s.calls round id = 0 := List.countP_eq_zero.mpr fun e hmem => by
      simp only [decide_eq_true_eq]
      exact fun hc => he ⟨e, hmem, hc⟩
    omega

theorem phaseOf_outOfRound {g g2 : U32} {x : Pc} (h : x.outOfRound = true) :
    phaseOf g g2 x = .over := by
  cases x <;> first | rfl | cases h

/-- While the round is over, nobody runs a part of it. -/
theorem GangInv.returned (h : GangInv num s) (hm : (s.pc 0).outOfRound = true) (t : ℕ) :
    s.pc t ≠ .inTasks ∧ s.pc t ≠ .callTasks := by
  by_cases h0 : t = 0
  · subst h0
    constructor <;> intro hc <;> rw [hc] at hm <;> cases hm
  · rcases Nat.lt_or_ge t num with ht | ht
    · have hw := h.core.workers t h0 ht
      rw [phaseOf_outOfRound hm] at hw
      constructor <;> intro hc <;> rw [hc] at hw <;> exact absurd hw.1 (by decide)
    · rw [h.core.outside t ht]
      exact ⟨by simp, by simp⟩

/-- **The submit protocol**: every run of submits of a gang of two to 255 threads, in any
interleaving, keeps what a caller relies on as long as the generation has not gone round. -/
theorem submit_protocol (h2 : 2 ≤ num) (hn : num ≤ 255)
    (h : (system num flag).Reach (fun _ a => a ≠ .destroy) s) (hw : NotWrapped s) :
    SubmitOk num s := by
  have hr := honest_reach h2 hn h hw
  have hI := gangInv_reach h2 (by omega) hr
  have hR := recorded_reach h2 hn hr
  refine ⟨hR.events, hR.calls_le, fun k n obj hk hdone id hid => ?_, hI.returned, hI.progress h2 hn⟩
  rw [hR.counts k n obj hk id hid]
  rcases hdone with hlt | hout
  · rw [if_neg (by omega)]
  · rw [show s.phase = .over from phaseOf_outOfRound hout]
    split <;> rfl

/-- Two threads run a round of two parts, from the submit to its return. -/
theorem submit_protocol_two : ∃ s, exec (step 2) (start 2 0) (.submit 2 :: (List.replicate 4 1 ++
      List.replicate 18 0 ++ List.replicate 11 1 ++ List.replicate 8 0).map .thread) = some s ∧
    s.history = [(2, 1)] ∧ s.isIdle = true ∧ SubmitOk 2 s := by
  obtain ⟨s, hs, hp⟩ := (Option.any_eq_true _ _).mp (by decide : (exec (step 2) (start 2 0)
    (.submit 2 :: (List.replicate 4 1 ++ List.replicate 18 0 ++ List.replicate 11 1 ++
      List.replicate 8 0).map .thread)).any (fun s => s.history = [(2, 1)] ∧
        s.isIdle = true) = true)
  obtain ⟨hh, hi⟩ : s.history = [(2, 1)] ∧ s.isIdle = true := by simpa using hp
  have hr : (system 2 0).Reach (fun _ a => a ≠ .destroy) s :=
    Lts.Reach.exec (fun _ _ _ h => h) (.init rfl) (fun _ a ha => by
      rcases List.mem_cons.mp ha with rfl | ha
      · simp
      · obtain ⟨t, -, rfl⟩ := List.mem_map.mp ha
        simp) hs
  exact ⟨s, hs, hh, hi, submit_protocol (by decide) (by decide) hr (by rw [NotWrapped, hh]; decide)⟩

end Submit

end NetworkDemo.Gang
