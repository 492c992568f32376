import NetworkDemo.Foundations.Loops

/-!
# Work given out by counters

There are heaps of work, each cut into pieces, and workers, each with a route on which it
comes to every heap once. At a heap a worker draws the heap's counter, which so goes up by
one: it does the piece of that number and draws again, until the number is that of no
piece, and then goes on to the next heap. The counters are not bounded.

* `TicketInv` — what has been done or is in a worker's hands is what the counters have
  given out; and a counter is past the pieces by the number of workers that have left the heap.
* `TicketInv.finished` — when all workers are through, all the work has been done, each
  piece once.
* `TicketInv.work_lt` — every step leaves less work, so that they do get through.
-/

namespace NetworkDemo.Foundations

universe u

variable {α : Type u}

/-! ### The workers -/

/-- The heaps and the workers' routes. -/
structure Heaps (α : Type u) where
  /-- How many heaps there are. -/
  size : ℕ
  pieces : ℕ → List (List α)
  /-- The heap a worker comes to at a place of its route. -/
  route : ℕ → ℕ → ℕ

/-- Where a worker is. -/
inductive Stage (α : Type u) where
  | out
  /-- About to draw. -/
  | draw (off : ℕ)
  /-- With the rest of a piece in its hands. -/
  | hands (off : ℕ) (rest : List α)
  | through

/-- How far the work has got. -/
structure Draws (α : Type u) where
  /-- The counters. -/
  taken : ℕ → ℕ
  worker : ℕ → Stage α
  /-- The work done. -/
  log : List α

/-- Nothing done yet. -/
def Draws.start : Draws α := ⟨fun _ => 0, fun _ => .out, []⟩

/-- Worker `t` moves to `x`. -/
def Draws.goto (s : Draws α) (t : ℕ) (x : Stage α) : Draws α :=
  { s with worker := Function.update s.worker t x }

/-- What a worker has in its hands. -/
def Stage.rest : Stage α → List α
  | .hands _ rest => rest
  | _ => []

/-- How many heaps a worker has left. -/
def Stage.visits (size : ℕ) : Stage α → ℕ
  | .draw off | .hands off _ => off
  | .through => size
  | .out => 0

/-- Where a worker can be. -/
def Stage.Ok (size : ℕ) : Stage α → Prop
  | .draw off | .hands off _ => off < size
  | _ => True

namespace Heaps

variable (H : Heaps α)

/-- The worker leaves a heap. -/
def next (off : ℕ) : Stage α := if off + 1 < H.size then .draw (off + 1) else .through

/-- What a worker that draws ticket `k` of heap `v` does. -/
def drawn (off v k : ℕ) : Stage α :=
  match (H.pieces v)[k]? with
  | some xs => .hands off xs
  | none => H.next off

/-- One step of worker `t`. -/
def step (s : Draws α) (t : ℕ) : Option (Draws α) :=
  match s.worker t with
  | .out => some (s.goto t (.draw 0))
  | .draw off =>
    let v := H.route t off
    some { s.goto t (H.drawn off v (s.taken v)) with
      taken := Function.update s.taken v (s.taken v + 1) }
  | .hands off (y :: ys) => some { s.goto t (.hands off ys) with log := s.log ++ [y] }
  | .hands off [] => some (s.goto t (.draw off))
  | .through => none

/-- Some workers on the heaps. -/
def system (workers : Finset ℕ) : Lts (Draws α) ℕ where
  init s := s = .start
  step s t s' := t ∈ workers ∧ H.step s t = some s'

/-- On its route each worker comes to every heap once. -/
structure Routed (workers : Finset ℕ) : Prop where
  some_heap : 0 < H.size
  lt : ∀ t ∈ workers, ∀ off < H.size, H.route t off < H.size
  inj : ∀ t ∈ workers, ∀ o < H.size, ∀ o' < H.size, H.route t o = H.route t o' → o = o'
  onto : ∀ t ∈ workers, ∀ v < H.size, ∃ off < H.size, H.route t off = v

/-- Worker `t` has left heap `v`. -/
def past (v t : ℕ) (x : Stage α) : Bool :=
  (List.range (x.visits H.size)).any fun off => H.route t off == v

/-- How many workers have left heap `v`. -/
def passedBy (workers : Finset ℕ) (s : Draws α) (v : ℕ) : ℕ :=
  countThreads workers id fun t => H.past v t (s.worker t)

/-- The first `k` pieces of heap `v`. -/
def given (v k : ℕ) : Multiset α := ((H.pieces v).take k).flatten

end Heaps

/-- What the workers have in their hands. -/
def Draws.inHands (workers : Finset ℕ) (s : Draws α) : Multiset α :=
  ∑ t ∈ workers, ((s.worker t).rest : Multiset α)

/-- **The invariant.** -/
structure TicketInv (H : Heaps α) (workers : Finset ℕ) (s : Draws α) : Prop where
  place : ∀ t ∈ workers, (s.worker t).Ok H.size
  /-- Who has left a heap has drawn once in vain. -/
  counter : ∀ v < H.size, s.taken v = min (s.taken v) (H.pieces v).length + H.passedBy workers s v
  /-- What is given out has been done or is in a worker's hands. -/
  issued : (s.log : Multiset α) + s.inHands workers = ∑ v ∈ Finset.range H.size,
    H.given v (s.taken v)

/-! ### Leaving a heap -/

section Past

variable {H : Heaps α} {workers : Finset ℕ} {s : Draws α} {t v off k : ℕ} {x x' : Stage α}

theorem Heaps.past_iff : H.past v t x = true ↔ ∃ o < x.visits H.size, H.route t o = v := by
  simp [past]

theorem Heaps.past_congr (h : x'.visits H.size = x.visits H.size) (v t : ℕ) :
    H.past v t x' = H.past v t x := by
  unfold past
  rw [h]

theorem Heaps.visits_next (h : off < H.size) : (H.next off).visits H.size = off + 1 := by
  unfold next
  split_ifs
  · rfl
  · show H.size = off + 1
    omega

theorem Heaps.rest_next (off : ℕ) : (H.next off).rest = [] := by
  unfold next
  split_ifs <;> rfl

theorem Heaps.next_ok (off : ℕ) : (H.next off).Ok H.size := by
  unfold next
  split_ifs with h
  · exact h
  · trivial

theorem Heaps.past_next (h : off < H.size) :
    H.past v t (H.next off) = true ↔ H.past v t (.draw off) = true ∨ H.route t off = v := by
  rw [past_iff, past_iff, visits_next h]
  show (∃ o < off + 1, _) ↔ (∃ o < off, _) ∨ _
  simp only [Nat.lt_succ_iff_lt_or_eq, or_and_right, exists_or, exists_eq_left]

theorem Heaps.Routed.not_past (hR : H.Routed workers) (ht : t ∈ workers) (h : off < H.size) :
    H.past (H.route t off) t (.draw off) = false := by
  by_contra hp
  obtain ⟨o, ho, hv⟩ := past_iff.mp (by simpa using hp)
  have ho' : o < off := ho
  have := hR.inj t ht o (by omega) off h hv
  omega

/-- A worker that is through has left every heap. -/
theorem Heaps.Routed.past_through (hR : H.Routed workers) (ht : t ∈ workers) (hv : v < H.size) :
    H.past v t .through = true := past_iff.mpr (hR.onto t ht v hv)

theorem Heaps.drawn_of_lt (h : k < (H.pieces v).length) :
    H.drawn off v k = .hands off ((H.pieces v)[k]) := by
  rw [drawn, List.getElem?_eq_getElem h]

theorem Heaps.drawn_of_le (h : (H.pieces v).length ≤ k) : H.drawn off v k = H.next off := by
  rw [drawn, List.getElem?_eq_none h]

theorem Heaps.given_succ (h : k < (H.pieces v).length) :
    H.given v (k + 1) = H.given v k + ((H.pieces v)[k] : Multiset α) := by
  unfold given
  rw [List.take_succ_eq_append_getElem h, List.flatten_append, List.flatten_singleton,
    Multiset.coe_add]

theorem Heaps.given_of_le (h : (H.pieces v).length ≤ k) :
    H.given v k = ((H.pieces v).flatten : Multiset α) := by
  rw [given, List.take_of_length_le h]

end Past

/-! ### A step keeps the invariant -/

section Step

variable {H : Heaps α} {workers : Finset ℕ} {s s' : Draws α} {t v : ℕ} {x : Stage α}

@[simp] theorem Draws.goto_self : (s.goto t x).worker t = x := Function.update_self ..

theorem Draws.goto_of_ne {u : ℕ} (h : u ≠ t) : (s.goto t x).worker u = s.worker u :=
  Function.update_of_ne h ..

theorem Draws.inHands_goto (ht : t ∈ workers) :
    (s.goto t x).inHands workers + ((s.worker t).rest : Multiset α) =
    s.inHands workers + (x.rest : Multiset α) := by
  have h := sum_move (f := fun u => ((s.worker u).rest : Multiset α)) (g := fun u =>
    (((s.goto t x).worker u).rest : Multiset α))
    ht fun u hu => by rw [Draws.goto_of_ne hu]
  rwa [Draws.goto_self] at h

theorem ticketInv_start : TicketInv H workers Draws.start where
  place _ _ := trivial
  counter v _ := by
    have hzero : H.passedBy workers Draws.start v = 0 :=
      countThreads_eq_zero fun t _ => Bool.eq_false_iff.mpr fun hp => by
      obtain ⟨o, ho, -⟩ := Heaps.past_iff.mp hp
      exact absurd ho (Nat.not_lt_zero o)
    rw [hzero]
    rfl
  issued := by
    have hgiven : ∑ v ∈ Finset.range H.size, H.given v ((Draws.start : Draws α).taken v) = 0 :=
      Finset.sum_eq_zero fun _ _ => rfl
    have hhands : Draws.inHands workers (.start : Draws α) = 0 := Finset.sum_eq_zero fun _ _ => rfl
    rw [hgiven, hhands]
    rfl

theorem TicketInv.place_goto (h : TicketInv H workers s) (hok : x.Ok H.size) :
    ∀ u ∈ workers, ((s.goto t x).worker u).Ok H.size := by
  intro u hu
  by_cases hut : u = t
  · rw [hut, Draws.goto_self]
    exact hok
  · rw [Draws.goto_of_ne hut]
    exact h.place u hu

/-- No worker leaves a heap. -/
theorem passedBy_goto (hvis : H.past v t x = H.past v t (s.worker t)) :
    H.passedBy workers (s.goto t x) v = H.passedBy workers s v :=
  countThreads_congr fun u _ => by
    by_cases hut : u = t
    · rw [hut, Draws.goto_self, hvis]
    · rw [Draws.goto_of_ne hut]

/-- A worker moves on at its heap; the counters stay. -/
theorem TicketInv.moved (h : TicketInv H workers s) (log : List α) (hok : x.Ok H.size)
    (hvis : x.visits H.size = (s.worker t).visits H.size)
    (hlog : (log : Multiset α) + (s.goto t x).inHands workers =
      (s.log : Multiset α) + s.inHands workers) :
    TicketInv H workers { s.goto t x with log := log } where
  place := h.place_goto hok
  counter v hv := by
    have hsame : H.passedBy workers (s.goto t x) v = H.passedBy workers s v :=
      passedBy_goto (Heaps.past_congr hvis v t)
    exact (h.counter v hv).trans (congrArg _ hsame.symm)
  issued := hlog.trans h.issued

/-- What is given out when the counter of heap `v` goes up. -/
theorem sum_given_draw (hv : v < H.size) :
    ∑ w ∈ Finset.range H.size, H.given w (Function.update s.taken v (s.taken v + 1) w) +
    H.given v (s.taken v) = ∑ w ∈ Finset.range H.size, H.given w (s.taken w) + H.given v
      (s.taken v + 1) := by
  have h := sum_move (f := fun w => H.given w (s.taken w))
    (g := fun w => H.given w (Function.update s.taken v (s.taken v + 1) w))
      (Finset.mem_range.mpr hv) fun w hw => by rw [Function.update_of_ne hw]
  rwa [Function.update_self] at h

/-- A worker gets a piece. -/
theorem TicketInv.draw_piece (h : TicketInv H workers s) (ht : t ∈ workers) {off : ℕ}
    (hpc : s.worker t = .draw off) (hoff : off < H.size) (hv : v < H.size)
    (hk : s.taken v < (H.pieces v).length) :
    TicketInv H workers { s.goto t (.hands off ((H.pieces v)[s.taken v])) with
      taken := Function.update s.taken v (s.taken v + 1) } where
  place := h.place_goto hoff
  counter w hw := by
    have hsame : H.passedBy workers (s.goto t (.hands off ((H.pieces v)[s.taken v]))) w =
        H.passedBy workers s w :=
      passedBy_goto (by rw [hpc]; exact Heaps.past_congr rfl w t)
    have hw' := h.counter w hw
    show Function.update s.taken v (s.taken v + 1) w =
        min (Function.update s.taken v (s.taken v + 1) w) _ +
      H.passedBy workers (s.goto t (.hands off ((H.pieces v)[s.taken v]))) w
    rw [hsame]
    by_cases hwv : w = v
    · subst hwv
      rw [Function.update_self]
      omega
    · rw [Function.update_of_ne hwv]
      exact hw'
  issued := by
    have hhands := Draws.inHands_goto (s := s) (x := .hands off ((H.pieces v)[s.taken v])) ht
    have hsum := sum_given_draw (s := s) hv
    rw [Heaps.given_succ hk, add_left_comm, add_comm] at hsum
    rw [hpc] at hhands
    change (s.goto t _).inHands workers + 0 = _ + ((H.pieces v)[s.taken v] : Multiset α) at hhands
    rw [add_zero] at hhands
    show (s.log : Multiset α) + (s.goto t _).inHands workers = ∑ w ∈ Finset.range H.size,
      H.given w (Function.update s.taken v (s.taken v + 1) w)
    rw [hhands, ← add_assoc, h.issued, add_left_cancel hsum]

/-- A worker finds no piece left. -/
theorem TicketInv.draw_none (h : TicketInv H workers s) (hR : H.Routed workers)
    (ht : t ∈ workers) {off : ℕ} (hpc : s.worker t = .draw off) (hoff : off < H.size)
    (hv : H.route t off = v) (hk : (H.pieces v).length ≤ s.taken v) :
    TicketInv H workers { s.goto t (H.next off) with
      taken := Function.update s.taken v (s.taken v + 1) } where
  place := h.place_goto (H.next_ok off)
  counter w hw := by
    have hw' := h.counter w hw
    show Function.update s.taken v (s.taken v + 1) w =
        min (Function.update s.taken v (s.taken v + 1) w) _ +
      H.passedBy workers (s.goto t (H.next off)) w
    by_cases hwv : w = v
    · -- one more worker has left the heap
      subst hwv
      have hgain : H.passedBy workers (s.goto t (H.next off)) w = H.passedBy workers s w + 1 := by
        refine countThreads_gain ht ?_ ?_ fun u hu => ?_
        · rw [hpc, ← hv]
          exact hR.not_past ht hoff
        · rw [Draws.goto_self]
          exact (Heaps.past_next hoff).mpr (.inr hv)
        · rw [Draws.goto_of_ne hu]
      rw [hgain, Function.update_self]
      omega
    · rw [Function.update_of_ne hwv, passedBy_goto]
      · exact hw'
      · rw [hpc, Bool.eq_iff_iff, Heaps.past_next hoff, hv]
        exact or_iff_left fun h1 => hwv h1.symm
  issued := by
    have hhands := Draws.inHands_goto (s := s) (x := H.next off) ht
    rw [hpc, H.rest_next] at hhands
    change (s.goto t _).inHands workers + 0 = _ + 0 at hhands
    rw [add_zero, add_zero] at hhands
    show (s.log : Multiset α) + (s.goto t _).inHands workers = ∑ w ∈ Finset.range H.size,
      H.given w (Function.update s.taken v (s.taken v + 1) w)
    rw [hhands, h.issued]
    refine Finset.sum_congr rfl fun w _ => ?_
    by_cases hwv : w = v
    · rw [hwv, Function.update_self, H.given_of_le hk, H.given_of_le (by omega)]
    · rw [Function.update_of_ne hwv]

/-- What a step can do. -/
theorem Heaps.step_cases (hs : H.step s t = some s') :
    (s.worker t = .out ∧ s' = s.goto t (.draw 0)) ∨
    (∃ off, s.worker t = .draw off ∧
      s' = { s.goto t (H.drawn off (H.route t off) (s.taken (H.route t off))) with
      taken := Function.update s.taken (H.route t off) (s.taken (H.route t off) + 1) }) ∨
    (∃ off, s.worker t = .hands off [] ∧ s' = s.goto t (.draw off)) ∨
    ∃ off y ys, s.worker t = .hands off (y :: ys) ∧
      s' = { s.goto t (.hands off ys) with log := s.log ++ [y] } := by
  unfold step at hs
  cases hpc : s.worker t with
  | out =>
    rw [hpc] at hs
    exact .inl ⟨rfl, (Option.some.inj hs).symm⟩
  | draw off =>
    rw [hpc] at hs
    exact .inr (.inl ⟨off, rfl, (Option.some.inj hs).symm⟩)
  | hands off rest =>
    cases rest with
    | nil =>
      rw [hpc] at hs
      exact .inr (.inr (.inl ⟨off, rfl, (Option.some.inj hs).symm⟩))
    | cons y ys =>
      rw [hpc] at hs
      exact .inr (.inr (.inr ⟨off, y, ys, rfl, (Option.some.inj hs).symm⟩))
  | through => rw [hpc] at hs; cases hs

/-- **A step keeps the invariant.** -/
theorem TicketInv.step (h : TicketInv H workers s) (hR : H.Routed workers) (ht : t ∈ workers)
    (hs : H.step s t = some s') :
    TicketInv H workers s' := by
  have hok := h.place t ht
  have hhands := fun x => Draws.inHands_goto (s := s) (x := x) ht
  obtain ⟨hpc, rfl⟩ | ⟨off, hpc, rfl⟩ | ⟨off, hpc, rfl⟩ | ⟨off, y, ys, hpc, rfl⟩ := H.step_cases hs
  all_goals rw [hpc] at hok hhands
  · refine h.moved s.log hR.some_heap (by rw [hpc]; rfl) ?_
    exact congrArg _ (add_right_cancel (hhands (.draw 0)))
  · rcases Nat.lt_or_ge (s.taken (H.route t off)) (H.pieces (H.route t off)).length with hk | hk
    · rw [Heaps.drawn_of_lt hk]
      exact h.draw_piece ht hpc hok (hR.lt t ht off hok) hk
    · rw [Heaps.drawn_of_le hk]
      exact h.draw_none hR ht hpc hok rfl hk
  · refine h.moved s.log hok (by rw [hpc]; rfl) ?_
    exact congrArg _ (add_right_cancel (hhands (.draw off)))
  · -- what it does leaves its hands
    refine h.moved _ hok (by rw [hpc]; rfl) ?_
    have hless := hhands (.hands off ys)
    change _ + ((y :: ys : List α) : Multiset α) = _ + (ys : Multiset α) at hless
    rw [← Multiset.cons_coe, ← Multiset.singleton_add, ← add_assoc] at hless
    rw [← Multiset.coe_add, Multiset.coe_singleton, add_assoc, add_comm ({y} : Multiset α)]
    exact congrArg _ (add_right_cancel hless)

/-- Only a worker that draws changes a counter. -/
theorem Heaps.step_taken (hs : H.step s t = some s') :
    s'.taken = s.taken ∨ ∃ off, s.worker t = .draw off ∧
    s'.taken = Function.update s.taken (H.route t off) (s.taken (H.route t off) + 1) := by
  obtain ⟨-, rfl⟩ | ⟨off, hpc, rfl⟩ | ⟨-, -, rfl⟩ | ⟨-, -, -, -, rfl⟩ := H.step_cases hs
  · exact .inl rfl
  · exact .inr ⟨off, hpc, rfl⟩
  · exact .inl rfl
  · exact .inl rfl

/-- The other workers stand still. -/
theorem Heaps.step_worker (hs : H.step s t = some s') {u : ℕ} (hu : u ≠ t) :
    s'.worker u = s.worker u := by
  obtain ⟨-, rfl⟩ | ⟨-, -, rfl⟩ | ⟨-, -, rfl⟩ | ⟨-, -, -, -, rfl⟩ :=
    H.step_cases hs <;> exact Draws.goto_of_ne hu

/-- It holds in every state that is reached. -/
theorem ticketInv_reach (hR : H.Routed workers) (h : (H.system workers).Reachable s) :
    TicketInv H workers s :=
  h.invariant (fun _ hi => hi ▸ ticketInv_start) fun _ _ _ _ hI _ hs => hI.step hR hs.1 hs.2

end Step

/-! ### What the invariant says -/

section Consequences

variable {H : Heaps α} {workers : Finset ℕ} {s : Draws α} {t v off : ℕ}

/-- The counter a worker draws is not past the pieces by all the workers. -/
theorem TicketInv.taken_lt (h : TicketInv H workers s) (hR : H.Routed workers) (ht : t ∈ workers)
    (hpc : s.worker t = .draw off) :
    s.taken (H.route t off) < (H.pieces (H.route t off)).length + workers.card := by
  have hok := h.place t ht
  rw [hpc] at hok
  have hlt : H.passedBy workers s (H.route t off) < workers.card :=
    countThreads_lt (p := id) (f := fun u => H.past (H.route t off) u (s.worker u)) ht
      (by simp only [hpc]; exact hR.not_past ht hok)
  have hcount := h.counter _ (hR.lt t ht off hok)
  omega

/-- Of a heap that somebody has left all pieces are given out. -/
theorem TicketInv.le_taken (h : TicketInv H workers s) (hv : v < H.size) (ht : t ∈ workers)
    (hp : H.past v t (s.worker t) = true) : (H.pieces v).length ≤ s.taken v := by
  have hpos : 0 < H.passedBy workers s v := Finset.card_pos.mpr ⟨t, Finset.mem_filter.mpr ⟨ht, hp⟩⟩
  have hcount := h.counter v hv
  omega

/-- What is given out has been done if it is in nobody's hands. -/
theorem TicketInv.mem_log (h : TicketInv H workers s)
    (hrest : ∀ t ∈ workers, (s.worker t).rest = []) (hv : v < H.size) {y : α}
    (hy : y ∈ H.given v (s.taken v)) : y ∈ s.log := by
  have hhands : s.inHands workers = 0 := Finset.sum_eq_zero fun t ht => by
    rw [hrest t ht]
    rfl
  have hissued := h.issued
  rw [hhands, add_zero] at hissued
  rw [← Multiset.mem_coe, hissued, Multiset.mem_sum]
  exact ⟨v, Finset.mem_range.mpr hv, hy⟩

/-- Nothing is done that is in no piece. -/
theorem TicketInv.log_le (h : TicketInv H workers s) :
    (s.log : Multiset α) ≤ ∑ v ∈ Finset.range H.size, ((H.pieces v).flatten : Multiset α) := by
  refine (Multiset.le_add_right _ _).trans (h.issued.le.trans (Finset.sum_le_sum fun v _ => ?_))
  unfold Heaps.given
  nth_rewrite 2 [← List.take_append_drop (s.taken v) (H.pieces v)]
  rw [List.flatten_append, ← Multiset.coe_add]
  exact Multiset.le_add_right _ _

/-- **When all workers are through**, every piece has been done once, -/
theorem TicketInv.finished (h : TicketInv H workers s) (hR : H.Routed workers)
    (hne : workers.Nonempty) (hf : ∀ t ∈ workers, s.worker t = .through) :
    (s.log : Multiset α) = ∑ v ∈ Finset.range H.size, ((H.pieces v).flatten : Multiset α) := by
  have hhands : s.inHands workers = 0 := Finset.sum_eq_zero fun t ht => by
    rw [hf t ht]
    rfl
  have hissued := h.issued
  rw [hhands, add_zero] at hissued
  rw [hissued]
  obtain ⟨t, ht⟩ := hne
  refine Finset.sum_congr rfl fun v hv => H.given_of_le (h.le_taken (Finset.mem_range.mp hv) ht ?_)
  rw [hf t ht]
  exact hR.past_through ht (Finset.mem_range.mp hv)

/-- and every counter is past the pieces by all the workers. -/
theorem TicketInv.taken_eq (h : TicketInv H workers s) (hR : H.Routed workers)
    (hne : workers.Nonempty) (hf : ∀ t ∈ workers, s.worker t = .through) (hv : v < H.size) :
    s.taken v = (H.pieces v).length + workers.card := by
  have hall : H.passedBy workers s v = workers.card := countThreads_eq_card_iff.mpr fun t ht => by
    show H.past v t (s.worker t) = true
    rw [hf t ht]
    exact hR.past_through ht hv
  have hpos := hne.card_pos
  have hcount := h.counter v hv
  omega

end Consequences

/-! ### The workers get through -/

section Work

variable {H : Heaps α} {workers : Finset ℕ} {s s' : Draws α} {t v : ℕ} {x : Stage α}

/-- The steps a worker still takes, but for the pieces it is still to get. -/
def Stage.stepsLeft (size : ℕ) : Stage α → ℕ
  | .out => size + 1
  | .draw off => size - off
  | .hands off rest => size - off + rest.length + 1
  | .through => 0

/-- The steps the pieces of heap `v` from the `k`-th on lead to. -/
def Heaps.piecesLeft (H : Heaps α) (v k : ℕ) : ℕ :=
  (((H.pieces v).drop k).map fun xs => xs.length + 2).sum

/-- No run takes more steps. -/
def Heaps.work (H : Heaps α) (workers : Finset ℕ) (s : Draws α) : ℕ :=
  ∑ v ∈ Finset.range H.size, H.piecesLeft v (s.taken v) + ∑ t ∈ workers,
    (s.worker t).stepsLeft H.size

theorem Heaps.piecesLeft_succ {k : ℕ} (h : k < (H.pieces v).length) :
    H.piecesLeft v k = ((H.pieces v)[k]).length + 2 + H.piecesLeft v (k + 1) := by
  unfold piecesLeft
  rw [List.drop_eq_getElem_cons h, List.map_cons, List.sum_cons]

theorem Heaps.piecesLeft_of_le {k : ℕ} (h : (H.pieces v).length ≤ k) : H.piecesLeft v k = 0 := by
  rw [piecesLeft, List.drop_of_length_le h]
  rfl

theorem stepsLeft_goto (ht : t ∈ workers) :
    ∑ u ∈ workers, ((s.goto t x).worker u).stepsLeft H.size +
    (s.worker t).stepsLeft H.size = ∑ u ∈ workers,
    (s.worker u).stepsLeft H.size + x.stepsLeft H.size := by
  have h := sum_move (f := fun u => (s.worker u).stepsLeft H.size) (g := fun u =>
    ((s.goto t x).worker u).stepsLeft H.size)
    ht fun u hu => by rw [Draws.goto_of_ne hu]
  rwa [Draws.goto_self] at h

/-- A worker moves to where it has fewer steps left. -/
theorem Heaps.work_goto (log : List α) (ht : t ∈ workers)
    (hlt : x.stepsLeft H.size < (s.worker t).stepsLeft H.size) :
    H.work workers { s.goto t x with log := log } < H.work workers s := by
  have h := stepsLeft_goto (H := H) (s := s) (x := x) ht
  show ∑ v ∈ Finset.range H.size, H.piecesLeft v (s.taken v) + ∑ u ∈ workers,
      ((s.goto t x).worker u).stepsLeft H.size < _
  unfold work
  omega

theorem Heaps.stepsLeft_next {off : ℕ} (h : off < H.size) :
    (H.next off).stepsLeft H.size < H.size - off := by
  unfold next
  split_ifs
  · show H.size - (off + 1) < _
    omega
  · show 0 < _
    omega

/-- A draw leaves less work. -/
theorem Heaps.work_draw (hv : v < H.size) (ht : t ∈ workers) {off : ℕ}
    (hpc : s.worker t = .draw off) (hok : off < H.size) :
    H.work workers
      { s.goto t (H.drawn off v (s.taken v)) with
      taken := Function.update s.taken v (s.taken v + 1) } <
      H.work workers s := by
  have hleft := sum_move (f := fun w => H.piecesLeft w (s.taken w))
    (g := fun w => H.piecesLeft w (Function.update s.taken v (s.taken v + 1) w))
      (Finset.mem_range.mpr hv) fun w hw => by
      rw [Function.update_of_ne hw]
  have hsteps := stepsLeft_goto (H := H) (s := s) (x := H.drawn off v (s.taken v)) ht
  rw [Function.update_self] at hleft
  rw [hpc] at hsteps
  change _ + (H.size - off) = _ at hsteps
  show ∑ w ∈ Finset.range H.size, H.piecesLeft w (Function.update s.taken v (s.taken v + 1) w) +
    ∑ u ∈ workers, ((s.goto t (H.drawn off v (s.taken v))).worker u).stepsLeft H.size < _
  unfold Heaps.work
  rcases Nat.lt_or_ge (s.taken v) (H.pieces v).length with hk | hk
  · -- the piece is in its hands
    rw [H.piecesLeft_succ hk] at hleft
    have hx : (H.drawn off v (s.taken v)).stepsLeft H.size =
        H.size - off + ((H.pieces v)[s.taken v]).length + 1 := by
      rw [Heaps.drawn_of_lt hk]
      rfl
    omega
  · rw [H.piecesLeft_of_le hk, H.piecesLeft_of_le (by omega)] at hleft
    have hx : (H.drawn off v (s.taken v)).stepsLeft H.size < H.size - off := by
      rw [Heaps.drawn_of_le hk]
      exact H.stepsLeft_next hok
    omega

/-- A step leaves less work. -/
theorem TicketInv.work_lt (h : TicketInv H workers s) (hR : H.Routed workers) (ht : t ∈ workers)
    (hs : H.step s t = some s') :
    H.work workers s' < H.work workers s := by
  have hok := h.place t ht
  obtain ⟨hpc, rfl⟩ | ⟨off, hpc, rfl⟩ | ⟨off, hpc, rfl⟩ | ⟨off, y, ys, hpc, rfl⟩ := H.step_cases hs
  all_goals rw [hpc] at hok
  · refine H.work_goto s.log ht ?_
    rw [hpc]
    exact Nat.lt_succ_self _
  · exact H.work_draw (hR.lt t ht off hok) ht hpc hok
  · refine H.work_goto s.log ht ?_
    rw [hpc]
    exact Nat.lt_succ_self _
  · refine H.work_goto _ ht ?_
    rw [hpc]
    exact Nat.lt_succ_self _

end Work

end NetworkDemo.Foundations
