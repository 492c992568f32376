import NetworkDemo.PODArray.Alias

/-!
# Comparing arrays

`operator==` compares the sizes, and then walks along both arrays until it finds elements that
differ or the first iterator is `end()`. Nothing else stops the loop: that it meets `end()` is
because the pointers are whole elements apart. `!=` of two elements is a parameter, since `T` may
have its own.

* `equal_lists` — the loop ends, and says whether the lists that the arrays stand for agree
  element by element, `!=` the opposite; after `assign(from)` they do.
-/

namespace NetworkDemo.PODArray

open Foundations

variable {C : Template}

/-- The loop of `operator==`, for at most so many turns. -/
def equalLoop (ne : Elem C → Elem C → Bool) (h : Heap) (stop : Size) : ℕ → Size → Size → Option Bool
  | 0, _, _ => none
  | turns + 1, thisIt, thatIt =>
    if thisIt = stop then some true
    else if ne (elementAt C h thisIt) (elementAt C h thatIt) = true then some false
    else equalLoop ne h stop turns (thisIt + C.byteSize 1) (thatIt + C.byteSize 1)

/-- `operator==(other)`. -/
def equal (ne : Elem C → Elem C → Bool) (h : Heap) (turns : ℕ) (a other : Arr) : Option Bool :=
  if a.size C ≠ other.size C then some false else equalLoop ne h a.cEnd turns a.cStart other.cStart

/-- `operator!=(other)`. -/
def notEqual (ne : Elem C → Elem C → Bool) (h : Heap) (turns : ℕ) (a other : Arr) : Option Bool :=
  (equal ne h turns a other).map not

/-- The elements agree, one by one. -/
def Agree (ne : Elem C → Elem C → Bool) : List (Elem C) → List (Elem C) → Prop :=
  List.Forall₂ fun x y => ne x y = false

variable {ne : Elem C → Elem C → Bool} {h : Heap} {a other : Arr} {st st' : State} {i j : ℕ}

/-! ### Positions -/

/-- The address of element `k`. -/
def Arr.at (C : Template) (a : Arr) (k : ℕ) : Size := a.cStart + C.byteSize (BitVec.ofNat 64 k)

theorem at_zero : a.at C 0 = a.cStart := by
  rw [Arr.at, Template.byteSize]
  exact (congrArg (a.cStart + ·) (BitVec.zero_mul)).trans (add_zero _)

theorem at_succ (k : ℕ) : a.at C k + C.byteSize 1 = a.at C (k + 1) := by
  have hone : BitVec.ofNat 64 (k + 1) = BitVec.ofNat 64 k + (1 : Size) := BitVec.ofNat_add k 1
  rw [Arr.at, Arr.at, hone]
  unfold Template.byteSize
  ring

section Bounded

variable (hb : Bounds C a) {k : ℕ}
include hb

omit hb in
theorem toNat_elem (hk : k ≤ (a.size C).toNat) : (BitVec.ofNat 64 k).toNat = k :=
  toNat_ofNat (hk.trans_lt (a.size C).isLt)

/-- The iterator is `end()` after the last element. -/
theorem Bounds.at_eq_end (hk : k ≤ (a.size C).toNat) :
    a.at C k = a.cEnd ↔ k = (a.size C).toNat := by
  have hat :=
    hb.toNat_at (n := BitVec.ofNat 64 k) (by rw [toNat_elem hk]; exact hk.trans hb.size_le_capacity)
  have hend := hb.toNat_end
  rw [toNat_elem hk] at hat
  constructor
  · intro he
    have hmul : k * C.elementSize.toNat = (a.size C).toNat * C.elementSize.toNat := by
      have := congrArg BitVec.toNat he
      unfold Arr.at at this
      omega
    exact Nat.eq_of_mul_eq_mul_right C.elementSize_pos hmul
  · rintro rfl
    exact BitVec.eq_of_toNat_eq (hat.trans hend.symm)

theorem Bounds.getElem_at (hk : k < (a.size C).toNat) :
    (a.contents C h.mem)[k]? = some (elementAt C h (a.at C k)) := by
  have hnat := toNat_elem hk.le
  have := contents_at (h := h) hb (k := BitVec.ofNat 64 k) (by rw [BitVec.lt_def, hnat]; exact hk)
  rwa [hnat] at this

theorem Bounds.drop_at (hk : k < (a.size C).toNat) :
    (a.contents C h.mem).drop k = elementAt C h (a.at C k) :: (a.contents C h.mem).drop
    (k + 1) := by
  have hlen : k < (a.contents C h.mem).length := by rwa [Arr.length_contents]
  have hget := hb.getElem_at (h := h) hk
  rw [List.getElem?_eq_getElem hlen] at hget
  rw [List.drop_eq_getElem_cons hlen, Option.some.inj hget]

end Bounded

/-! ### The loop -/

/-- **The loop from element `k` on** ends, and says whether what is left agrees. -/
theorem equalLoop_eq (ne : Elem C → Elem C → Bool) (h : Heap) (hb : Bounds C a)
    (hb' : Bounds C other) (hsize : a.size C = other.size C) {turns k : ℕ}
    (hk : k ≤ (a.size C).toNat) (hturns : (a.size C).toNat - k < turns) :
    ∃ r, equalLoop ne h a.cEnd turns (a.at C k) (other.at C k) = some r ∧
      (r = true ↔ Agree ne ((a.contents C h.mem).drop k) ((other.contents C h.mem).drop k)) := by
  induction turns generalizing k with
  | zero => exact absurd hturns (Nat.not_lt_zero _)
  | succ turns ih =>
    rw [equalLoop]
    by_cases hend : k = (a.size C).toNat
    · -- both are at their ends
      have hdrop : ∀ b : Arr, b.size C = a.size C → (b.contents C h.mem).drop k = [] := by
        intro b hb
        rw [List.drop_eq_nil_iff, Arr.length_contents, hb, hend]
      rw [if_pos ((hb.at_eq_end hk).mpr hend), hdrop a rfl, hdrop other hsize.symm]
      exact ⟨true, rfl, by simp [Agree]⟩
    · have hlt : k < (a.size C).toNat := by omega
      rw [if_neg fun he => hend ((hb.at_eq_end hk).mp he), hb.drop_at hlt,
        hb'.drop_at (hsize ▸ hlt), at_succ, at_succ]
      split_ifs with hne
      · refine ⟨false, rfl, ?_⟩
        rw [Agree, List.forall₂_cons]
        simp [hne]
      · obtain ⟨r, hr, hiff⟩ := ih hlt (by omega)
        refine ⟨r, hr, ?_⟩
        rw [hiff, Agree, List.forall₂_cons]
        simp [hne]

theorem equal_eq (ne : Elem C → Elem C → Bool) (h : Heap) (hb : Bounds C a)
    (hb' : Bounds C other) {turns : ℕ} (hturns : (a.size C).toNat < turns) :
    ∃ r, equal ne h turns a other = some r ∧ (r = true ↔
      Agree ne (a.contents C h.mem) (other.contents C h.mem)) := by
  unfold equal
  split_ifs with hsize
  · refine ⟨false, rfl, ?_⟩
    have hlen : ¬ Agree ne (a.contents C h.mem) (other.contents C h.mem) := fun hag => hsize <| by
      have := hag.length_eq
      rw [Arr.length_contents, Arr.length_contents] at this
      exact BitVec.eq_of_toNat_eq this
    simp [hlen]
  · have := equalLoop_eq ne h hb hb' (not_not.mp hsize) (Nat.zero_le _)
      (Nat.lt_of_le_of_lt (Nat.sub_le _ _) hturns)
    rwa [at_zero, at_zero, List.drop_zero, List.drop_zero] at this

theorem Agree.refl (hne : ∀ x, ne x x = false) (xs : List (Elem C)) : Agree ne xs xs :=
  List.forall₂_same.mpr fun x _ => hne x

/-- Both operators, where `==` gives `r`. -/
theorem notEqual_eq {turns : ℕ} {r : Bool} (hr : equal ne h turns a other = some r) :
    notEqual ne h turns a other = some (!r) := by
  rw [notEqual, hr, Option.map_some]

/-- After `assign(from)` both arrays hold the elements of the second. -/
theorem Ordered.assigned (hg : Ordered C st) (hf : (Op.assignFrom i j : Op C).Fits st)
    (hs : PODArray.step st (.assignFrom i j : Op C) = some st') :
    Ordered C st' ∧ ∃ a b, st'.arrays i = some a ∧ st'.arrays j = some b ∧
      a.contents C st'.heap.mem = b.contents C st'.heap.mem := by
  have hg' : Ordered C st' := hg.step hf trivial hs
  obtain ⟨a, hi, hs⟩ := Option.bind_eq_some_iff.mp hs
  obtain ⟨b, hj, hs⟩ := Option.bind_eq_some_iff.mp hs
  obtain ⟨r, hr, rfl⟩ := Option.map_eq_some_iff.mp hs
  have hfits : GrowFits C a (b.contents C st.heap.mem).length := by
    rw [Arr.length_contents]
    exact hf a b hi hj
  have hd := Does.assign ((update_self_eq hi).symm ▸ hg.own) (hg.bounds i a hi) hr
    ((Fits.lt hfits.1).trans (by decide)) hfits.grows
  by_cases hji : j = i
  · subst hji
    exact ⟨hg', r.2, r.2, update_same, update_same, rfl⟩
  · exact ⟨hg', r.2, b, update_same, (update_ne hji).trans hj,
      hd.lists.trans (hg.contents_eq hji hj hd.frame).symm⟩

/-- **Arrays are compared as the lists that they stand for**: in every state of a run the loop ends,
and says whether the lists agree; and after `assign(from)` they do, if no element differs from
itself. -/
theorem equal_lists (ne : Elem C → Elem C → Bool)
    (h : (podArrays C).Reach (fun st op => op.Fits st ∧ op.Orderly st) st) :
    (∀ i j a b, st.arrays i = some a → st.arrays j = some b → ∀ turns > (a.size C).toNat, ∃ r,
      equal ne st.heap turns a b = some r ∧ notEqual ne st.heap turns a b = some (!r) ∧
        (r = true ↔ Agree ne (a.contents C st.heap.mem) (b.contents C st.heap.mem))) ∧
      ((∀ x, ne x x = false) → ∀ i j st', (Op.assignFrom i j : Op C).Fits st →
        step st (.assignFrom i j : Op C) = some st' → ∃ a b, st'.arrays i = some a ∧
          st'.arrays j = some b ∧ ∀ turns > (a.size C).toNat,
            equal ne st'.heap turns a b = some true ∧
            notEqual ne st'.heap turns a b = some false) := by
  have hg := Ordered.of_reach h
  constructor
  · intro i j a b hi hj turns hturns
    obtain ⟨r, hr, hiff⟩ := equal_eq ne st.heap (hg.bounds i a hi) (hg.bounds j b hj) hturns
    exact ⟨r, hr, notEqual_eq hr, hiff⟩
  · intro hne i j st' hf hs
    obtain ⟨hg', a, b, ha, hb, hsame⟩ := hg.assigned hf hs
    refine ⟨a, b, ha, hb, fun turns hturns => ?_⟩
    obtain ⟨r, hr, hiff⟩ := equal_eq ne st'.heap (hg'.bounds i a ha) (hg'.bounds j b hb) hturns
    obtain rfl : r = true := hiff.mpr (hsame ▸ .refl hne _)
    exact ⟨hr, notEqual_eq hr⟩

/-- Elements differ if their first bytes do. -/
def firstByteNe (x y : Elem vector) : Bool := x ⟨0, by decide⟩ != y ⟨0, by decide⟩

/-- An array of one element is compared with itself, and assigned to another. -/
theorem equal_lists_assigned :
    ∃ (st st' : State) (a b c : Arr), st.arrays 0 = some c ∧ c.size vector = 1 ∧
    step st (.assignFrom 1 0 : Op vector) = some st' ∧ st'.arrays 1 = some a ∧
    st'.arrays 0 = some b ∧
      (∀ turns > (a.size vector).toNat, equal firstByteNe st'.heap turns a b = some true ∧
        notEqual firstByteNe st'.heap turns a b = some false) ∧
      ∃ r, equal firstByteNe st.heap 2 c c = some r := by
  have h0 : OrderlyVectors (start fun k => if k = 0 then 65536 else 131072) :=
    .init (start_initial (by decide) _)
  have h1 := h0.step (a := Op.create 0 (-1)) ⟨trivial, trivial⟩ rfl
  have h2 := h1.step (a := Op.call 0 (.resizeFillValue 1 fun _ => 7))
    ⟨fun _ _ => (by decide : vector.Fits 1), fun _ _ => ⟨nofun, trivial⟩⟩ rfl
  have h3 := h2.step (a := Op.create 1 (-1)) ⟨trivial, trivial⟩ rfl
  obtain ⟨st, hr, c, hc, hsize, hf, st', hs⟩ : ∃ st, OrderlyVectors st ∧
      ∃ c, st.arrays 0 = some c ∧ c.size vector = 1 ∧ (Op.assignFrom 1 0 : Op vector).Fits st ∧
        ∃ st', step st (.assignFrom 1 0 : Op vector) = some st' := by
    refine ⟨_, h3, _, rfl, by decide, fun a b ha hb => ?_, _, rfl⟩
    obtain rfl := Option.some.inj ha
    obtain rfl := Option.some.inj hb
    exact ⟨by decide, fun _ => by decide⟩
  have hne : ∀ x, firstByteNe x x = false := fun x => bne_self_eq_false _
  obtain ⟨hloop, hassign⟩ := equal_lists firstByteNe hr
  obtain ⟨a, b, ha, hb, heq⟩ := hassign hne 1 0 st' hf hs
  obtain ⟨r, hequal, -⟩ := hloop 0 0 c c hc hc 2 (by rw [hsize]; decide)
  exact ⟨st, st', a, b, c, hc, hsize, hs, ha, hb, heq, r, hequal⟩

end NetworkDemo.PODArray
