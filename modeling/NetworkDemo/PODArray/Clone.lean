import NetworkDemo.PODArray.Alias

/-!
# Clones

`clone` constructs an array of as many elements, assigns the elements to it, and copies the
one at index -1, which is in the left padding if there is one.

* `cloned_iff` — a clone is a copy, made by reading and writing inside the two blocks, if and
  only if the array is empty or there is a left padding, and the bytes for the elements and
  the paddings are at most `2⁶³`.
* `not_cloned` — one element, without paddings.
-/

namespace NetworkDemo.PODArray

open Foundations

variable {C : Template} {st st' : State} {arrays : ℕ → Option Arr} {i j : ℕ} {a b : Arr}
    {s r t : Heap × Arr}
  {ys : List (Elem C)} {left : Elem C}

/-- The elements of an array, and the one at index -1, are in its block. -/
def InBlock (C : Template) (h : Heap) (a : Arr) : Prop :=
  ∃ d ∈ h.blocks, a.Owns C d ∧ d.base + C.elementSize.toNat ≤ a.cStart.toNat ∧
    a.cStart.toNat + (a.size C).toNat * C.elementSize.toNat ≤ d.base + d.size

/-- Array `i` is a copy of array `j`, which is `b` and is left alone, and no bytes were read or
written that are outside the blocks of the two. -/
structure Cloned (C : Template) (st st' : State) (i j : ℕ) (b : Arr) : Prop where
  ordered : Ordered C st'
  copy : st'.lists i = some (b.contents C st.heap.mem)
  source : st'.arrays j = some b ∧ b.contents C st'.heap.mem = b.contents C st.heap.mem
  inside : b.size C ≠ 0 → InBlock C st.heap b ∧ ∃ c, st'.arrays i = some c ∧ InBlock C st'.heap c

/-! ### The paddings -/

/-- With a left padding index -1 is in the block. -/
theorem Own.inBlock {h : Heap} (ho : Own C h arrays) (hi : arrays i = some a) (hb : Bounds C a)
    (hnull : a.cStart ≠ C.null) (hp : C.padLeft ≠ 0) : InBlock C h a := by
  obtain ⟨d, hd, hin⟩ := ho.inside hi hb hnull
  have hE := Template.elementSize_le_padLeft hp
  have hend := hb.toNat_end
  have hle := hb.end_le
  have hstart := hin.start
  have hstop := hin.stop
  exact ⟨d, hd, hin.owns, by omega, by omega⟩

/-- Without one it is not. -/
theorem InBlock.padLeft {h : Heap} (hin : InBlock C h a) : C.padLeft ≠ 0 := by
  obtain ⟨d, -, ⟨-, hbase, -⟩, hle, -⟩ := hin
  intro hp
  have hE := C.elementSize_pos
  rw [hp, sub_zero] at hbase
  omega

/-! ### What is allocated -/

/-- An allocation that gives the null pointer to an array without a left padding. -/
theorem alloc_null {bytes : Size} (hs : alloc C bytes s = some t) (hnull : t.2.cStart = C.null) :
    bytes = 0 ∧ C.padLeft = 0 := by
  by_cases h0 : bytes = 0
  · exact ⟨h0, not_not.mp fun hp => (alloc_arr hs).1 ⟨h0, hp⟩⟩
  · obtain ⟨x, d, ha⟩ := alloc_spec hs h0
    rw [ha.arr] at hnull
    exact absurd hnull (start_ne_null ha.room.1 ha.base)

/-- The bytes of a clone, and what is known if it points to `null`. -/
theorem cloneInto_allocated (hs : cloneInto ys left s = some r) (hnew : s.2.cStart = C.null) :
    (∃ m, r.2.allocatedBytes C = C.bytesRequested m) ∧
      (count ys = 0 → r.2.cStart = C.null → C.padLeft = 0 ∧ r.2.allocatedBytes C = 0) := by
  obtain ⟨t, ht, rfl⟩ := Option.map_eq_some_iff.mp hs
  obtain ⟨v, hv, hv'⟩ := Option.bind_eq_some_iff.mp ht
  obtain ⟨u, hu, rfl⟩ := Option.map_eq_some_iff.mp hv
  obtain ⟨w, hw, rfl⟩ := Option.map_eq_some_iff.mp hv'
  have hu' : realloc C (C.bytesRequested (count ys)) s = some u := by
    rw [realloc, if_pos hnew]
    exact hu
  have halloc : u.2.allocatedBytes C = C.bytesRequested (count ys) := realloc_allocated hu'
  have hsame : ∀ x : Heap × Arr, (if x.2.size C ≠ 0 then
      ({ x.1 with mem := storeRecords x.1.mem (x.2.cStart - C.elementSize).toNat [left] }, x.2)
        else x).2 = x.2 := by
    intro x
    split
    · rfl
    · rfl
  rw [hsame]
  unfold require at hw
  split at hw
  · rename_i hlt
    refine ⟨?_, fun h0 => ?_⟩
    · unfold reserve at hw
      split at hw
      · have hgrown : w.2.allocatedBytes C = C.bytesRequested
            (roundUpToPowerOfTwoOrZero (count ys)) := realloc_allocated hw
        exact ⟨_, hgrown⟩
      · obtain rfl := Option.some.inj hw
        exact ⟨_, halloc⟩
    · rw [h0] at hlt
      exact absurd (BitVec.lt_def.mp hlt) (Nat.not_lt_zero _)
  · obtain rfl := Option.some.inj hw
    refine ⟨⟨_, halloc⟩, fun _ hnull => ?_⟩
    obtain ⟨hbytes, hp⟩ := alloc_null hu hnull
    exact ⟨hp, halloc.trans hbytes⟩

/-- The bytes for the elements of a clone that is in order were right. -/
theorem bytesFor_of_cloned (hs : cloneInto ys left s = some r) (hnew : s.2.cStart = C.null)
    (hb : Bounds C r.2) (hbare : r.2.cStart = C.null → r.2.cEndOfStorage = C.null)
    (hsize : (r.2.size C).toNat = ys.length) : C.bytesFor ys.length ≤ 2 ^ 63 := by
  obtain ⟨⟨m, hm⟩, hzero⟩ := cloneInto_allocated hs hnew
  by_cases hnull : r.2.cStart = C.null
  · have h0 := hb.size_null hnull (hbare hnull)
    rw [hsize] at h0
    obtain ⟨hp, hbytes⟩ := hzero (congrArg (BitVec.ofNat 64) h0) hnull
    rw [Arr.allocatedBytes, hbare hnull, hnull, sub_self, zero_add, hp, add_zero] at hbytes
    rw [h0, Template.bytesFor, hp, hbytes, toNat_zero]
    omega
  · refine (hb.bytesFor_le hnull (hsize.symm.trans_le hb.size_le_capacity)).trans ?_
    rw [hm]
    exact Template.bytesRequested_le

/-! ### Cloning -/

/-- With a left padding, or without elements, the bytes of other arrays are left alone. -/
theorem cloneInto_does (ho : Own C s.1 (Function.update arrays i (some s.2))) (hb : Bounds C s.2)
    (hs : cloneInto ys left s = some r) (hnew : s.2.cStart = C.null) (hlt : ys.length < 2 ^ 64)
    (hfor : C.bytesFor ys.length ≤ 2 ^ 63) (hpad : ys.length = 0 ∨ C.padLeft ≠ 0) :
    Own C r.1 (Function.update arrays i (some r.2)) ∧ Bounds C r.2 ∧ r.2.contents C r.1.mem = ys ∧
      ∀ q, Foreign C arrays i q → r.1.mem q = s.1.mem q := by
  have hcount : (count ys).toNat = ys.length := toNat_ofNat hlt
  obtain ⟨t, ht, rfl⟩ := Option.map_eq_some_iff.mp hs
  obtain ⟨u, hu, hu'⟩ := Option.bind_eq_some_iff.mp ht
  have hd := Does.sized ho hb hu hnew (hcount ▸ hfor)
  have hroom : ys.length ≤ (u.2.capacity C).toNat := by
    refine le_of_eq_of_le ?_ hd.bounds.size_le_capacity
    rw [← hcount, ← hd.lists, Arr.length_contents]
  have hd' := Does.assign hd.own hd.bounds hu' hlt (.inl hroom)
  have hframe : ∀ q, Foreign C arrays i q → t.1.mem q = s.1.mem q :=
    fun q hq => (hd'.frame q hq).trans (hd.frame q hq)
  split
  · rename_i hne
    have hsize : (t.2.size C).toNat = ys.length := by rw [← hd'.lists, Arr.length_contents]
    have hpos := toNat_pos hne
    have hnull :=
      hd'.bounds.ne_null (hd'.own.bare i t.2 update_same) hpos hd'.bounds.size_le_capacity
    have hp : C.padLeft ≠ 0 := hpad.resolve_left (by omega)
    have hE := Template.elementSize_le_padLeft hp
    obtain ⟨d, -, hin⟩ := hd'.own.inside update_same hd'.bounds hnull
    have hstart := hin.start
    have hcell : (t.2.cStart - C.elementSize).toNat = t.2.cStart.toNat - C.elementSize.toNat :=
      toNat_sub_le (by omega)
    have hleft : ∀ q, q < t.2.cStart.toNat - C.elementSize.toNat ∨ t.2.cStart.toNat ≤ q →
        storeRecords t.1.mem (t.2.cStart - C.elementSize).toNat [left] q = t.1.mem q := by
      intro q hq
      refine storeRecords_frame ?_
      rw [hcell, List.length_singleton, Nat.one_mul]
      omega
    refine ⟨Keeps.same arrays i hd'.own, hd'.bounds, ?_, fun q hq => ?_⟩
    · refine Eq.trans ?_ hd'.lists
      exact records_congr fun q hq _ => hleft q (.inr hq)
    · have hfar := hd'.own.foreign hd'.bounds hnull hq
      have hle := hd'.bounds.start_le.trans hd'.bounds.end_le
      exact (hleft q (by omega)).trans (hframe q hq)
  · exact ⟨hd'.own, hd'.bounds, hd'.lists, hframe⟩

/-- An array that is cloned: the new one is where there was none. -/
theorem step_clone (hj : st.arrays j = some b) (hs : step st (.clone i j : Op C) = some st') :
    st.arrays i = none ∧ ∃ r, cloneInto (b.contents C st.heap.mem) (b.before C st.heap.mem)
      (st.heap, Arr.new C (-1)) = some r ∧
      st' = st.set i r := by
  obtain ⟨b', hj', hs⟩ := Option.bind_eq_some_iff.mp hs
  obtain rfl := Option.some.inj (hj.symm.trans hj')
  unfold State.construct at hs
  split at hs
  · rename_i hi
    obtain ⟨r, hr, rfl⟩ := Option.map_eq_some_iff.mp hs
    exact ⟨hi, r, hr, rfl⟩
  · cases hs

/-- **When a clone is a copy** that is made inside the two blocks: if and only if there is nothing
to copy or a left padding, and the bytes are right. -/
theorem cloned_iff (hg : Ordered C st) (hj : st.arrays j = some b)
    (hs : step st (.clone i j : Op C) = some st') :
    Cloned C st st' i j b ↔ (b.size C = 0 ∨ C.padLeft ≠ 0) ∧ C.bytesFor
      (b.size C).toNat ≤ 2 ^ 63 := by
  have hbj := hg.bounds j b hj
  have hlength : (b.contents C st.heap.mem).length = (b.size C).toNat := by rw [Arr.length_contents]
  obtain ⟨hi, r, hr, rfl⟩ := step_clone hj hs
  have hsame : (st.set i r).arrays i = some r.2 := Function.update_self ..
  have hji : j ≠ i := by
    rintro rfl
    rw [hi] at hj
    cases hj
  constructor
  · intro hcloned
    refine ⟨?_, ?_⟩
    · by_contra hnot
      obtain ⟨hne, hp⟩ := not_or.mp hnot
      exact hp (hcloned.inside hne).1.padLeft
    · have hsize : (r.2.size C).toNat = (b.contents C st.heap.mem).length := by
        rw [← lists_set.mp hcloned.copy, Arr.length_contents]
      rw [← hlength]
      exact bytesFor_of_cloned hr rfl (hcloned.ordered.bounds i r.2 hsame)
        (hcloned.ordered.own.bare i r.2 hsame) hsize
  · rintro ⟨hpad, hfor⟩
    have ho := hg.own.created (a := Arr.new C (-1)) hi rfl rfl
    obtain ⟨hown, hb, hlists, hframe⟩ :=
      cloneInto_does (s := (st.heap, Arr.new C (-1))) ho (Bounds.empty rfl) hr rfl
      (hlength ▸ (b.size C).isLt) (hlength ▸ hfor) (hlength ▸ hpad.imp_left fun h =>
        congrArg BitVec.toNat h)
    refine ⟨hg.update hown hb, lists_set.mpr hlists,
      ⟨(update_ne hji).trans hj, hg.contents_eq hji hj hframe⟩, fun hne => ?_⟩
    have hp := hpad.resolve_left hne
    have hpos := toNat_pos hne
    have hsize : (r.2.size C).toNat = (b.size C).toNat := by
      rw [← hlength, ← hlists, Arr.length_contents]
    have hnull := hbj.ne_null (hg.own.bare j b hj) hpos hbj.size_le_capacity
    have hnull' :=
      hb.ne_null (hown.bare i r.2 update_same) hpos (hsize.symm.trans_le hb.size_le_capacity)
    exact ⟨hg.own.inBlock hj hbj hnull hp, r.2, hsame, hown.inBlock update_same hb hnull' hp⟩

/-- One element of a `vector`. -/
theorem cloned_iff_one : ∃ (st st' : State) (b : Arr), st.arrays 0 = some b ∧ b.size vector = 1 ∧
    step st (.clone 1 0 : Op vector) = some st' ∧ Cloned vector st st' 1 0 b := by
  have h0 : OrderlyVectors (start fun k => if k = 0 then 65536 else 131072) :=
    .init (start_initial (by decide) _)
  have h1 := h0.step (a := Op.create 0 (-1)) ⟨trivial, trivial⟩ rfl
  have h2 := h1.step (a := Op.call 0 (.resizeFill 1))
    ⟨fun _ _ => (by decide : vector.Fits 1), fun _ _ => ⟨nofun, trivial⟩⟩ rfl
  exact ⟨_, _, _, rfl, by decide, rfl, (cloned_iff (Ordered.of_reach h2) rfl rfl).mpr
    ⟨.inr (by decide), by decide⟩⟩

/-- One element, in an array without paddings. -/
theorem not_cloned : ∃ (st st' : State) (b : Arr),
    ((podArrays points).Reach (fun st op => op.Fits st ∧ op.Orderly st) st ∧ st.arrays 0 = some b) ∧
    b.size points = 1 ∧
      step st (.clone 1 0 : Op points) = some st' ∧ ¬ Cloned points st st' 1 0 b := by
  have h0 : (podArrays points).Reach (fun st op => op.Fits st ∧ op.Orderly st)
      (start fun k => if k = 0 then 65536 else 131072) := .init (start_initial (by decide) _)
  have h1 := h0.step (a := Op.create 0 (-1)) ⟨trivial, trivial⟩ rfl
  have h2 := h1.step (a := Op.call 0 (.resizeFill 1))
    ⟨fun _ _ => (by decide : points.Fits 1), fun _ _ => ⟨nofun, trivial⟩⟩ rfl
  refine ⟨_, _, _, ⟨h2, rfl⟩, by decide, rfl, fun hcloned => ?_⟩
  exact (hcloned.inside (by decide)).1.padLeft (by decide)

end NetworkDemo.PODArray
