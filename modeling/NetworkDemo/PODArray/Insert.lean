import NetworkDemo.PODArray.Bounds

/-!
# Insertion in the middle

`insert(it, from_begin, from_end)` prepares for the new elements, which can move the storage,
and then uses `it`, which points into the old one. It makes a gap by `memcpy` of the elements
from `it` on, to where they are to be; that overlaps where they are if the gap is smaller.

* `insertAt_iff` — the insertion does what it is for if and only if the storage stays where it
  is and at least as many elements are inserted as are moved.
* `not_inserted` — one element before two, and one before none.
-/

namespace NetworkDemo.PODArray

open Foundations

variable {C : Template} {st st' : State} {arrays : ℕ → Option Arr} {i : ℕ} {a : Arr}
    {s r t : Heap × Arr}

/-- The storage of an array that is prepared for `k` more elements stays where it is, with room for
them: it has room, or the allocator's answer is the address of the array's block, and a power of two
of elements with the paddings is not too many bytes. -/
def Stays (C : Template) (h : Heap) (a : Arr) (k : ℕ) : Prop :=
  (a.size C).toNat + k ≤ (a.capacity C).toNat ∨
    C.bytesFor (2 ^ ((a.size C).toNat + k - 1).size) ≤ 2 ^ 63 ∧ a.cStart ≠ C.null ∧
      h.answer.base = a.cStart - C.padLeft

/-! ### Preparing -/

theorem realloc_start {bytes : Size} (ho : Own C s.1 (Function.update arrays i (some s.2)))
    (hs : realloc C bytes s = some t) (hbytes : bytes ≠ 0) :
    t.2.cStart = s.2.cStart ↔ s.2.cStart ≠ C.null ∧ s.1.answer.base = s.2.cStart - C.padLeft := by
  by_cases hnull : s.2.cStart = C.null
  · rw [realloc, if_pos hnull] at hs
    obtain ⟨x, b, ha⟩ := alloc_spec hs hbytes
    have hne := start_ne_null ha.room.1 ha.base
    rw [ha.arr, hnull]
    exact iff_of_false hne fun h => h.1 rfl
  · obtain ⟨b, hb, hab⟩ := ho.has i s.2 update_same hnull
    obtain ⟨x, b', ha⟩ := realloc_spec hs ho.wf hb hab
    rw [ha.arr, ← ha.answer]
    constructor
    · intro heq
      have heq : x + C.padLeft = s.2.cStart := heq
      exact ⟨hnull, by rw [← heq, start_sub]⟩
    · rintro ⟨-, rfl⟩
      exact sub_add_cancel _ _

/-- After `realloc` `c_end` is as far from `c_start` as it was. -/
theorem realloc_end {bytes : Size} (hend : s.2.cStart = C.null → s.2.cEnd = s.2.cStart)
    (hs : realloc C bytes s = some t) : t.2.cEnd = t.2.cStart + (s.2.cEnd - s.2.cStart) := by
  unfold realloc at hs
  split at hs
  · rename_i hnull
    obtain ⟨-, x, hx⟩ := alloc_arr hs
    rw [hx, hend hnull, sub_self, add_zero]
  · obtain ⟨x, -, rfl⟩ := Option.map_eq_some_iff.mp hs
    rfl

variable {k : ℕ} {q : Size}

/-- `insertPrepare` calls `realloc` or does nothing. -/
theorem insertPrepare_eq (hn : (s.2.size C).toNat + k < 2 ^ 64) :
    insertPrepare C (BitVec.ofNat 64 k) s =
      if (s.2.capacity C).toNat < (s.2.size C).toNat + k ∧
          s.2.capacity C < roundUpToPowerOfTwoOrZero (BitVec.ofNat 64 ((s.2.size C).toNat + k)) then
        realloc C
          (C.bytesRequested (roundUpToPowerOfTwoOrZero (BitVec.ofNat 64 ((s.2.size C).toNat + k))))
          s
      else some s := by
  have hk := toNat_ofNat hn
  simp only [insertPrepare, ofNat_add_length, require, reserve, ite_and, BitVec.lt_def, hk]
  rfl

/-- The bytes that were allocated for an array that is in order were right. -/
theorem Grows.of_bounds (hn : (s.2.size C).toNat + k < 2 ^ 64)
    (hs : insertPrepare C (BitVec.ofNat 64 k) s = some t) (hq : Bounds C { t.2 with cEnd := q })
    (hbare : t.2.cStart = C.null → t.2.cEndOfStorage = C.null)
    (hcap : (s.2.size C).toNat + k ≤ (t.2.capacity C).toNat) :
    Grows C s.2 ((s.2.size C).toNat + k) := by
  by_contra hnot
  obtain ⟨hfull, hbytes⟩ := not_or.mp hnot
  have hpos := Nat.zero_lt_of_lt (not_le.mp hfull)
  rw [insertPrepare_eq hn] at hs
  split at hs
  · have hfor : C.bytesFor _ ≤ (t.2.allocatedBytes C).toNat :=
      hq.bytesFor_le (hq.ne_null hbare hpos hcap) hcap
    rw [realloc_allocated hs] at hfor
    exact hbytes ((Template.le_bytesRequested_iff hpos).mp hfor)
  · obtain rfl := Option.some.inj hs
    exact hfull hcap

section Prepare

variable (ho : Own C s.1 (Function.update arrays i (some s.2))) (hb : Bounds C s.2)
  (hn : ((s.2.size C).toNat + k) * C.elementSize.toNat < 2 ^ 64)
  (hs : insertPrepare C (BitVec.ofNat 64 k) s = some t)
include ho hb hn hs

theorem Stays.does (h : Stays C s.1 s.2 k) :
    Does C arrays i s t Eq ∧ (s.2.size C).toNat + k ≤ (t.2.capacity C).toNat ∧
    t.2.cStart = s.2.cStart := by
  have hlt := (Nat.le_mul_of_pos_right ((s.2.size C).toNat + k) C.elementSize_pos).trans_lt hn
  have hgrows : Grows C s.2 ((s.2.size C).toNat + k) := h.imp_right fun hr => hr.1
  have hreq := hs
  rw [insertPrepare, ofNat_add_length] at hreq
  obtain ⟨hd, hcap⟩ := Does.require ho hb hreq hlt hgrows
  refine ⟨hd, hcap, ?_⟩
  rw [insertPrepare_eq hlt] at hs
  split at hs
  · rename_i hgrow
    obtain ⟨hfor, hsame⟩ := h.resolve_left (not_le.mpr hgrow.1)
    have hpos := Nat.zero_lt_of_lt hgrow.1
    have hbytes := (Template.le_bytesRequested_iff hpos).mpr hfor
    refine (realloc_start ho hs fun h0 => ?_).mpr hsame
    rw [h0] at hbytes
    exact absurd hbytes (not_le.mpr (bytesFor_pos hpos))
  · obtain rfl := Option.some.inj hs
    rfl

/-- If the array is in order with `k` more elements, and where it was, then that is so. -/
theorem Stays.of_bounds
    (hq : Bounds C { t.2 with cEnd := t.2.cEnd + C.byteSize (BitVec.ofNat 64 k) })
    (hbare : t.2.cStart = C.null → t.2.cEndOfStorage = C.null) (hstart : t.2.cStart = s.2.cStart) :
    Stays C s.1 s.2 k := by
  have hlt := (Nat.le_mul_of_pos_right ((s.2.size C).toNat + k) C.elementSize_pos).trans_lt hn
  have hend : s.2.cStart = C.null → s.2.cEnd = s.2.cStart := fun hnull =>
    hb.end_null hnull (ho.bare i s.2 update_same hnull)
  have hptr : t.2.cEnd = t.2.cStart + (s.2.cEnd - s.2.cStart) := by
    rw [insertPrepare_eq hlt] at hs
    split at hs
    · exact realloc_end hend hs
    · obtain rfl := Option.some.inj hs
      exact (add_sub_cancel _ _).symm
  have hsum : (s.2.cEnd - s.2.cStart + C.byteSize (BitVec.ofNat 64 k)).toNat =
      ((s.2.size C).toNat + k) * C.elementSize.toNat := by
    have hk := toNat_ofNat (k := k) (by omega)
    rw [Nat.add_mul] at hn ⊢
    rw [BitVec.toNat_add, toNat_sub_le hb.start_le, ← hb.size_mul,
      Template.toNat_byteSize (by rw [hk]; omega), hk, Nat.mod_eq_of_lt hn]
  -- where `c_end` is now says how much room there must be
  have hcap : (s.2.size C).toNat + k ≤ (t.2.capacity C).toNat := by
    have h1 := hq.start_le
    have h2 := hq.end_le
    refine hq.le_capacity.mpr ?_
    dsimp only at h1 h2 ⊢
    rw [hptr, add_assoc, BitVec.toNat_add, hsum] at h1 h2
    omega
  refine or_iff_not_imp_left.mpr fun hfull => ?_
  have hpos := Nat.zero_lt_of_lt (not_le.mp hfull)
  have hfor := (Grows.of_bounds hlt hs hq hbare hcap).resolve_left hfull
  have hreq := (Template.le_bytesRequested_iff hpos).mpr hfor
  rw [insertPrepare_eq hlt] at hs
  split at hs
  · refine ⟨hfor, (realloc_start ho hs fun h0 => ?_).mp hstart⟩
    rw [h0] at hreq
    exact absurd hreq (not_le.mpr (bytesFor_pos hpos))
  · obtain rfl := Option.some.inj hs
    exact absurd hcap hfull

end Prepare

/-! ### Places -/

/-- The bytes that are moved, and the addresses they are moved from and to. -/
theorem moved_places {p k : Size} (hb : Bounds C a) (hp : p.toNat ≤ (a.size C).toNat)
    (hcap : (a.size C).toNat + k.toNat ≤ (a.capacity C).toNat) :
    ((a.cEnd - (a.cStart + C.byteSize p)) / C.elementSize * C.elementSize).toNat =
        ((a.size C).toNat - p.toNat) * C.elementSize.toNat ∧
      (a.cEnd - (a.cEnd - (a.cStart + C.byteSize p)) / C.elementSize * C.elementSize).toNat =
        a.cStart.toNat + p.toNat * C.elementSize.toNat ∧
      (a.cEnd + C.byteSize k - (a.cEnd - (a.cStart + C.byteSize p)) / C.elementSize *
        C.elementSize).toNat =
        a.cStart.toNat + (p.toNat + k.toNat) * C.elementSize.toNat := by
  have hend := hb.toNat_end
  have hit := hb.toNat_at (hp.trans hb.size_le_capacity)
  have hbehind := hb.toNat_behind hcap
  have hmul : (a.size C).toNat * C.elementSize.toNat =
      p.toNat * C.elementSize.toNat + ((a.size C).toNat - p.toNat) * C.elementSize.toNat := by
    rw [← Nat.add_mul, Nat.add_sub_cancel' hp]
  have hdiff : (a.cEnd - (a.cStart + C.byteSize p)).toNat =
      ((a.size C).toNat - p.toNat) * C.elementSize.toNat := by
    rw [toNat_sub_le (by omega), hit, hend]
    omega
  have hmove : ((a.cEnd - (a.cStart + C.byteSize p)) / C.elementSize * C.elementSize).toNat =
      ((a.size C).toNat - p.toNat) * C.elementSize.toNat := by
    have hlt := (a.cEnd - (a.cStart + C.byteSize p)).isLt
    rw [BitVec.toNat_mul, BitVec.toNat_udiv, hdiff, Nat.mul_div_cancel _ C.elementSize_pos]
    exact Nat.mod_eq_of_lt (by omega)
  rw [Nat.add_mul] at hbehind ⊢
  refine ⟨hmove, ?_, ?_⟩
  · rw [toNat_sub_le (by omega), hmove]
    omega
  · rw [toNat_sub_le (by omega), hmove, hbehind]
    omega

/-! ### The gap -/

section Gap

variable {h : Heap} {dst src n : Size}

/-- If there is something to move, it must not overlap where it goes. -/
theorem gap_meaningless : (if n ≠ 0 then h.memcpy dst src n else h).meaningless = false ↔
    h.meaningless = false ∧ (n.toNat = 0 ∨ dst.toNat + n.toNat ≤ src.toNat ∨
      src.toNat + n.toNat ≤ dst.toNat) := by
  by_cases hn : n = 0
  · have h0 : n.toNat = 0 := congrArg BitVec.toNat hn
    rw [if_neg (not_not.mpr hn)]
    exact ⟨fun hm => ⟨hm, .inl h0⟩, fun hm => hm.1⟩
  · have hne : n.toNat ≠ 0 := fun h0 => hn (BitVec.eq_of_toNat_eq h0)
    rw [if_pos hn, Heap.memcpy, Bool.or_eq_false_iff, Bool.not_eq_false', decide_eq_true_iff,
      or_iff_right hne]

theorem gap_before {q : ℕ} (hq : q < dst.toNat) :
    (if n ≠ 0 then h.memcpy dst src n else h).mem q = h.mem q := by
  split
  · exact if_neg (by omega)
  · rfl

theorem gap_moved {k : ℕ} (hk : k < n.toNat) :
    (if n ≠ 0 then h.memcpy dst src n else h).mem (dst.toNat + k) = h.mem (src.toNat + k) := by
  have hne : n ≠ 0 := by
    rintro rfl
    exact Nat.not_lt_zero k hk
  rw [if_pos hne, Heap.memcpy]
  simp only [Nat.le_add_right, Nat.add_lt_add_left hk, and_self, if_true, Nat.add_sub_cancel_left]

end Gap

/-- The elements after the gap is filled. -/
theorem records_filled {w k n m p : ℕ} {mem mem' : ℕ → Byte} {ys : List (Fin w → Byte)}
    (hpn : p ≤ n) (hk : ys.length = k) (hbefore : ∀ q, q < m + (p + k) * w → mem' q = mem q)
    (hmoved : ∀ j, j < (n - p) * w → mem' (m + (p + k) * w + j) = mem (m + p * w + j)) :
    records w (storeRecords mem' (m + p * w) ys) m (n + k) =
      (records w mem m n).take p ++ ys ++ (records w mem m n).drop p := by
  have hsplit : n + k = p + k + (n - p) := by omega
  rw [hsplit, records_add, ← hk, records_store_append, take_records hpn, drop_records hpn]
  rw [← hk] at hbefore hmoved
  have hfirst : records w mem' m p = records w mem m p := by
    refine records_congr fun q _ hq => hbefore q ?_
    rw [Nat.add_mul]
    omega
  have hlast : records w (storeRecords mem' (m + p * w) ys) (m + (p + ys.length) * w) (n - p) =
      records w mem (m + p * w) (n - p) := by
    refine records_move fun j hj => ?_
    rw [← hmoved j hj]
    refine storeRecords_frame (.inr ?_)
    rw [Nat.add_mul]
    omega
  rw [hfirst, hlast]

/-! ### Inserting -/

/-- A number of elements behind which there is memory is a `size_t`. -/
theorem toNat_count_of_lt {ys : List (Elem C)} {n : ℕ}
    (hn : (n + ys.length) * C.elementSize.toNat < 2 ^ 64) :
    (count ys).toNat = ys.length := by
  have hlt := (Nat.le_mul_of_pos_right (n + ys.length) C.elementSize_pos).trans_lt hn
  exact toNat_ofNat (by omega)

section Inserting

variable {p : Size} {ys : List (Elem C)} (ht : insertPrepare C (count ys) s = some t)
  (hr : insertAt (s.2.cStart + C.byteSize p) ys s = some r)
include ht hr

theorem insertAt_keeps : Keeps C t r := by
  rw [insertAt, ht, Option.map_some] at hr
  obtain rfl := Option.some.inj hr
  dsimp only
  split
  · exact Keeps.same
  · exact Keeps.same

theorem insertAt_array : r.2 = { t.2 with cEnd := t.2.cEnd + C.byteSize (count ys) } := by
  rw [insertAt, ht, Option.map_some] at hr
  obtain rfl := Option.some.inj hr
  rfl

/-- The iterator must be of the storage there is then. -/
theorem insertAt_start (hm : r.1.meaningless = false) : t.2.cStart = s.2.cStart := by
  rw [insertAt, ht, Option.map_some] at hr
  obtain rfl := Option.some.inj hr
  have hflag := (gap_meaningless.mp hm).1
  simp only [Bool.or_eq_false_iff, Bool.not_eq_false', decide_eq_true_iff] at hflag
  exact hflag.2.1

variable (hb : Bounds C t.2) (hstart : t.2.cStart = s.2.cStart) (hp : p.toNat ≤ (t.2.size C).toNat)
  (hcount : (count ys).toNat = ys.length) (hcap : (t.2.size C).toNat + (count ys).toNat ≤
    (t.2.capacity C).toNat)
include hb hstart hp hcount hcap

/-- If it is, as many must be inserted as are moved, or more. -/
theorem insertAt_meaningless (hm : t.1.meaningless = false) :
    r.1.meaningless = false ↔ (t.2.size C).toNat - p.toNat ≤ ys.length := by
  obtain ⟨hmove, hsrc, hdst⟩ := moved_places hb hp hcap
  have hit := hb.toNat_at (hp.trans hb.size_le_capacity)
  have hend := hb.toNat_end
  have hmul := Nat.mul_le_mul_right C.elementSize.toNat hp
  have hle : (t.2.size C).toNat - p.toNat ≤ ys.length ↔
      ((t.2.size C).toNat - p.toNat) * C.elementSize.toNat ≤ ys.length * C.elementSize.toNat :=
    (Nat.mul_le_mul_right_iff C.elementSize_pos).symm
  rw [hstart] at hmove hsrc hdst hit hend
  have hinside : t.2.cStart = s.2.cStart ∧ t.2.cStart ≤ s.2.cStart + C.byteSize p ∧
      s.2.cStart + C.byteSize p ≤ t.2.cEnd := by
    refine ⟨hstart, ?_, ?_⟩
    · rw [hstart, BitVec.le_def, hit]
      exact Nat.le_add_right _ _
    · rw [BitVec.le_def, hit, hend]
      exact Nat.add_le_add_left hmul _
  rw [insertAt, ht, Option.map_some] at hr
  obtain rfl := Option.some.inj hr
  rw [hle]
  refine gap_meaningless.trans ?_
  rw [hmove, hsrc, hdst, hm, decide_eq_true hinside, hcount, Nat.add_mul]
  simp only [Bool.not_true, Bool.or_false, true_and]
  omega

/-- Then the elements are where they are to be: a gap that is large enough is filled. -/
theorem insertAt_contents : r.2.contents C r.1.mem =
    (t.2.contents C t.1.mem).take p.toNat ++ ys ++ (t.2.contents C t.1.mem).drop p.toNat := by
  obtain ⟨hmove, hsrc, hdst⟩ := moved_places hb hp hcap
  have hq := hb.toNat_behind hcap
  have hnew := (hb.setEnd hq hcap).size_eq hq
  rw [hstart] at hmove hsrc hdst
  rw [insertAt, ht, Option.map_some] at hr
  obtain rfl := Option.some.inj hr
  dsimp only [setEnd, put]
  rw [Arr.contents, hnew, hsrc, hcount]
  dsimp only
  rw [hstart, Arr.contents, hstart]
  refine records_filled hp rfl (fun q hq => ?_) fun j hj => ?_
  · exact gap_before (by rw [hdst, hcount]; exact hq)
  · rw [← hcount, ← hdst, ← hsrc]
    exact gap_moved (by rw [hmove]; exact hj)

end Inserting

/-- **Insertion in the middle** of an array: it is meaningful, the arrays are in order afterwards
and the elements where they are to be if and only if the storage stays where it is, and as many are
inserted as are moved, or more. The array and the range are apart, in a memory of `2⁶⁴` bytes. -/
theorem insertAt_iff {p : Size} {ys : List (Elem C)} (hg : Ordered C st)
    (h0 : st.heap.meaningless = false) (hi : st.arrays i = some a) (hp : p.toNat ≤ (a.size C).toNat)
    (hn : ((a.size C).toNat + ys.length) * C.elementSize.toNat < 2 ^ 64)
    (hs : step st (.call i (.insertAt p ys)) = some st') :
    (st'.heap.meaningless = false ∧ Ordered C st' ∧
      st'.lists i = some ((a.contents C st.heap.mem).take p.toNat ++ ys ++
        (a.contents C st.heap.mem).drop p.toNat)) ↔
      Stays C st.heap a ys.length ∧ (a.size C).toNat - p.toNat ≤ ys.length := by
  have ho := (update_self_eq hi).symm ▸ hg.own
  have hb := hg.bounds i a hi
  obtain ⟨a', hi', hs⟩ := Option.bind_eq_some_iff.mp hs
  obtain rfl := Option.some.inj (hi.symm.trans hi')
  obtain ⟨r, hr, rfl⟩ := Option.map_eq_some_iff.mp hs
  obtain ⟨t, ht, -⟩ := Option.map_eq_some_iff.mp hr
  change insertAt ((st.heap, a).2.cStart + C.byteSize p) ys (st.heap, a) = some r at hr
  have harr := insertAt_array ht hr
  constructor
  · rintro ⟨hm, hordered, -⟩
    have hstart := insertAt_start ht hr hm
    have hq := hordered.bounds i r.2 update_same
    have hbare := hordered.own.bare i r.2 update_same
    rw [harr] at hq hbare
    have hstays := Stays.of_bounds (s := (st.heap, a)) ho hb hn ht hq hbare hstart
    obtain ⟨hd, hcap, -⟩ := Stays.does (s := (st.heap, a)) ho hb hn ht hstays
    have hcount := toNat_count_of_lt hn
    rw [hd.size_eq, ← hcount] at hcap
    have hroom := insertAt_meaningless ht hr hd.bounds hstart (hp.trans_eq hd.size_eq) hcount hcap
      (hd.meaningless.trans h0)
    exact ⟨hstays, hd.size_eq ▸ hroom.mp hm⟩
  · rintro ⟨hstays, hle⟩
    obtain ⟨hd, hcap, hstart⟩ := Stays.does (s := (st.heap, a)) ho hb hn ht hstays
    have hcount := toNat_count_of_lt hn
    rw [hd.size_eq, ← hcount] at hcap
    have hp' := hp.trans_eq hd.size_eq
    have hroom :=
      insertAt_meaningless ht hr hd.bounds hstart hp' hcount hcap (hd.meaningless.trans h0)
    have hcontents := insertAt_contents ht hr hd.bounds hstart hp' hcount hcap
    rw [← hd.lists] at hcontents
    refine ⟨hroom.mpr (hd.size_eq ▸ hle), hg.update (insertAt_keeps ht hr st.arrays i hd.own) ?_,
      ?_⟩
    · rw [harr]
      exact hd.bounds.setEnd (hd.bounds.toNat_behind hcap) hcap
    · rw [← hcontents]
      exact lists_some update_same

/-- A run of `vector`s whose operations fit and are in order. -/
abbrev OrderlyVectors : State → Prop :=
  (podArrays vector).Reach fun st op => op.Fits st ∧ op.Orderly st

/-- Two elements. -/
theorem twoPushed : ∃ st, exec step (start fun _ => 65536)
    ([.create 0 (-1), .call 0 (.pushBack fun _ => 7),
    .call 0 (.pushBack fun _ => 8)] : List (Op vector)) = some st ∧ OrderlyVectors st := by
  have h0 : OrderlyVectors (start fun _ => 65536) := .init (start_initial (by decide) _)
  have h1 := h0.step (a := Op.create 0 (-1)) ⟨trivial, trivial⟩ rfl
  have h2 := h1.step (a := Op.call 0 (.pushBack fun _ => 7)) ⟨fun a ha => by
    obtain rfl := Option.some.inj ha
    exact fun _ => by decide, fun a ha => by
    obtain rfl := Option.some.inj ha
    exact ⟨nofun, .inl rfl⟩⟩ rfl
  have h3 := h2.step (a := Op.call 0 (.pushBack fun _ => 8)) ⟨fun a ha => by
    obtain rfl := Option.some.inj ha
    exact fun hend => absurd hend (by decide), fun a ha => by
    obtain rfl := Option.some.inj ha
    exact ⟨nofun, .inr (by decide)⟩⟩ rfl
  exact ⟨_, rfl, h3⟩

/-- Two elements before the second of two. -/
theorem insertAt_iff_two : ∃ (st st' : State) (a : Arr), st.arrays 0 = some a ∧ a.size vector = 2 ∧
    step st (.call 0 (.insertAt 1 [fun _ => 5, fun _ => 6]) : Op vector) = some st' ∧
    st'.heap.meaningless = false ∧
      st'.lists (C := vector) 0 =
        some ((a.contents vector st.heap.mem).take 1 ++ [fun _ => 5, fun _ => 6] ++
        (a.contents vector st.heap.mem).drop 1) := by
  obtain ⟨st, hst, hr⟩ := twoPushed
  obtain rfl := Option.some.inj hst
  have hiff := insertAt_iff (i := 0) (p := 1) (Ordered.of_reach hr) rfl rfl (by decide) (by decide)
    (show step _ (Op.call 0 (.insertAt 1 [fun _ => 5, fun _ => 6]) : Op vector) = some _ from rfl)
  obtain ⟨hm, -, hl⟩ := hiff.mpr ⟨.inl (by decide), by decide⟩
  exact ⟨_, _, _, rfl, by decide, rfl, hm, hl⟩

/-- One element before two, which are moved by one; and one before none, in the storage that is made
for it. -/
theorem not_inserted :
    (∃ (st st' : State) (a : Arr), (OrderlyVectors st ∧ st.heap.meaningless = false) ∧
      (st.arrays 0 = some a ∧ a.size vector = 2 ∧ GrowFits vector a 3) ∧
      step st (.call 0 (.insertAt 0 [fun _ => 5]) : Op vector) = some st' ∧
        st'.heap.meaningless = true) ∧
    ∃ (st st' : State) (a : Arr), (OrderlyVectors st ∧ st.heap.meaningless = false) ∧
      (st.arrays 0 = some a ∧ a.size vector = 0 ∧ GrowFits vector a 1) ∧
      step st (.call 0 (.insertAt 0 [fun _ => 5]) : Op vector) = some st' ∧
        st'.heap.meaningless = true := by
  constructor
  · obtain ⟨st, hst, hr⟩ := twoPushed
    obtain rfl := Option.some.inj hst
    exact ⟨_, _, _, ⟨hr, rfl⟩, ⟨rfl, by decide, by decide, fun _ => by decide⟩, rfl, by decide⟩
  · have h0 : OrderlyVectors (start fun _ => 65536) := .init (start_initial (by decide) _)
    have h1 := h0.step (a := Op.create 0 (-1)) ⟨trivial, trivial⟩ rfl
    exact ⟨_, _, _, ⟨h1, rfl⟩, ⟨rfl, by decide, by decide, fun _ => by decide⟩, rfl, by decide⟩

end NetworkDemo.PODArray
