import NetworkDemo.PODArray.Reserve

/-!
# Elements of the array itself

`push_back` and `resize_fill` take a reference, and first make room. A reference to an element
of the array refers to the storage that there was before, and is used after that.

* `aliased_iff` — the element is what it was if and only if the block stays where it is, or
  there is room without a new one.
* `not_aliased` — a full array whose block moves.
-/

namespace NetworkDemo.PODArray

open Foundations

variable {C : Template} {st : State} {arrays : ℕ → Option Arr} {i : ℕ} {a : Arr}
    {s r t : Heap × Arr}

/-- The element at an address. -/
def elementAt (C : Template) (h : Heap) (p : Size) : Elem C :=
  record C.elementSize.toNat h.mem p.toNat 0

/-- A reference into the storage of `s` is used at `t`, where it refers to something if the storage
is where it was. -/
def referTo (s t : Heap × Arr) : Heap × Arr :=
  ({ t.1 with meaningless := t.1.meaningless || !decide (t.2.cStart = s.2.cStart) }, t.2)

/-- `push_back(x)`, of the `x` at the address `p` of the array's storage. -/
def pushBackAt (C : Template) (p : Size) (s : Heap × Arr) : Option (Heap × Arr) :=
  (if s.2.cEnd = s.2.cEndOfStorage then reserveForNextSize C s else some s).map fun t =>
    setEnd (t.2.cEnd + C.byteSize 1) (put t.2.cEnd [elementAt C t.1 p] (referTo s t))

/-- `resize_fill(n, value)`, of the `value` at the address `p` of the array's storage. -/
def resizeFillAt (C : Template) (n p : Size) (s : Heap × Arr) : Option (Heap × Arr) :=
  let oldSize := s.2.size C
  (if oldSize < n then
    (reserve C n s).map fun t => put t.2.cEnd (List.replicate (n - oldSize).toNat
      (elementAt C t.1 p)) (referTo s t)
  else some s).map fun t => setEnd (t.2.cStart + C.byteSize n) t

/-- Nothing was meaningless, the arrays are in order and array `i` holds `xs`. -/
def Shows (C : Template) (st : State) (i : ℕ) (xs : List (Elem C)) : Prop :=
  st.heap.meaningless = false ∧ Ordered C st ∧ st.lists i = some xs

/-- There is room for an element, or a block of twice the bytes is where the array's block is. -/
def PushesInPlace (C : Template) (h : Heap) (a : Arr) : Prop :=
  a.cEnd.toNat + C.elementSize.toNat ≤ a.cEndOfStorage.toNat ∨
    a.cEnd = a.cEndOfStorage ∧ h.answer.base = a.cStart - C.padLeft ∧
      (a.allocatedBytes C).toNat * 2 < 2 ^ 64

/-- There is room for `n` elements, or a block for them is where the array's block is. -/
def ResizesInPlace (C : Template) (h : Heap) (a : Arr) (n : Size) : Prop :=
  n ≤ a.capacity C ∨ h.answer.base = a.cStart - C.padLeft ∧ C.bytesFor n.toNat ≤ 2 ^ 63

/-! ### References -/

theorem referTo_eq (h : t.2.cStart = s.2.cStart) : referTo s t = t := by
  rw [referTo, decide_eq_true h, Bool.not_true, Bool.or_false]

theorem start_of_referTo (h : (referTo s t).1.meaningless = false) : t.2.cStart = s.2.cStart := by
  have hflag := (Bool.or_eq_false_iff.mp h).2
  rwa [Bool.not_eq_false', decide_eq_true_iff] at hflag

/-- `a[k]`. -/
theorem contents_at {h : Heap} {k : Size} (hb : Bounds C a) (hk : k < a.size C) :
    (a.contents C h.mem)[k.toNat]? = some (elementAt C h (a.cStart + C.byteSize k)) := by
  have hlt := BitVec.lt_def.mp hk
  have hp := hb.toNat_at (hlt.le.trans hb.size_le_capacity)
  simp only [Arr.contents, records, List.getElem?_map, List.getElem?_range hlt, Option.map_some,
    Option.some.injEq]
  unfold elementAt
  rw [hp]
  funext j
  simp only [record, Nat.zero_mul, Nat.add_zero]

/-- It is at the same address if the storage is. -/
theorem elementAt_eq {k : Size} (hd : Does C arrays i s t Eq) (hb : Bounds C s.2)
    (hk : k < s.2.size C) (hstart : t.2.cStart = s.2.cStart) :
    elementAt C t.1 (s.2.cStart + C.byteSize k) = elementAt C s.1 (s.2.cStart + C.byteSize k) := by
  have hk' : k < t.2.size C := by
    rw [BitVec.lt_def, ← hd.size_eq]
    exact BitVec.lt_def.mp hk
  have hnew := contents_at (h := t.1) hd.bounds hk'
  rw [← hd.lists, hstart, contents_at hb hk] at hnew
  exact (Option.some.inj hnew).symm

/-- What `lists` says of an array that was changed. -/
theorem lists_set {xs : List (Elem C)} :
    (st.set i r).lists i = some xs ↔ r.2.contents C r.1.mem = xs := by
  have hsame : (st.set i r).lists (C := C) i = some (r.2.contents C r.1.mem) :=
    lists_some (Function.update_self ..)
  rw [hsame, Option.some.injEq]

theorem Ordered.shows {R : List (Elem C) → List (Elem C) → Prop} {xs : List (Elem C)}
    (hg : Ordered C st) (h0 : st.heap.meaningless = false)
    (hd : Does C st.arrays i (st.heap, a) r R) (hxs : r.2.contents C r.1.mem = xs) :
    Shows C (st.set i r) i xs :=
  ⟨hd.meaningless.trans h0, hg.update hd.own hd.bounds, lists_set.mpr hxs⟩

/-- An array that was changed, and has `n` elements now. -/
theorem Shows.changed {xs : List (Elem C)} {n : ℕ} (h : Shows C (st.set i r) i xs)
    (hn : xs.length = n) :
    Bounds C r.2 ∧ (r.2.size C).toNat = n := by
  refine ⟨h.2.1.bounds i r.2 (Function.update_self ..), ?_⟩
  rw [← hn, ← lists_set.mp h.2.2, Arr.length_contents]

/-- A value may be taken for the element, if that is what the reference refers to. -/
theorem resizeFillAt_eq {n p : Size} {x : Elem C}
    (h : ∀ t, s.2.size C < n → reserve C n s = some t →
      t.2.cStart = s.2.cStart ∧ elementAt C t.1 p = x) :
    resizeFillAt C n p s = resizeWith n x s := by
  unfold resizeFillAt resizeWith
  by_cases hn : s.2.size C < n
  · simp only [if_pos hn]
    cases hres : reserve C n s with
    | none => rfl
    | some t =>
      obtain ⟨hstart, hx⟩ := h t hn hres
      simp only [Option.map_some, referTo_eq hstart, hx]
  · simp only [if_neg hn]

/-! ### The two calls -/

section Calls

variable {k n : Size} (hg : Ordered C st) (hi : st.arrays i = some a) (hk : k < a.size C)
include hg hi hk

/-- An array with an element has a block. -/
theorem Ordered.ne_null : a.cStart ≠ C.null :=
  (hg.bounds i a hi).ne_null (hg.own.bare i a hi) (Nat.zero_lt_of_lt (BitVec.lt_def.mp hk))
    (hg.bounds i a hi).size_le_capacity

/-- A block of twice the bytes has more than the bytes of a full array, unless their number wraps
around. -/
theorem doubled_lt (hend : a.cEnd = a.cEndOfStorage)
    (hfor : C.bytesFor ((a.size C).toNat + 1) ≤ (a.allocatedBytes C * 2).toNat) :
    (a.allocatedBytes C).toNat * 2 < 2 ^ 64 := by
  have hb := hg.bounds i a hi
  have hmul := hb.size_mul
  have hE := C.elementSize_pos
  have hfull : a.cEndOfStorage = a.cEnd := hend.symm
  have hold : (a.allocatedBytes C).toNat < C.bytesFor ((a.size C).toNat + 1) := by
    unfold Template.bytesFor
    rw [hb.allocated (hg.ne_null hi hk), Nat.add_mul, Nat.one_mul, hfull]
    omega
  rw [BitVec.toNat_mul, toNat_two] at hfor
  omega

theorem PushesInPlace.of_shows {xs : List (Elem C)} (hlen : xs.length = (a.size C).toNat + 1)
    (hs : pushBackAt C (a.cStart + C.byteSize k) (st.heap, a) = some r)
    (hshows : Shows C (st.set i r) i xs) :
    PushesInPlace C st.heap a := by
  have ho := (update_self_eq hi).symm ▸ hg.own
  have hnull := hg.ne_null hi hk
  have hne : a.size C ≠ 0 := by
    intro h
    rw [h] at hk
    exact Nat.not_lt_zero _ (BitVec.lt_def.mp hk)
  obtain ⟨t, ht, rfl⟩ := Option.map_eq_some_iff.mp hs
  obtain ⟨hbr, hsize⟩ := hshows.changed hlen
  have hstart : t.2.cStart = a.cStart := start_of_referTo (s := (st.heap, a)) hshows.1
  have hroom := hsize.symm.trans_le hbr.size_le_capacity
  split at ht
  · rename_i hend
    rw [reserveForNextSize, if_neg hne] at ht
    have hfor : C.bytesFor ((a.size C).toNat + 1) ≤ (t.2.allocatedBytes C).toNat :=
      hbr.bytesFor_le (fun h => hnull (hstart.symm.trans h)) hroom
    rw [realloc_allocated ht] at hfor
    refine .inr ⟨hend, ((realloc_start ho ht fun hz => ?_).mp hstart).2,
      doubled_lt hg hi hk hend hfor⟩
    rw [hz] at hfor
    exact absurd hfor (not_le.mpr (bytesFor_pos (Nat.succ_pos _)))
  · obtain rfl := Option.some.inj ht
    exact .inl ((Bounds.room_iff (s := (st.heap, a)) (hg.bounds i a hi)).mp hroom)

theorem PushesInPlace.shows (h0 : st.heap.meaningless = false)
    (hs : pushBackAt C (a.cStart + C.byteSize k) (st.heap, a) = some r)
    (hin : PushesInPlace C st.heap a) :
    Shows C (st.set i r) i
      (a.contents C st.heap.mem ++ [elementAt C st.heap (a.cStart + C.byteSize k)]) := by
  have ho := (update_self_eq hi).symm ▸ hg.own
  have hb := hg.bounds i a hi
  have hpos : 0 < (a.size C).toNat := Nat.zero_lt_of_lt (BitVec.lt_def.mp hk)
  have hE := C.elementSize_pos
  obtain ⟨t, ht, rfl⟩ := Option.map_eq_some_iff.mp hs
  have hgrown : Does C st.arrays i (st.heap, a) t Eq ∧
      (a.size C).toNat + 1 ≤ (t.2.capacity C).toNat ∧
      t.2.cStart = a.cStart := by
    rcases hin with hroom | ⟨hend, hbase, hbytes⟩
    · have hnot : ¬ a.cEnd = a.cEndOfStorage := by
        intro hend
        rw [hend] at hroom
        omega
      rw [if_neg hnot] at ht
      obtain rfl := Option.some.inj ht
      exact ⟨Does.refl ho hb, (Bounds.room_iff (s := (st.heap, a)) hb).mpr hroom, rfl⟩
    · have hne : a.size C ≠ 0 := by
        intro h
        rw [h] at hpos
        exact Nat.lt_irrefl 0 hpos
      rw [if_pos hend, reserveForNextSize, if_neg hne] at ht
      obtain ⟨hd, hcap⟩ := Does.doubled (s := (st.heap, a)) ho hb ht hend hpos hbytes
      refine ⟨hd, hcap, (realloc_start ho ht fun hz => ?_).mpr ⟨hg.ne_null hi hk, hbase⟩⟩
      have htwice := congrArg BitVec.toNat hz
      rw [BitVec.toNat_mul, toNat_two, Nat.mod_eq_of_lt hbytes, toNat_zero] at htwice
      have hfor := hb.bytesFor_le (hg.ne_null hi hk) hb.size_le_capacity
      have hsome := bytesFor_pos (C := C) hpos
      omega
  obtain ⟨hd, hcap, hstart⟩ := hgrown
  rw [referTo_eq hstart, elementAt_eq hd hb hk hstart]
  have hpush :=
    hd.trans (Does.pushOne (x := elementAt C st.heap (a.cStart + C.byteSize k)) hd.own hd.bounds
    (hd.size_eq ▸ hcap))
  exact hg.shows h0 hpush hpush.lists

theorem ResizesInPlace.of_shows {xs : List (Elem C)} (hlen : xs.length = n.toNat)
    (hs : resizeFillAt C n (a.cStart + C.byteSize k) (st.heap, a) = some r)
    (hshows : Shows C (st.set i r) i xs) :
    ResizesInPlace C st.heap a n := by
  have ho := (update_self_eq hi).symm ▸ hg.own
  have hb := hg.bounds i a hi
  refine or_iff_not_imp_left.mpr fun hcap => ?_
  have hlt : a.capacity C < n := BitVec.not_le.mp hcap
  have hsize : a.size C < n :=
    BitVec.lt_def.mpr (hb.size_le_capacity.trans_lt (BitVec.lt_def.mp hlt))
  simp only [resizeFillAt, if_pos hsize] at hs
  obtain ⟨u, hu, rfl⟩ := Option.map_eq_some_iff.mp hs
  obtain ⟨t, ht, rfl⟩ := Option.map_eq_some_iff.mp hu
  have hstart : t.2.cStart = a.cStart := start_of_referTo (s := (st.heap, a)) hshows.1
  obtain ⟨hbr, hn⟩ := hshows.changed hlen
  have hfor : C.bytesFor n.toNat ≤ (t.2.allocatedBytes C).toNat :=
    hbr.bytesFor_le (fun h => hg.ne_null hi hk (hstart.symm.trans h))
      (hn.symm.trans_le hbr.size_le_capacity)
  have hroom := RoomFor.of_reserve (s := (st.heap, a)) ht fun _ => hfor
  rw [reserve, if_pos hlt] at ht
  rw [realloc_allocated ht] at hfor
  refine ⟨((realloc_start ho ht fun hz => ?_).mp hstart).2,
    hroom.resolve_left (not_le.mpr (BitVec.lt_def.mp hlt))⟩
  rw [hz] at hfor
  exact absurd hfor (not_le.mpr (bytesFor_pos (Nat.zero_lt_of_lt (BitVec.lt_def.mp hlt))))

theorem ResizesInPlace.shows (h0 : st.heap.meaningless = false)
    (hs : resizeFillAt C n (a.cStart + C.byteSize k) (st.heap, a) = some r)
    (hin : ResizesInPlace C st.heap a n) :
    Shows C (st.set i r) i ((a.contents C st.heap.mem).take n.toNat ++
      List.replicate (n.toNat - (a.size C).toNat) (elementAt C st.heap
        (a.cStart + C.byteSize k))) := by
  have ho := (update_self_eq hi).symm ▸ hg.own
  have hb := hg.bounds i a hi
  have hroom : RoomFor C a n.toNat := hin.imp BitVec.le_def.mp fun h => h.2
  have hsame : resizeFillAt C n (a.cStart + C.byteSize k) (st.heap, a) =
      resizeWith n (elementAt C st.heap (a.cStart + C.byteSize k)) (st.heap, a) := by
    refine resizeFillAt_eq fun t hn ht => ?_
    have hd := (Does.reserve (s := (st.heap, a)) ho hb ht hroom).1
    have hstart : t.2.cStart = a.cStart := by
      unfold reserve at ht
      split at ht
      · rename_i hlt
        obtain ⟨hbase, hfor⟩ := hin.resolve_left (BitVec.not_le.mpr hlt)
        refine (realloc_start ho ht fun hz => ?_).mpr ⟨hg.ne_null hi hk, hbase⟩
        have hle := Template.le_bytesRequested hfor
        rw [Template.bytesRequested, hz] at hle
        exact absurd hle (not_le.mpr (bytesFor_pos (Nat.zero_lt_of_lt (BitVec.lt_def.mp hlt))))
      · rw [← Option.some.inj ht]
    exact ⟨hstart, elementAt_eq hd hb hk hstart⟩
  rw [hsame] at hs
  have hd := Does.resizeWith (s := (st.heap, a)) ho hb hs hroom
  have hlists := hd.lists
  have hlength : (a.contents C st.heap.mem).length = (a.size C).toNat := by rw [Arr.length_contents]
  rw [hlength] at hlists
  exact hg.shows h0 hd hlists

end Calls

/-- **Elements of the array itself**: `push_back(a[k])` and `resize_fill(n, a[k])` append what
`a[k]` was, and leave the other elements as they were, if and only if they need no new block or it
is where the old one is, and of a number of bytes that is right. -/
theorem aliased_iff {k : Size} (hg : Ordered C st) (h0 : st.heap.meaningless = false)
    (hi : st.arrays i = some a) (hk : k < a.size C) :
    (∀ r, pushBackAt C (a.cStart + C.byteSize k) (st.heap, a) = some r →
      (Shows C (st.set i r) i (a.contents C st.heap.mem ++ [elementAt C st.heap
        (a.cStart + C.byteSize k)]) ↔
        PushesInPlace C st.heap a)) ∧
    ∀ n r, resizeFillAt C n (a.cStart + C.byteSize k) (st.heap, a) = some r →
      (Shows C (st.set i r) i ((a.contents C st.heap.mem).take n.toNat ++
          List.replicate (n.toNat - (a.size C).toNat)
            (elementAt C st.heap (a.cStart + C.byteSize k))) ↔
        ResizesInPlace C st.heap a n) := by
  have hlength : (a.contents C st.heap.mem).length = (a.size C).toNat := by rw [Arr.length_contents]
  refine ⟨fun r hs => ⟨fun hshows => ?_, PushesInPlace.shows hg hi hk h0 hs⟩,
    fun n r hs => ⟨fun hshows => ?_, ResizesInPlace.shows hg hi hk h0 hs⟩⟩
  · refine PushesInPlace.of_shows hg hi hk ?_ hs hshows
    rw [List.length_append, hlength, List.length_singleton]
  · refine ResizesInPlace.of_shows hg hi hk ?_ hs hshows
    rw [List.length_append, List.length_take, List.length_replicate, hlength]
    omega

/-- The second of two elements is pushed again. -/
theorem aliased_iff_two :
    ∃ (st : State) (a : Arr) (r : Heap × Arr), st.arrays 0 = some a ∧ a.size vector = 2 ∧
    pushBackAt vector (a.cStart + vector.byteSize 1) (st.heap, a) = some r ∧
      Shows vector (st.set 0 r) 0 (a.contents vector st.heap.mem ++
        [elementAt vector st.heap (a.cStart + vector.byteSize 1)]) := by
  obtain ⟨st, hst, hr⟩ := twoPushed
  obtain rfl := Option.some.inj hst
  have hiff := aliased_iff (i := 0) (k := 1) (Ordered.of_reach hr) rfl rfl (by decide)
  exact ⟨_, _, _, rfl, by decide, rfl, (hiff.1 _ rfl).mpr (.inl (by decide))⟩

/-- The first of eight elements, of which there is room for eight: the block for more is at another
address. -/
theorem not_aliased : ∃ (st : State) (a : Arr) (r r' : Heap × Arr),
    (OrderlyVectors st ∧ st.heap.meaningless = false) ∧
    (st.arrays 0 = some a ∧ a.size vector = 8 ∧ a.capacity vector = 8) ∧
    (pushBackAt vector (a.cStart + vector.byteSize 0) (st.heap, a) = some r ∧
      ¬ Shows vector (st.set 0 r) 0
        (a.contents vector st.heap.mem ++ [elementAt vector st.heap
          (a.cStart + vector.byteSize 0)])) ∧
    resizeFillAt vector 9 (a.cStart + vector.byteSize 0) (st.heap, a) = some r' ∧
      ¬ Shows vector (st.set 0 r') 0 ((a.contents vector st.heap.mem).take 9 ++
        List.replicate 1 (elementAt vector st.heap (a.cStart + vector.byteSize 0))) := by
  have h0 : OrderlyVectors (start fun k => if k = 0 then 65536 else 131072) :=
    .init (start_initial (by decide) _)
  have h1 := h0.step (a := Op.create 0 (-1)) ⟨trivial, trivial⟩ rfl
  have h2 := h1.step (a := Op.call 0 (.resizeFill 8))
    ⟨fun _ _ => (by decide : vector.Fits 8), fun _ _ => ⟨nofun, trivial⟩⟩ rfl
  refine ⟨_, _, _, _, ⟨h2, rfl⟩, ⟨rfl, by decide, by decide⟩, ⟨rfl, fun hshows => ?_⟩, rfl,
    fun hshows => ?_⟩
  · exact absurd hshows.1 (by decide)
  · exact absurd hshows.1 (by decide)

end NetworkDemo.PODArray
