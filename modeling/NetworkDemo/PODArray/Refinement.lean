import NetworkDemo.Foundations.Traces
import NetworkDemo.PODArray.Methods

/-!
# The arrays are lists

Over a program's run every array keeps its pointers in order, and the memory of one is not
touched by what is done to another (`Good`). A step of the program is therefore the same
operation on lists (`Good.step`).

* `refines_lists` — for elements whose size is a power of two, a run of the program is a run
  of `lists` with the same operations, a further operation is that operation on the lists
  that the arrays hold, and the element at index -1 reads as zero.
-/

namespace NetworkDemo.PODArray

open Foundations

variable {C : Template}

/-! ### Lists -/

/-- The lists of a program, by number. -/
abbrev Lists (C : Template) : Type := ℕ → Option (List (Elem C))

/-- An operation on lists. -/
def Op.OnLists (L : Lists C) : Op C → Lists C → Prop
  | .create i _, L' => L i = none ∧ L' = Function.update L i (some [])
  | .createSized i n _, L' =>
    L i = none ∧ ∃ xs, xs.length = n.toNat ∧ L' = Function.update L i (some xs)
  | .createRange i ys, L' => L i = none ∧ L' = Function.update L i (some ys)
  | .call i m, L' =>
    ∃ xs xs', L i = some xs ∧ m.OnLists xs xs' ∧ L' = Function.update L i (some xs')
  | .assignFrom i j, L' =>
    ∃ xs ys, L i = some xs ∧ L j = some ys ∧ L' = Function.update L i (some ys)
  | .swap i j, L' =>
    ∃ xs ys, L i = some xs ∧ L j = some ys ∧ L' = Function.update
      (Function.update L j (some xs)) i (some ys)
  | .moveConstruct i j, L' =>
    L i = none ∧ ∃ ys, L j = some ys ∧ L' = Function.update
      (Function.update L j (some [])) i (some ys)
  | .moveAssign i j, L' =>
    ∃ xs ys, L i = some xs ∧ L j = some ys ∧ L' = Function.update
      (Function.update L j (some xs)) i (some ys)
  | .clone i j, L' => L i = none ∧ ∃ ys, L j = some ys ∧ L' = Function.update L i (some ys)
  | .destroy i, L' => ∃ xs, L i = some xs ∧ L' = Function.update L i none

/-- A program that uses lists. -/
def lists (C : Template) : Lts (Lists C) (Op C) where
  init L := ∀ i, L i = none
  step L op L' := op.OnLists L L'

/-- What the arrays hold. -/
def State.lists (st : State) : Lists C :=
  fun i => (st.arrays i).map fun a => a.contents C st.heap.mem

/-- The operations with `Plain` calls, and without `clone`. -/
def Op.Plain (st : State) : Op C → Prop
  | .call i m => ∀ a, st.arrays i = some a → m.Plain a
  | .clone _ _ => False
  | _ => True

/-- A call of `push_back` or its kin finds the storage full or with room for an element. -/
def Op.RoomOrFull (st : State) : Op C → Prop
  | .call i m => ∀ a, st.arrays i = some a → m.RoomOrFull a
  | _ => True

/-! ### All arrays -/

/-- The arrays own the blocks, and their pointers are in order. -/
structure Ordered (C : Template) (st : State) : Prop where
  own : Own C st.heap st.arrays
  bounds : ∀ i a, st.arrays i = some a → Bounds C a

/-- What is true of all arrays. -/
structure Good (C : Template) (st : State) : Prop extends Ordered C st where
  whole : (∃ e, C.elementSize.toNat = 2 ^ e) → ∀ i a, st.arrays i = some a → Whole C a
  before : C.padLeft ≠ 0 → ∀ i a, st.arrays i = some a → a.before C st.heap.mem = fun _ => 0
  empty : ∀ q, C.emptyPODArray.toNat ≤ q → q < C.emptyPODArray.toNat + 1024 → st.heap.mem q = 0
  stray : st.heap.stray = false

variable {st st' : State} {i j : ℕ} {a b : Arr} {r : Heap × Arr} {mem : ℕ → Byte}
    {R : List (Elem C) → List (Elem C) → Prop}

theorem Good.init (h : Initial C st) : Good C st := by
  have hown := Own.init h
  have hnone : ∀ {j : ℕ} {c : Arr}, st.arrays j ≠ some c := h.no_array
  obtain ⟨-, -, -, -, hstray, -, hempty⟩ := h
  exact ⟨⟨hown, fun j c hj => absurd hj hnone⟩, fun _ j c hj => absurd hj hnone,
    fun _ j c hj => absurd hj hnone, hempty,
    hstray⟩

/-- What another array holds is in foreign memory. -/
theorem Ordered.contents_eq (hg : Ordered C st) (hji : j ≠ i) (hj : st.arrays j = some b)
    (hmem : ∀ q, Foreign C st.arrays i q → mem q = st.heap.mem q) :
    b.contents C mem = b.contents C st.heap.mem := by
  have hb := hg.bounds j b hj
  by_cases hnull : b.cStart = C.null
  · have hzero := hb.size_null hnull (hg.own.bare j b hj hnull)
    rw [contents_nil hzero, contents_nil hzero]
  · obtain ⟨d, -, hin⟩ := hg.own.inside hj hb hnull
    have h1 := hin.start
    have h2 := hin.stop
    have h3 := hb.end_le
    have h4 := hb.toNat_end
    exact records_congr fun q hq hq' => hmem q (.inl ⟨j, b, d, hji, hj, hin.owns,
      by omega, by omega⟩)

theorem Ordered.before_eq (hg : Ordered C st) (hp : C.padLeft ≠ 0) (hji : j ≠ i)
    (hj : st.arrays j = some b) (hmem : ∀ q, Foreign C st.arrays i q → mem q = st.heap.mem q) :
    b.before C mem = b.before C st.heap.mem := by
  have hb := hg.bounds j b hj
  have hE := Template.elementSize_le_padLeft hp
  have hle := C.padLeft_le
  funext k
  have hk := k.isLt
  by_cases hnull : b.cStart = C.null
  · have hstart : b.cStart.toNat = C.emptyPODArray.toNat + 1024 := by rw [hnull, null_of_padLeft hp]
    rw [before_cell (by omega), before_cell (by omega)]
    exact hmem _ (.inr ⟨by omega, by omega⟩)
  · obtain ⟨d, -, hin⟩ := hg.own.inside hj hb hnull
    have h1 := hin.start
    have h2 := hin.stop
    have h3 := hb.start_le
    have h4 := hb.end_le
    rw [before_cell (by omega), before_cell (by omega)]
    exact hmem _ (.inl ⟨j, b, d, hji, hj, hin.owns, by omega, by omega⟩)

/-- An array is changed, and in order. -/
theorem Ordered.update (hg : Ordered C st)
    (hown : Own C r.1 (Function.update st.arrays i (some r.2))) (hb : Bounds C r.2) :
    Ordered C (st.set i r) := by
  refine ⟨hown, fun j c hj => ?_⟩
  rcases eq_or_of_update hj with ⟨-, rfl⟩ | ⟨-, hj⟩
  · exact hb
  · exact hg.bounds j c hj

/-- What was done to it goes as `Does` says. -/
theorem Good.set (hg : Good C st) (hd : Does C st.arrays i (st.heap, a) r R)
    (hwhole : (∃ e, C.elementSize.toNat = 2 ^ e) → Whole C a)
    (hbefore : C.padLeft ≠ 0 → a.before C st.heap.mem = fun _ => 0) :
    Good C (st.set i r) ∧ State.lists (C := C) (st.set i r) = Function.update st.lists i
      (some (r.2.contents C r.1.mem)) := by
  refine ⟨⟨hg.update hd.own hd.bounds, ?_, ?_, ?_, hd.stray.trans hg.stray⟩, ?_⟩
  · intro he j c hj
    rcases eq_or_of_update hj with ⟨rfl, rfl⟩ | ⟨hji, hj⟩
    · exact hd.whole he (hwhole he)
    · exact hg.whole he j c hj
  · intro hp j c hj
    rcases eq_or_of_update hj with ⟨rfl, rfl⟩ | ⟨hji, hj⟩
    · exact hd.before hp (hbefore hp)
    · exact (hg.before_eq hp hji hj hd.frame).trans (hg.before hp j c hj)
  · intro q hq hq'
    exact (hd.frame q (.inr ⟨hq, hq'⟩)).trans (hg.empty q hq hq')
  · funext j
    by_cases hji : j = i
    · subst hji
      have harr : (st.set j r).arrays j = some r.2 := update_same
      rw [State.lists, harr, Function.update_self]
      rfl
    · have harr : (st.set i r).arrays j = st.arrays j := update_ne hji
      rw [State.lists, harr, Function.update_of_ne hji]
      exact Option.map_congr fun c hj => hg.contents_eq hji hj hd.frame

theorem lists_some (hi : st.arrays i = some a) :
    st.lists (C := C) i = some (a.contents C st.heap.mem) := by
  rw [State.lists, hi, Option.map_some]

/-- An existing array is. -/
theorem Good.change (hg : Good C st) (hi : st.arrays i = some a)
    (hd : Does C st.arrays i (st.heap, a) r R) :
    Good C (st.set i r) ∧ ∃ xs xs', st.lists i = some xs ∧ R xs xs' ∧
      State.lists (C := C) (st.set i r) = Function.update st.lists i (some xs') := by
  obtain ⟨hg', hl⟩ := hg.set hd (fun he => hg.whole he i a hi) fun hp => hg.before hp i a hi
  exact ⟨hg', _, _, lists_some hi, hd.lists, hl⟩

theorem Good.constructed {f : Heap → Option (Heap × Arr)} (socketId : ℤ) (hg : Good C st)
    (hs : st.construct i f = some st')
    (hf : ∀ r, f st.heap = some r →
      Own C st.heap (Function.update st.arrays i (some (Arr.new C socketId))) →
      Bounds C (Arr.new C socketId) → Does C st.arrays i (st.heap, Arr.new C socketId) r R) :
    Good C st' ∧ st.lists (C := C) i = none ∧ ∃ xs', R [] xs' ∧
      st'.lists = Function.update st.lists i (some xs') := by
  unfold State.construct at hs
  split at hs
  · rename_i hi
    obtain ⟨r, hr, rfl⟩ := Option.map_eq_some_iff.mp hs
    have hb : Bounds C (Arr.new C socketId) := Bounds.empty rfl
    have hd := hf r hr (hg.own.created hi rfl rfl) hb
    have hnil : (Arr.new C socketId).contents C st.heap.mem = [] := contents_nil size_self
    have hwhole : Whole C (Arr.new C socketId) := by
      show C.elementSize.toNat ∣ C.null.toNat - C.null.toNat
      rw [Nat.sub_self]
      exact Nat.dvd_zero _
    have hbefore : C.padLeft ≠ 0 → (Arr.new C socketId).before C st.heap.mem = fun _ => 0 := by
      intro hp
      have hE := Template.elementSize_le_padLeft hp
      have hle := C.padLeft_le
      have hstart : (Arr.new C socketId).cStart.toNat = C.emptyPODArray.toNat + 1024 :=
        null_of_padLeft hp
      funext k
      have hk := k.isLt
      rw [before_cell (by omega)]
      exact hg.empty _ (by omega) (by omega)
    obtain ⟨hg', hl⟩ := hg.set hd (fun _ => hwhole) hbefore
    exact ⟨hg', by rw [State.lists, hi]; rfl, _, hnil ▸ hd.lists, hl⟩
  · cases hs

/-- The pointers of an array in a block are not `null`. -/
theorem Inside.ne_null {d : Block} {p : Size} (hin : Inside C a d) (hd : d.Placed C)
    (h1 : a.cStart.toNat ≤ p.toNat) (h2 : p.toNat ≤ a.cEndOfStorage.toNat) : p ≠ C.null := by
  rintro rfl
  obtain ⟨hpos, -, -, hempty⟩ := hd
  have hstart := hin.start
  have hstop := hin.stop
  by_cases hp : C.padLeft = 0
  · rw [null_eq_zero hp, toNat_zero] at h1
    omega
  · have hne := toNat_pos hp
    rw [null_of_padLeft hp] at h1 h2
    omega

theorem Ordered.null_of_uninitialized (hg : Ordered C st) (hi : st.arrays i = some a)
    (h : a.isInitialized C = false) :
    a.cStart = C.null := by
  by_contra hnull
  have hb := hg.bounds i a hi
  obtain ⟨d, hd, hin⟩ := hg.own.inside hi hb hnull
  have hplaced := hg.own.wf.placed d hd
  have h1 := hin.ne_null hplaced hb.start_le hb.end_le
  have h2 := hin.ne_null hplaced (hb.start_le.trans hb.end_le) le_rfl
  rw [Arr.isInitialized, decide_eq_true hnull, decide_eq_true h1, decide_eq_true h2] at h
  cases h

/-- What is swapped are the arrays, but for their nodes. -/
theorem Ordered.swap_eq (hg : Ordered C st) (hi : st.arrays i = some a)
    (hj : st.arrays j = some b) :
    ∃ m n : ℤ, swap C a b = ({ b with socketId := m }, { a with socketId := n }) := by
  unfold swap
  split
  · rename_i h
    have ha := hg.null_of_uninitialized hi h.1
    have hb := hg.null_of_uninitialized hj h.2
    have hends : ∀ {k : ℕ} {c : Arr}, st.arrays k = some c → c.cStart = C.null →
        c = ⟨C.null, C.null, C.null, c.socketId⟩ := by
      intro k c hk hc
      have hbare := hg.own.bare k c hk hc
      have hbounds := hg.bounds k c hk
      have h1 := hbounds.start_le
      have h2 := hbounds.end_le
      have hend : c.cEnd = C.null := by
        rw [hbare] at h2
        rw [hc] at h1
        exact BitVec.eq_of_toNat_eq (Nat.le_antisymm h2 h1)
      obtain ⟨x, y, z, n⟩ := c
      simp only at hc hend hbare
      rw [hc, hend, hbare]
    rw [hends hi ha, hends hj hb]
    exact ⟨b.socketId, a.socketId, rfl⟩
  · exact ⟨b.socketId, a.socketId, rfl⟩

theorem Good.swapped (hg : Good C st) (hs : swapAt C st i j = some st') :
    Good C st' ∧ ∃ xs ys, st.lists (C := C) i = some xs ∧ st.lists (C := C) j = some ys ∧
      st'.lists = Function.update (Function.update st.lists j (some xs)) i (some ys) := by
  have hown := hg.own.swapped hs
  obtain ⟨a, hi, hs⟩ := Option.bind_eq_some_iff.mp hs
  obtain ⟨b, hj, rfl⟩ := Option.map_eq_some_iff.mp hs
  obtain ⟨m, n, hswap⟩ := hg.swap_eq hi hj
  rw [hswap] at hown
  dsimp only
  rw [hswap]
  dsimp only at hown ⊢
  -- an array has the pointers of one before
  have hold : ∀ k c, Function.update (Function.update st.arrays j (some { a with socketId := n })) i
      (some { b with socketId := m }) k = some c →
        ∃ k' c', st.arrays k' = some c' ∧ c = { c' with socketId := c.socketId } := by
    intro k c hk
    rcases eq_or_of_update hk with ⟨-, rfl⟩ | ⟨-, hk⟩
    · exact ⟨j, b, hj, rfl⟩
    · rcases eq_or_of_update hk with ⟨-, rfl⟩ | ⟨-, hk⟩
      · exact ⟨i, a, hi, rfl⟩
      · exact ⟨k, c, hk, rfl⟩
  refine ⟨⟨⟨hown, ?_⟩, ?_, ?_, hg.empty, hg.stray⟩, _, _, lists_some hi, lists_some hj, ?_⟩
  · intro k c hk
    obtain ⟨k', c', hk', hc⟩ := hold k c hk
    have hb := hg.bounds k' c' hk'
    rw [hc]
    exact ⟨hb.start_le, hb.end_le, hb.dvd, hb.fits⟩
  · intro he k c hk
    obtain ⟨k', c', hk', hc⟩ := hold k c hk
    rw [hc]
    exact hg.whole he k' c' hk'
  · intro hp k c hk
    obtain ⟨k', c', hk', hc⟩ := hold k c hk
    rw [hc]
    exact hg.before hp k' c' hk'
  · funext k
    by_cases hki : k = i
    · rw [hki, Function.update_self]
      exact congrArg (Option.map _) update_same
    · rw [Function.update_of_ne hki]
      by_cases hkj : k = j
      · rw [hkj, Function.update_self]
        exact congrArg (Option.map _) ((update_ne (hkj ▸ hki)).trans update_same)
      · rw [Function.update_of_ne hkj]
        exact congrArg (Option.map _) ((update_ne hki).trans (update_ne hkj))

theorem dealloc_mem (s : Heap × Arr) :
    (dealloc C s).mem = s.1.mem ∧ (dealloc C s).stray = s.1.stray := by
  unfold dealloc Heap.numaFree
  split
  · exact ⟨rfl, rfl⟩
  · split
    · exact ⟨rfl, rfl⟩
    · exact ⟨rfl, rfl⟩

theorem Good.destroyed (hg : Good C st) (hi : st.arrays i = some a) :
    Good C ⟨dealloc C (st.heap, a), Function.update st.arrays i none⟩ ∧
      State.lists (C := C) ⟨dealloc C (st.heap, a), Function.update st.arrays i none⟩ =
        Function.update st.lists i none := by
  obtain ⟨hmem, hstray⟩ := dealloc_mem (C := C) (st.heap, a)
  refine ⟨⟨⟨hg.own.destroyed hi, ?_⟩, ?_, ?_, ?_, hstray.trans hg.stray⟩, ?_⟩
  · exact fun k c hk => hg.bounds k c (of_update_none hk).2
  · exact fun he k c hk => hg.whole he k c (of_update_none hk).2
  · intro hp k c hk
    rw [hmem]
    exact hg.before hp k c (of_update_none hk).2
  · intro q hq hq'
    rw [hmem]
    exact hg.empty q hq hq'
  · funext k
    unfold State.lists
    dsimp only
    rw [hmem]
    by_cases hki : k = i
    · rw [hki, Function.update_self, Function.update_self, Option.map_none]
    · rw [Function.update_of_ne hki, Function.update_of_ne hki]

/-! ### Steps -/

/-- **A step is the operation on lists.** -/
theorem Good.step {op : Op C} (hg : Good C st) (hf : op.Fits st) (hp : op.Plain st)
    (hroom : op.RoomOrFull st) (hs : step st op = some st') :
    Good C st' ∧ op.OnLists st.lists st'.lists := by
  cases op with
  | create i socketId =>
    change st.construct i (fun h => some (h, Arr.new C socketId)) = some st' at hs
    obtain ⟨hg', hi, xs', rfl, hl⟩ := hg.constructed (R := Eq) socketId hs fun r hr ho hb => by
      obtain rfl := Option.some.inj hr
      exact Does.refl ho hb
    exact ⟨hg', hi, hl⟩
  | createSized i n socketId =>
    change st.construct i (fun h => sized C n (h, Arr.new C socketId)) = some st' at hs
    obtain ⟨hg', hi, xs', hxs, hl⟩ :=
      hg.constructed socketId hs fun r hr ho hb => Does.sized ho hb hr rfl hf.le
    exact ⟨hg', hi, xs', hxs, hl⟩
  | createRange i ys =>
    change st.construct i (fun h => ranged ys (h, Arr.new C (-1))) = some st' at hs
    obtain ⟨hg', hi, xs', rfl, hl⟩ :=
      hg.constructed (-1) hs fun r hr ho hb => Does.ranged ho hb hr rfl hf
    exact ⟨hg', hi, hl⟩
  | call i m =>
    obtain ⟨a, hi, hs⟩ := Option.bind_eq_some_iff.mp hs
    obtain ⟨r, hr, rfl⟩ := Option.map_eq_some_iff.mp hs
    have ho := (update_self_eq hi).symm ▸ hg.own
    exact hg.change hi (Does.run ho (hg.bounds i a hi) hr (hf a hi) (hp a hi) (hroom a hi))
  | assignFrom i j =>
    obtain ⟨a, hi, hs⟩ := Option.bind_eq_some_iff.mp hs
    obtain ⟨b, hj, hs⟩ := Option.bind_eq_some_iff.mp hs
    obtain ⟨r, hr, rfl⟩ := Option.map_eq_some_iff.mp hs
    have ho := (update_self_eq hi).symm ▸ hg.own
    have hfits : GrowFits C a (b.contents C st.heap.mem).length := by
      rw [Arr.length_contents]
      exact hf a b hi hj
    obtain ⟨hg', xs, xs', hxs, rfl, hl⟩ := hg.change hi (Does.assign ho (hg.bounds i a hi) hr
      ((Fits.lt hfits.1).trans (by decide)) hfits.grows)
    exact ⟨hg', xs, _, hxs, lists_some hj, hl⟩
  | swap i j => exact hg.swapped hs
  | moveConstruct i j =>
    obtain ⟨b, hj, hs⟩ := Option.bind_eq_some_iff.mp hs
    obtain ⟨t, ht, hs⟩ := Option.bind_eq_some_iff.mp hs
    obtain ⟨hg', hi, xs', rfl, hl⟩ := hg.constructed (R := Eq) (-1) ht fun r hr ho hb => by
      obtain rfl := Option.some.inj hr
      exact Does.refl ho hb
    obtain ⟨hg'', xs, ys, hxs, hys, hl'⟩ := hg'.swapped hs
    have hji : j ≠ i := by
      rintro rfl
      rw [lists_some hj] at hi
      cases hi
    rw [hl, Function.update_self] at hxs
    obtain rfl := Option.some.inj hxs
    rw [hl, Function.update_of_ne hji] at hys
    refine ⟨hg'', hi, ys, hys, ?_⟩
    rw [hl', hl, Function.update_comm hji.symm, Function.update_idem]
  | moveAssign i j => exact hg.swapped hs
  | clone i j => exact hp.elim
  | destroy i =>
    obtain ⟨a, hi, rfl⟩ := Option.map_eq_some_iff.mp hs
    obtain ⟨hg', hl⟩ := hg.destroyed hi
    exact ⟨hg', _, lists_some hi, hl⟩

/-- If the size of an element is a power of two, no call finds less room than for an element. -/
theorem Good.roomOrFull {e : ℕ} (he : C.elementSize.toNat = 2 ^ e) (hg : Good C st) (op : Op C) :
    op.RoomOrFull st := by
  cases op with
  | call i m =>
    exact fun a hi => Method.roomOrFull ((hg.whole ⟨e, he⟩ i a hi).roomOrFull (hg.bounds i a hi))
  | _ => trivial

theorem Good.of_reach {e : ℕ} (he : C.elementSize.toNat = 2 ^ e)
    (h : (podArrays C).Reach (fun st op => op.Fits st ∧ op.Plain st) st) : Good C st :=
  h.invariant (I := Good C) (fun _ h0 => Good.init h0) fun _ op _ _ hg hok hs =>
    (hg.step hok.1 hok.2 (hg.roomOrFull he op) hs).1

/-- **The arrays are lists.** What a run comes to is what the same operations come to on lists, and
whatever is done next is done to just the elements that are there. -/
theorem refines_lists {e : ℕ} (he : C.elementSize.toNat = 2 ^ e) {ops : List (Op C)}
    (h : (podArrays C).Trace (fun st op => op.Fits st ∧ op.Plain st) ops st) :
    (lists C).Trace (fun _ _ => True) ops st.lists ∧
      (∀ (op : Op C) st', op.Fits st → op.Plain st → step st op = some st' →
        op.OnLists st.lists st'.lists) ∧
      (C.padLeft ≠ 0 → ∀ i a, st.arrays i = some a → a.before C st.heap.mem = fun _ => 0) := by
  have hstep : ∀ {s : State}, (podArrays C).Reach (fun st op => op.Fits st ∧ op.Plain st) s →
      ∀ (op : Op C) s', op.Fits s → op.Plain s → step s op = some s' →
        op.OnLists s.lists s'.lists := by
    intro s hr op s' hf hp hs
    have hg := Good.of_reach he hr
    exact (hg.step hf hp (hg.roomOrFull he op) hs).2
  refine ⟨?_, hstep h.reach, (Good.of_reach he h.reach).before⟩
  refine h.map State.lists (fun s h0 i => ?_) fun s op s' hr hok hs =>
    hstep hr op s' hok.1 hok.2 hs
  rw [State.lists, h0.2.2.2.2.2.1 i]
  rfl

/-- Two elements are pushed, and the array is moved; making it smaller keeps the first. -/
theorem refines_lists_moved : ∃ st st' : State,
    step st (.call 1 (.resize 1) : Op vector) = some st' ∧
    (lists vector).Trace (fun _ _ => True)
      [.create 0 (-1), .call 0 (.pushBack fun _ => 7), .call 0 (.emplaceBack fun _ => 8),
        .moveConstruct 1 0] st.lists ∧
    (.call 1 (.resize 1) : Op vector).OnLists st.lists st'.lists ∧
      ∀ i a, st.arrays i = some a → a.before vector st.heap.mem = fun _ => 0 := by
  have h0 : (podArrays vector).Trace (fun st op => op.Fits st ∧ op.Plain st) []
      (start fun _ => 65536) :=
    .init (start_initial (by decide) _)
  have h1 := h0.step (a := Op.create 0 (-1)) ⟨trivial, trivial⟩ rfl
  have h2 := h1.step (a := Op.call 0 (.pushBack fun _ => 7)) ⟨fun a ha => by
    obtain rfl := Option.some.inj ha
    exact fun _ => by decide, fun _ _ => trivial⟩ rfl
  have h3 := h2.step (a := Op.call 0 (.emplaceBack fun _ => 8)) ⟨fun a ha => by
    obtain rfl := Option.some.inj ha
    exact fun hend => absurd hend (by decide), fun _ _ => trivial⟩ rfl
  have h4 := h3.step (a := Op.moveConstruct 1 0) ⟨trivial, trivial⟩ rfl
  obtain ⟨hlists, hnext, hbefore⟩ := refines_lists (e := 2) rfl h4
  exact ⟨_, _, rfl, hlists, hnext _ _ (fun _ _ => (by decide : vector.Fits 1))
    (fun _ _ => trivial) rfl, hbefore (by decide)⟩

end NetworkDemo.PODArray
