import NetworkDemo.PODArray.Refinement

/-!
# What the allocator is asked for

A storage is the bytes that were last asked for, less the paddings. `reserve`, `insert`,
`assign` and the constructors ask for a power of two, the first `push_back` for
`INITIAL_SIZE`, a later one for twice the block; none of them need be whole elements. What an
operation asks for is a function of the arrays before it (`Op.request`), and the storages are
whole elements after it if and only if what it asks for is (`AllWhole.step_iff`).
-/

namespace NetworkDemo.PODArray

open Foundations

variable {C : Template}

/-! ### Requests -/

section Requests

variable (C) (a : Arr)

/-- The bytes that `reserve(n)` asks the allocator for, if it does. -/
def reserveRequest (n : Size) : Option Size :=
  if a.capacity C < n then some (C.bytesRequested n) else none

/-- Those that `insertPrepare` and `assign` ask for. -/
def requireRequest (requiredCapacity : Size) : Option Size :=
  if a.capacity C < requiredCapacity then
    reserveRequest C a (roundUpToPowerOfTwoOrZero requiredCapacity)
  else none

/-- Those that `push_back` and its kin ask for. -/
def appendRequest : Option Size :=
  if a.cEnd = a.cEndOfStorage then
    if a.size C = 0 then some (firstBytes C) else some (a.allocatedBytes C * 2)
  else none

/-- Those that `resize_fill` asks for. -/
def fillRequest (n : Size) : Option Size := if a.size C < n then reserveRequest C a n else none

end Requests

/-- The bytes that a call asks the allocator for, if it does. -/
def Method.request (a : Arr) : Method C → Option Size
  | .reserve n => reserveRequest C a n
  | .resize n => reserveRequest C a n
  | .resizeFill n => fillRequest C a n
  | .resizeFillValue n _ => fillRequest C a n
  | .pushBack _ => appendRequest C a
  | .emplaceBack _ => appendRequest C a
  | .pushBackRaw _ => appendRequest C a
  | .popBack => none
  | .clear => none
  | .insert ys => requireRequest C a (a.size C + count ys)
  | .insertSmall ys _ => requireRequest C a (a.size C + count ys)
  | .insertAt _ ys => requireRequest C a (a.size C + count ys)
  | .assignValue n _ => reserveRequest C a n
  | .assign ys => requireRequest C a (count ys)

/-- The bytes that an operation asks the allocator for, if it does. -/
def Op.request (st : State) : Op C → Option Size
  | .create _ _ => none
  | .createSized _ n _ => some (C.bytesRequested n)
  | .createRange _ ys => some (C.bytesRequested (count ys))
  | .call i m => (st.arrays i).bind m.request
  | .assignFrom i j =>
    (st.arrays i).bind fun a => (st.arrays j).bind fun b =>
      requireRequest C a (count (b.contents C st.heap.mem))
  | .swap _ _ => none
  | .moveConstruct _ _ => none
  | .moveAssign _ _ => none
  | .clone _ j => (st.arrays j).map fun b => C.bytesRequested (b.size C)
  | .destroy _ => none

/-- Bytes that without the paddings are whole elements. -/
def WholeBytes (C : Template) (bytes : Size) : Prop :=
  C.elementSize.toNat ∣ bytes.toNat - C.padRight.toNat - C.padLeft.toNat

/-- If an operation asks for bytes, they are whole elements and the paddings. -/
def Op.AsksWhole (st : State) (op : Op C) : Prop :=
  ∀ bytes, op.request st = some bytes → WholeBytes C bytes

/-- The storages of all arrays are whole elements. -/
def AllWhole (C : Template) (st : State) : Prop := ∀ i a, st.arrays i = some a → Whole C a

variable {st st' : State} {arrays : ℕ → Option Arr} {i j : ℕ} {a b : Arr} {s r t : Heap × Arr}

/-! ### What comes of them -/

theorem reserve_allocated {n : Size} (hs : reserve C n s = some r) :
    r.2.allocatedBytes C = (reserveRequest C s.2 n).getD (s.2.allocatedBytes C) := by
  unfold reserve at hs
  unfold reserveRequest
  split at hs
  · rename_i hlt
    rw [if_pos hlt]
    exact realloc_allocated hs
  · rename_i hnot
    rw [if_neg hnot]
    obtain rfl := Option.some.inj hs
    rfl

theorem require_allocated {k : Size} (hs : require C k s = some r) :
    r.2.allocatedBytes C = (requireRequest C s.2 k).getD (s.2.allocatedBytes C) := by
  unfold require at hs
  unfold requireRequest
  split at hs
  · rename_i hlt
    rw [if_pos hlt]
    exact reserve_allocated hs
  · rename_i hnot
    rw [if_neg hnot]
    obtain rfl := Option.some.inj hs
    rfl

theorem append_allocated {x : Elem C} (hs : append x s = some r) :
    r.2.allocatedBytes C = (appendRequest C s.2).getD (s.2.allocatedBytes C) := by
  obtain ⟨t, ht, rfl⟩ := Option.map_eq_some_iff.mp hs
  unfold appendRequest
  split at ht
  · rename_i hend
    rw [if_pos hend]
    unfold reserveForNextSize at ht
    split at ht
    · rename_i hsize
      rw [if_pos hsize]
      have halloc := realloc_allocated ht
      exact halloc
    · rename_i hsize
      rw [if_neg hsize]
      have halloc := realloc_allocated ht
      exact halloc
  · rename_i hend
    rw [if_neg hend]
    obtain rfl := Option.some.inj ht
    rfl

theorem resizeWith_allocated {n : Size} {x : Elem C} (hs : resizeWith n x s = some r) :
    r.2.allocatedBytes C = (fillRequest C s.2 n).getD (s.2.allocatedBytes C) := by
  obtain ⟨t, ht, rfl⟩ := Option.map_eq_some_iff.mp hs
  unfold fillRequest
  split at ht
  · rename_i hlt
    obtain ⟨u, hu, rfl⟩ := Option.map_eq_some_iff.mp ht
    rw [if_pos hlt]
    have halloc := reserve_allocated hu
    exact halloc
  · rename_i hnot
    rw [if_neg hnot]
    obtain rfl := Option.some.inj ht
    rfl

/-- **The block of an array is what a call asks for**, or what it was. -/
theorem run_allocated {m : Method C} (hs : m.run s = some r) :
    r.2.allocatedBytes C = (m.request s.2).getD (s.2.allocatedBytes C) := by
  cases m with
  | reserve n => exact reserve_allocated hs
  | resize n =>
    obtain ⟨t, ht, rfl⟩ := Option.map_eq_some_iff.mp hs
    have halloc := reserve_allocated ht
    exact halloc
  | resizeFill n => exact resizeWith_allocated hs
  | resizeFillValue n value => exact resizeWith_allocated hs
  | pushBack x => exact append_allocated hs
  | emplaceBack x => exact append_allocated hs
  | pushBackRaw x => exact append_allocated hs
  | popBack =>
    obtain rfl := Option.some.inj hs
    rfl
  | clear =>
    obtain rfl := Option.some.inj hs
    rfl
  | insert ys =>
    obtain ⟨t, ht, rfl⟩ := Option.map_eq_some_iff.mp hs
    have halloc := require_allocated ht
    exact halloc
  | insertSmall ys behind =>
    obtain ⟨t, ht, rfl⟩ := Option.map_eq_some_iff.mp hs
    have halloc := require_allocated ht
    exact halloc
  | insertAt p ys =>
    obtain ⟨t, ht, rfl⟩ := Option.map_eq_some_iff.mp hs
    have halloc := require_allocated ht
    exact halloc
  | assignValue n x =>
    obtain ⟨t, ht, rfl⟩ := Option.map_eq_some_iff.mp hs
    obtain ⟨u, hu, rfl⟩ := Option.map_eq_some_iff.mp ht
    have halloc := reserve_allocated hu
    exact halloc
  | assign ys =>
    obtain ⟨t, ht, rfl⟩ := Option.map_eq_some_iff.mp hs
    have halloc := require_allocated ht
    exact halloc

/-! ### Whole storages -/

/-- The storage is the block less the paddings. -/
theorem Bounds.whole_iff (hb : Bounds C a) (hbare : a.cStart = C.null → a.cEndOfStorage = C.null) :
    Whole C a ↔ WholeBytes C (a.allocatedBytes C) := by
  unfold Whole WholeBytes
  by_cases hnull : a.cStart = C.null
  · have hbytes : (a.allocatedBytes C).toNat - C.padRight.toNat - C.padLeft.toNat = 0 := by
      have hle := Nat.mod_le (C.padRight.toNat + C.padLeft.toNat) (2 ^ 64)
      rw [Arr.allocatedBytes, hbare hnull, hnull, sub_self, zero_add, BitVec.toNat_add]
      omega
    rw [hbytes, hbare hnull, hnull, Nat.sub_self]
  · have hbytes := hb.allocated hnull
    have hsub : (a.allocatedBytes C).toNat - C.padRight.toNat - C.padLeft.toNat =
        a.cEndOfStorage.toNat - a.cStart.toNat := by omega
    rw [hsub]

/-- Bytes that are what was asked for, or what they were. -/
theorem wholeBytes_iff {request : Option Size} {bytes old : Size} (hold : WholeBytes C old)
    (hbytes : bytes = request.getD old) :
    WholeBytes C bytes ↔ ∀ asked, request = some asked → WholeBytes C asked := by
  rw [hbytes]
  cases request with
  | none => exact iff_of_true hold fun _ h => by cases h
  | some asked =>
    constructor
    · rintro h _ ⟨⟩
      exact h
    · exact fun h => h asked rfl

theorem Ordered.whole_iff (hg : Ordered C st) (hi : st.arrays i = some a) :
    Whole C a ↔ WholeBytes C (a.allocatedBytes C) :=
  (hg.bounds i a hi).whole_iff (hg.own.bare i a hi)

/-- With whole storages there is always room, or the storage is full. -/
theorem AllWhole.roomOrFull (hw : AllWhole C st) (hg : Ordered C st) (op : Op C) :
    op.RoomOrFull st := by
  cases op with
  | call i m =>
    exact fun a hi => Method.roomOrFull ((hw i a hi).roomOrFull (hg.bounds i a hi))
  | _ => trivial

theorem whole_new (socketId : ℤ) : Whole C (Arr.new C socketId) := by
  show C.elementSize.toNat ∣ C.null.toNat - C.null.toNat
  rw [Nat.sub_self]
  exact Nat.dvd_zero _

/-- One array is changed. -/
theorem AllWhole.set_iff (hw : AllWhole C st) : AllWhole C (st.set i r) ↔ Whole C r.2 := by
  constructor
  · exact fun h => h i r.2 update_same
  · intro h j c hj
    rcases eq_or_of_update hj with ⟨-, rfl⟩ | ⟨-, hj⟩
    · exact h
    · exact hw j c hj

/-- A call that asks for bytes, or none. -/
theorem AllWhole.changed_iff {request : Option Size} (hw : AllWhole C st) (hg : Ordered C st)
    (hg' : Ordered C (st.set i r)) (hi : st.arrays i = some a)
    (halloc : r.2.allocatedBytes C = request.getD (a.allocatedBytes C)) :
    AllWhole C (st.set i r) ↔ ∀ asked, request = some asked → WholeBytes C asked := by
  rw [hw.set_iff, hg'.whole_iff update_same]
  exact wholeBytes_iff ((hg.whole_iff hi).mp (hw i a hi)) halloc

/-- A constructor that does. -/
theorem AllWhole.constructed_iff {request : Option Size} {f : Heap → Option (Heap × Arr)}
    (socketId : ℤ) (hw : AllWhole C st) (hg' : Ordered C st')
    (hs : st.construct i f = some st')
    (halloc : ∀ r, f st.heap = some r → st.arrays i = none →
      r.2.allocatedBytes C = request.getD ((Arr.new C socketId).allocatedBytes C)) :
    AllWhole C st' ↔ ∀ asked, request = some asked → WholeBytes C asked := by
  unfold State.construct at hs
  split at hs
  · rename_i hi
    obtain ⟨r, hr, rfl⟩ := Option.map_eq_some_iff.mp hs
    have hnew : WholeBytes C ((Arr.new C socketId).allocatedBytes C) :=
      ((Bounds.empty rfl).whole_iff fun _ => rfl).mp (whole_new socketId)
    rw [hw.set_iff, hg'.whole_iff update_same]
    exact wholeBytes_iff hnew (halloc r hr hi)
  · cases hs

/-- A storage stays with its pointers. -/
theorem AllWhole.swapped (hw : AllWhole C st) (hs : swapAt C st i j = some st') :
    AllWhole C st' := by
  obtain ⟨a, hi, hs⟩ := Option.bind_eq_some_iff.mp hs
  obtain ⟨b, hj, rfl⟩ := Option.map_eq_some_iff.mp hs
  have ha := hw i a hi
  have hb := hw j b hj
  have hswap : Whole C (swap C a b).1 ∧ Whole C (swap C a b).2 := by
    unfold swap
    split
    · exact ⟨ha, hb⟩
    · exact ⟨hb, ha⟩
  intro k c hk
  rcases eq_or_of_update hk with ⟨-, rfl⟩ | ⟨-, hk⟩
  · exact hswap.1
  · rcases eq_or_of_update hk with ⟨-, rfl⟩ | ⟨-, hk⟩
    · exact hswap.2
    · exact hw k c hk

/-- The range constructor asks once: its `insert` has room. -/
theorem ranged_allocated {ys : List (Elem C)} (hg : Ordered C st) (hi : st.arrays i = none)
    (hs : ranged ys (st.heap, Arr.new C (-1)) = some r) (hf : C.Fits ys.length) :
    r.2.allocatedBytes C = C.bytesRequested (count ys) := by
  obtain ⟨t, ht, hr⟩ := Option.bind_eq_some_iff.mp hs
  obtain ⟨u, hu, rfl⟩ := Option.map_eq_some_iff.mp hr
  have hcount := toNat_count hf
  obtain ⟨hd, hcap⟩ := Does.alloc (hg.own.created hi rfl rfl) (Bounds.empty rfl) ht rfl
    (Template.le_bytesRequested (hcount ▸ hf.le)) fun ⟨e, he⟩ _ =>
    Template.dvd_bytesRequested he _
  have hsize : t.2.size C = 0 := BitVec.eq_of_toNat_eq (hd.size_eq ▸ size_self)
  have hroom : ¬ t.2.capacity C < t.2.size C + count ys := by
    rw [hsize, zero_add, BitVec.lt_def, not_lt]
    exact hcap
  have hsame : u.2.allocatedBytes C =
      (requireRequest C t.2 (t.2.size C + count ys)).getD (t.2.allocatedBytes C) :=
    require_allocated hu
  rw [requireRequest, if_neg hroom] at hsame
  exact hsame.trans (alloc_allocated ht)

/-- **Storages are whole elements after an operation** if and only if what it asks for is. -/
theorem AllWhole.step_iff {op : Op C} (hw : AllWhole C st) (hg : Good C st) (hf : op.Fits st)
    (hp : op.Plain st) (hs : step st op = some st') : AllWhole C st' ↔ op.AsksWhole st := by
  obtain ⟨⟨hg', -, -, -, -⟩, -⟩ := hg.step hf hp (hw.roomOrFull hg.toOrdered op) hs
  have hno : (∀ asked, (none : Option Size) = some asked → WholeBytes C asked) :=
    fun _ h => by cases h
  cases op with
  | create i socketId =>
    change st.construct i (fun h => some (h, Arr.new C socketId)) = some st' at hs
    refine hw.constructed_iff socketId hg' hs fun r hr _ => ?_
    obtain rfl := Option.some.inj hr
    rfl
  | createSized i n socketId =>
    change st.construct i (fun h => sized C n (h, Arr.new C socketId)) = some st' at hs
    refine hw.constructed_iff socketId hg' hs fun r hr _ => ?_
    obtain ⟨t, ht, rfl⟩ := Option.map_eq_some_iff.mp hr
    have halloc := alloc_allocated ht
    exact halloc
  | createRange i ys =>
    change st.construct i (fun h => ranged ys (h, Arr.new C (-1))) = some st' at hs
    exact hw.constructed_iff (-1) hg' hs fun r hr hi => ranged_allocated hg.toOrdered hi hr hf
  | call i m =>
    obtain ⟨a, hi, hs⟩ := Option.bind_eq_some_iff.mp hs
    obtain ⟨r, hr, rfl⟩ := Option.map_eq_some_iff.mp hs
    have halloc := run_allocated hr
    rw [hw.changed_iff hg.toOrdered hg' hi halloc, Op.AsksWhole, Op.request, hi, Option.bind_some]
  | assignFrom i j =>
    obtain ⟨a, hi, hs⟩ := Option.bind_eq_some_iff.mp hs
    obtain ⟨b, hj, hs⟩ := Option.bind_eq_some_iff.mp hs
    obtain ⟨r, hr, rfl⟩ := Option.map_eq_some_iff.mp hs
    obtain ⟨t, ht, rfl⟩ := Option.map_eq_some_iff.mp hr
    have halloc := require_allocated ht
    rw [hw.changed_iff hg.toOrdered hg' hi halloc, Op.AsksWhole, Op.request, hi, Option.bind_some,
      hj, Option.bind_some]
  | swap i j => exact iff_of_true (hw.swapped hs) hno
  | moveConstruct i j =>
    obtain ⟨b, hj, hs⟩ := Option.bind_eq_some_iff.mp hs
    obtain ⟨t, ht, hs⟩ := Option.bind_eq_some_iff.mp hs
    unfold State.construct at ht
    split at ht
    · obtain rfl := Option.some.inj ht
      exact iff_of_true ((hw.set_iff.mpr (whole_new (-1))).swapped hs) hno
    · cases ht
  | moveAssign i j => exact iff_of_true (hw.swapped hs) hno
  | clone i j => exact hp.elim
  | destroy i =>
    obtain ⟨a, hi, rfl⟩ := Option.map_eq_some_iff.mp hs
    exact iff_of_true (fun k c hk => hw k c (of_update_none hk).2) hno

/-! ### Elements of `2ᵉ` bytes -/

/-- Then the block of a whole storage is whole elements. -/
theorem Ordered.dvd_allocated {e : ℕ} (he : C.elementSize.toNat = 2 ^ e) (hg : Ordered C st)
    (hw : AllWhole C st) (hi : st.arrays i = some a) :
    C.elementSize.toNat ∣ (a.allocatedBytes C).toNat := by
  have hb := hg.bounds i a hi
  rw [Arr.allocatedBytes, BitVec.toNat_add, BitVec.toNat_add,
    toNat_sub_le (hb.start_le.trans hb.end_le)]
  exact Template.dvd_mod he (Nat.dvd_add
    (Template.dvd_mod he (Nat.dvd_add (hw i a hi) Template.dvd_padRight)) (Template.dvd_padLeft he))

theorem dvd_reserveRequest {e : ℕ} (he : C.elementSize.toNat = 2 ^ e) {n asked : Size}
    (h : reserveRequest C a n = some asked) : C.elementSize.toNat ∣ asked.toNat := by
  unfold reserveRequest at h
  split at h
  · obtain rfl := Option.some.inj h
    exact Template.dvd_bytesRequested he n
  · cases h

theorem dvd_requireRequest {e : ℕ} (he : C.elementSize.toNat = 2 ^ e) {k asked : Size}
    (h : requireRequest C a k = some asked) : C.elementSize.toNat ∣ asked.toNat := by
  unfold requireRequest at h
  split at h
  · exact dvd_reserveRequest he h
  · cases h

theorem dvd_fillRequest {e : ℕ} (he : C.elementSize.toNat = 2 ^ e) {n asked : Size}
    (h : fillRequest C a n = some asked) : C.elementSize.toNat ∣ asked.toNat := by
  unfold fillRequest at h
  split at h
  · exact dvd_reserveRequest he h
  · cases h

theorem dvd_appendRequest {e : ℕ} (he : C.elementSize.toNat = 2 ^ e) {asked : Size}
    (halloc : C.elementSize.toNat ∣ (a.allocatedBytes C).toNat) (hf : NextFits C a)
    (h : appendRequest C a = some asked) : C.elementSize.toNat ∣ asked.toNat := by
  unfold appendRequest at h
  split at h
  · rename_i hend
    have hf := hf hend
    split at h
    · rename_i hsize
      rw [if_pos hsize] at hf
      obtain rfl := Option.some.inj h
      exact dvd_firstBytes he hf.1
    · obtain rfl := Option.some.inj h
      rw [BitVec.toNat_mul]
      exact Template.dvd_mod he (Nat.dvd_mul_right_of_dvd halloc _)
  · cases h

theorem Method.dvd_request {e : ℕ} (he : C.elementSize.toNat = 2 ^ e) {m : Method C} {asked : Size}
    (halloc : C.elementSize.toNat ∣ (a.allocatedBytes C).toNat) (hf : m.Fits a)
    (h : m.request a = some asked) : C.elementSize.toNat ∣ asked.toNat := by
  cases m with
  | reserve n => exact dvd_reserveRequest he h
  | resize n => exact dvd_reserveRequest he h
  | resizeFill n => exact dvd_fillRequest he h
  | resizeFillValue n value => exact dvd_fillRequest he h
  | pushBack x => exact dvd_appendRequest he halloc hf h
  | emplaceBack x => exact dvd_appendRequest he halloc hf h
  | pushBackRaw x => exact dvd_appendRequest he halloc hf h
  | popBack => cases h
  | clear => cases h
  | insert ys => exact dvd_requireRequest he h
  | insertSmall ys behind => exact dvd_requireRequest he h
  | insertAt p ys => exact dvd_requireRequest he h
  | assignValue n x => exact dvd_reserveRequest he h
  | assign ys => exact dvd_requireRequest he h

/-- **Every operation asks for whole elements.** -/
theorem AllWhole.asksWhole {e : ℕ} (he : C.elementSize.toNat = 2 ^ e) (hw : AllWhole C st)
    (hg : Ordered C st) {op : Op C} (hf : op.Fits st) : op.AsksWhole st := by
  intro asked h
  have hdvd : C.elementSize.toNat ∣ asked.toNat := by
    cases op with
    | createSized i n socketId =>
      obtain rfl := Option.some.inj h
      exact Template.dvd_bytesRequested he n
    | createRange i ys =>
      obtain rfl := Option.some.inj h
      exact Template.dvd_bytesRequested he _
    | call i m =>
      obtain ⟨a, hi, h⟩ := Option.bind_eq_some_iff.mp h
      exact Method.dvd_request he (hg.dvd_allocated he hw hi) (hf a hi) h
    | assignFrom i j =>
      obtain ⟨a, hi, h⟩ := Option.bind_eq_some_iff.mp h
      obtain ⟨b, hj, h⟩ := Option.bind_eq_some_iff.mp h
      exact dvd_requireRequest he h
    | clone i j =>
      obtain ⟨b, hj, rfl⟩ := Option.map_eq_some_iff.mp h
      exact Template.dvd_bytesRequested he _
    | _ => cases h
  exact Nat.dvd_sub (Nat.dvd_sub hdvd Template.dvd_padRight) (Template.dvd_padLeft he)

end NetworkDemo.PODArray
