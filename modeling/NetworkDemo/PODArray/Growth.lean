import NetworkDemo.Foundations.Doubling
import NetworkDemo.PODArray.Bounds

/-!
# What growing costs

An array that is full gets a block of twice the bytes, and one that is asked for more elements than
it has room for a block of a power of two. `numa_realloc` copies the old block. The `Ledger` goes
with the program and keeps for each block how many bytes have been copied for it, in how many calls
of `numa_realloc`, and the most elements that a call wanted room for. A block keeps its number when
it is moved, and goes from array to array by `swap` and by moves.

* `growth` — whatever a program does, no more than twice the bytes of a block have been copied for
  it; and a block is no more than four times what was wanted, or the first block of an array that is
  pushed to.
-/

namespace NetworkDemo.PODArray

open Foundations

variable {C : Template}

/-! ### The ledger -/

/-- How many elements a call wants room for. -/
def Method.wants (a : Arr) : Method C → ℕ
  | .reserve n => n.toNat
  | .resize n => n.toNat
  | .resizeFill n => n.toNat
  | .resizeFillValue n _ => n.toNat
  | .pushBack _ => (a.size C).toNat + 1
  | .emplaceBack _ => (a.size C).toNat + 1
  | .pushBackRaw _ => (a.size C).toNat + 1
  | .popBack => 0
  | .clear => 0
  | .insert ys => (a.size C).toNat + ys.length
  | .insertSmall ys _ => (a.size C).toNat + ys.length
  | .insertAt _ ys => (a.size C).toNat + ys.length
  | .assignValue n _ => n.toNat
  | .assign ys => ys.length

/-- The array that an operation wants room in, and for how many elements. -/
def Op.wants (st : State) : Op C → Option (ℕ × ℕ)
  | .createSized i n _ => some (i, n.toNat)
  | .createRange i ys => some (i, ys.length)
  | .call i m => (st.arrays i).map fun a => (i, m.wants a)
  | .assignFrom i j => (st.arrays j).map fun b => (i, (b.size C).toNat)
  | .clone i j => (st.arrays j).map fun b => (i, (b.size C).toNat)
  | _ => none

/-- The size of the block of a number. -/
def Heap.sizeOf (h : Heap) (id : ℕ) : Option ℕ := (h.blocks.find? (·.id = id)).map Block.size

/-- The number of the block of an array. -/
def State.blockOf (C : Template) (st : State) (i : ℕ) : Option ℕ :=
  (st.arrays i).bind fun a => (st.heap.find (a.cStart - C.padLeft) (a.allocatedBytes C)).map
    Block.id

/-- A program, and its ledger. -/
structure Ledger where
  state : State
  /-- What `numa_realloc` has copied for each block. -/
  account : ℕ → Account
  /-- The most elements that were wanted in it. -/
  peak : ℕ → ℕ

namespace Ledger

/-- A block that has another size has been copied. -/
def charge (A : Account) : Option ℕ → Option ℕ → Account
  | some n, some n' => if n = n' then A else A.add n
  | _, _ => A

/-- One operation. -/
def step (L : Ledger) (op : Op C) : Option Ledger :=
  (PODArray.step L.state op).map fun st =>
    { state := st
      account := fun id => charge (L.account id) (L.state.heap.sizeOf id) (st.heap.sizeOf id)
      peak := fun id => (op.wants L.state).elim (L.peak id) fun w =>
        if st.blockOf C w.1 = some id then max (L.peak id) w.2 else L.peak id }

end Ledger

/-- The program with its ledger. -/
def ledgers (C : Template) : Lts Ledger (Op C) where
  init L := Initial C L.state ∧ ∀ id, L.account id = .none ∧ L.peak id = 0
  step L op L' := L.step op = some L'

/-- The bytes of a block for `k` elements, at most. -/
def Template.atMost (C : Template) (k : ℕ) : ℕ := max (firstBytes C).toNat (4 * C.bytesFor k)

/-! ### What a call does to the blocks -/

variable {k : ℕ} {s r t : Heap × Arr} {arrays : ℕ → Option Arr} {i : ℕ} {b : Block}

/-- From `s` to `r` a block is made, or moved, for the array, which wants room for `k` elements, or
none is. -/
inductive Resizes (C : Template) (k : ℕ) (s r : Heap × Arr) : Prop where
  | same (blocks : r.1.blocks = s.1.blocks) (made : r.1.made = s.1.made)
  | fresh (b : Block) (id : b.id = s.1.made) (blocks : r.1.blocks = b :: s.1.blocks)
    (made : r.1.made = s.1.made + 1)
    (owns : r.2.Owns C b) (le : b.size ≤ C.atMost k)
  | moved (b b' : Block) (mem : b ∈ s.1.blocks) (id : b'.id = b.id)
    (blocks : r.1.blocks = b' :: s.1.blocks.erase b)
    (made : r.1.made = s.1.made) (owns : r.2.Owns C b') (le : b'.size ≤ C.atMost k)
    (larger : Enlarges b.size b'.size ∨ b.size < C.bytesFor 1 ∧ b.size < b'.size)
    (one : C.bytesFor 1 ≤ b'.size)

/-- Whose a block is depends on two of the pointers. -/
theorem Arr.Owns.congr {a a' : Arr} (ho : a.Owns C b) (hstart : a'.cStart = a.cStart)
    (hstop : a'.cEndOfStorage = a.cEndOfStorage) :
    a'.Owns C b := by
  unfold Arr.Owns Arr.allocatedBytes at *
  rw [hstart, hstop]
  exact ho

/-- What is done afterwards is not to the blocks. -/
theorem Resizes.andThen (h : Resizes C k s t) (hblocks : r.1.blocks = t.1.blocks)
    (hmade : r.1.made = t.1.made) (hstart : r.2.cStart = t.2.cStart)
    (hstop : r.2.cEndOfStorage = t.2.cEndOfStorage) : Resizes C k s r := by
  cases h with
  | same blocks made => exact .same (hblocks.trans blocks) (hmade.trans made)
  | fresh b id blocks made owns le =>
    exact .fresh b id (hblocks.trans blocks) (hmade.trans made) (owns.congr hstart hstop) le
  | moved b b' mem id blocks made owns le larger one =>
    exact .moved b b' mem id (hblocks.trans blocks) (hmade.trans made)
      (owns.congr hstart hstop) le larger one

theorem Resizes.alloc {bytes : Size} (hs : alloc C bytes s = some r)
    (hpads : bytes = 0 → C.padLeft = 0 ∧ C.padRight = 0) (hle : bytes.toNat ≤ C.atMost k) :
    Resizes C k s r := by
  by_cases h0 : bytes = 0
  · obtain ⟨hp, hr⟩ := hpads h0
    rw [h0, alloc_zero hp hr] at hs
    obtain rfl := Option.some.inj hs
    exact .same rfl rfl
  · obtain ⟨x, b, ha⟩ := alloc_spec hs h0
    refine .fresh b ha.id (congrArg Heap.blocks ha.heap) (congrArg Heap.made ha.heap) ?_
      (ha.size ▸ hle)
    rw [ha.arr]
    exact owns_ofBlock ha.room.1 ha.base ha.size

theorem Resizes.realloc {bytes : Size} (ho : Own C s.1 (Function.update arrays i (some s.2)))
    (hs : realloc C bytes s = some r) (hone : C.bytesFor 1 ≤ bytes.toNat)
    (hle : bytes.toNat ≤ C.atMost k)
    (hlarger : ∀ b, s.2.Owns C b → Enlarges b.size bytes.toNat ∨ b.size < C.bytesFor 1 ∧
      b.size < bytes.toNat) :
    Resizes C k s r := by
  have h0 : bytes ≠ 0 := by
    rintro rfl
    exact absurd hone (not_le.mpr (bytesFor_pos Nat.one_pos))
  by_cases hnull : s.2.cStart = C.null
  · rw [PODArray.realloc, if_pos hnull] at hs
    exact Resizes.alloc hs (fun h => absurd h h0) hle
  · obtain ⟨b, hb, hab⟩ := ho.has i s.2 update_same hnull
    obtain ⟨x, b', ha⟩ := realloc_spec hs ho.wf hb hab
    have hlarger := hlarger b hab
    rw [ha.size] at hlarger hle hone
    refine .moved b b' hb ha.id (by rw [ha.heap]) (by rw [ha.heap]) ?_ hle hlarger hone
    rw [ha.arr]
    exact owns_ofBlock ha.room.1 ha.base ha.size

/-! ### How many bytes -/

theorem bytesRequested_le_twice {n : Size} (hf : C.Fits n.toNat) :
    (C.bytesRequested n).toNat ≤ 2 * C.bytesFor n.toNat := by
  have hmin := Template.toNat_minimumMemory (n := n) (hf.trans (by decide))
  rcases Nat.eq_zero_or_pos (C.bytesFor n.toNat) with h0 | hpos
  · have hzero : C.minimumMemoryForElements n = 0 := BitVec.eq_of_toNat_eq (hmin.trans h0)
    rw [Template.bytesRequested, hzero, roundUp_zero]
    exact Nat.zero_le _
  · rw [Template.bytesRequested, roundUp_eq (by omega) (by rw [hmin]; exact hf.le), hmin]
    exact (twoPow_lt hpos).le

/-- Twice the elements are not twice the paddings. -/
theorem bytesFor_twice (k : ℕ) : C.bytesFor (2 * k) ≤ 2 * C.bytesFor k := by
  unfold Template.bytesFor
  rw [Nat.mul_assoc]
  omega

theorem Template.atMost_mono {j k : ℕ} (h : j ≤ k) : C.atMost j ≤ C.atMost k :=
  max_le_max le_rfl (Nat.mul_le_mul_left 4 (Template.bytesFor_mono h))

theorem Template.le_atMost {n : ℕ} (h : n ≤ 4 * C.bytesFor k) : n ≤ C.atMost k :=
  h.trans (le_max_right _ _)

section Room

variable (ho : Own C s.1 (Function.update arrays i (some s.2))) (hb : Bounds C s.2)
include ho hb

theorem Resizes.reserve {n : Size} (hs : reserve C n s = some r) (hf : C.Fits n.toNat)
    (hle : (C.bytesRequested n).toNat ≤ C.atMost k) : Resizes C k s r := by
  unfold PODArray.reserve at hs
  split at hs
  · rename_i hcap
    rw [BitVec.lt_def] at hcap
    have hreq := Template.le_bytesRequested hf.le
    have hone : C.bytesFor 1 ≤ C.bytesFor n.toNat := Template.bytesFor_mono (Nat.zero_lt_of_lt hcap)
    refine Resizes.realloc ho hs (hone.trans hreq) hle fun b hab => .inl ?_
    -- the block is for fewer elements
    have hroom := mt hb.le_capacity.mpr (not_le.mpr hcap)
    have hsize := hab.2.2
    have hstop := hb.start_le.trans hb.end_le
    rw [hb.allocated hab.1] at hsize
    have hlt : b.size < C.bytesFor n.toNat := by
      unfold Template.bytesFor
      omega
    have hmin := Template.toNat_minimumMemory (n := n) (hf.trans (by decide))
    have hpow : (C.bytesRequested n).toNat = 2 ^ (C.bytesFor n.toNat - 1).size := by
      rw [Template.bytesRequested, roundUp_eq (by omega) (by rw [hmin]; exact hf.le), hmin]
    have hlarger := hlt.trans_le hreq
    change Enlarges b.size (C.bytesRequested n).toNat
    rw [hpow] at hlarger ⊢
    exact .power hlarger
  · obtain rfl := Option.some.inj hs
    exact .same rfl rfl

theorem Resizes.require (hs : require C (BitVec.ofNat 64 k) s = some r) (hf : GrowFits C s.2 k) :
    Resizes C k s r := by
  have hk := toNat_ofNat ((Fits.lt hf.1).trans (by decide))
  unfold PODArray.require at hs
  split at hs
  · rename_i hcap
    rw [BitVec.lt_def, hk] at hcap
    have hfit := hf.2 hcap
    have hround := toNat_roundUp_ofNat (Nat.zero_lt_of_lt hcap) (Fits.lt hf.1).le
    have hpow := twoPow_lt (Nat.zero_lt_of_lt hcap)
    refine Resizes.reserve ho hb hs hfit (Template.le_atMost ?_)
    have h1 := bytesRequested_le_twice hfit
    have h2 : C.bytesFor (roundUpToPowerOfTwoOrZero (BitVec.ofNat 64 k)).toNat ≤
        C.bytesFor (2 * k) :=
      Template.bytesFor_mono (by omega)
    have h3 := bytesFor_twice (C := C) k
    omega
  · obtain rfl := Option.some.inj hs
    exact .same rfl rfl

theorem Resizes.reserveForNextSize (hs : reserveForNextSize C s = some r)
    (hend : s.2.cEnd = s.2.cEndOfStorage) (hf : NextFits C s.2) :
    Resizes C ((s.2.size C).toNat + 1) s r := by
  have hf := hf hend
  unfold PODArray.reserveForNextSize at hs
  by_cases hsize : s.2.size C = 0
  · -- nothing in it, and no room: its block, if it has one, is paddings
    rw [if_pos hsize] at hs hf
    have hfirst := firstBytes_ge hf.1
    have hpos : C.bytesFor 0 < C.bytesFor 1 := by
      have := C.elementSize_pos
      unfold Template.bytesFor
      omega
    refine Resizes.realloc ho hs hfirst (le_max_left _ _) fun b hab => .inr ?_
    have hb0 := hb.toNat_end
    have hsz := hab.2.2
    rw [hb.allocated hab.1, ← hend, hb0, hsize, toNat_zero] at hsz
    unfold Template.bytesFor at *
    omega
  · rw [if_neg hsize] at hs hf
    have hpos := toNat_pos hsize
    have hnull := hb.ne_null (ho.bare i s.2 update_same) hpos hb.size_le_capacity
    have htwice : (s.2.allocatedBytes C * 2).toNat = (s.2.allocatedBytes C).toNat * 2 := by
      rw [BitVec.toNat_mul, toNat_two, Nat.mod_eq_of_lt (hf.trans (by decide))]
    have halloc := hb.allocated hnull
    have hall : (s.2.allocatedBytes C).toNat = C.bytesFor (s.2.size C).toNat := by
      have := hb.size_mul
      rw [halloc, ← hend]
      unfold Template.bytesFor
      omega
    have hmono := Template.bytesFor_mono (C := C) (Nat.le_add_right (s.2.size C).toNat 1)
    have hone : C.bytesFor 1 ≤ C.bytesFor (s.2.size C).toNat := Template.bytesFor_mono hpos
    refine Resizes.realloc ho hs (by omega) (Template.le_atMost (by omega)) fun b hab => .inl ?_
    rw [htwice, hab.2.2]
    exact .twice _

theorem Resizes.reserved {n : Size} (hs : PODArray.reserve C n s = some r) (hf : C.Fits n.toNat) :
    Resizes C n.toNat s r := by
  have := bytesRequested_le_twice hf
  exact Resizes.reserve ho hb hs hf (Template.le_atMost (by omega))

theorem Resizes.insertPrepare {ys : List (Elem C)} (hs : insertPrepare C (count ys) s = some r)
    (hf : GrowFits C s.2 ((s.2.size C).toNat + ys.length)) :
    Resizes C ((s.2.size C).toNat + ys.length) s r := by
  rw [PODArray.insertPrepare, count, ofNat_add_length] at hs
  exact Resizes.require ho hb hs hf

end Room

/-! ### Calls and operations -/

/-- Something that is done to neither the blocks nor the storage. -/
structure Leaves (t r : Heap × Arr) : Prop where
  blocks : r.1.blocks = t.1.blocks
  made : r.1.made = t.1.made
  start : r.2.cStart = t.2.cStart
  stop : r.2.cEndOfStorage = t.2.cEndOfStorage

theorem Resizes.leave (h : Resizes C k s t) (hl : Leaves t r) : Resizes C k s r :=
  h.andThen hl.blocks hl.made hl.start hl.stop

theorem Resizes.refl : Resizes C k s s := .same rfl rfl

theorem Resizes.map {o : Option (Heap × Arr)} {f : Heap × Arr → Heap × Arr} (hs : o.map f = some r)
    (ho : ∀ t, o = some t → Resizes C k s t) (hf : ∀ t, Leaves t (f t)) : Resizes C k s r := by
  obtain ⟨t, ht, rfl⟩ := Option.map_eq_some_iff.mp hs
  exact (ho t ht).leave (hf t)

theorem leaves_put (cEnd p : Size) (xs : List (Elem C)) (t : Heap × Arr) :
    Leaves t (setEnd cEnd (put p xs t)) :=
  ⟨rfl, rfl, rfl, rfl⟩

section Run

variable (ho : Own C s.1 (Function.update arrays i (some s.2))) (hb : Bounds C s.2)
include ho hb

theorem Resizes.append {x : Elem C} (hs : append x s = some r) (hf : NextFits C s.2) :
    Resizes C ((s.2.size C).toNat + 1) s r := by
  refine Resizes.map hs (fun t ht => ?_) fun t => leaves_put _ _ _ t
  split at ht
  · rename_i hend
    exact Resizes.reserveForNextSize ho hb ht hend hf
  · obtain rfl := Option.some.inj ht
    exact .refl

theorem Resizes.resize {n : Size} (hs : resize C n s = some r) (hf : C.Fits n.toNat) :
    Resizes C n.toNat s r :=
  Resizes.map hs (fun _ ht => Resizes.reserved ho hb ht hf) fun _ => ⟨rfl, rfl, rfl, rfl⟩

theorem Resizes.resizeWith {n : Size} {x : Elem C} (hs : resizeWith n x s = some r)
    (hf : C.Fits n.toNat) :
    Resizes C n.toNat s r := by
  refine Resizes.map hs (fun t ht => ?_) fun _ => ⟨rfl, rfl, rfl, rfl⟩
  split at ht
  · exact Resizes.map ht (fun _ hu => Resizes.reserved ho hb hu hf) fun _ => ⟨rfl, rfl, rfl, rfl⟩
  · obtain rfl := Option.some.inj ht
    exact .refl

theorem Resizes.assign {ys : List (Elem C)} (hs : assign ys s = some r)
    (hf : GrowFits C s.2 ys.length) :
    Resizes C ys.length s r :=
  Resizes.map hs (fun _ ht => Resizes.require ho hb ht hf) fun t => leaves_put _ _ _ t

theorem Resizes.insert {ys : List (Elem C)} (hs : insert ys s = some r)
    (hf : GrowFits C s.2 ((s.2.size C).toNat + ys.length)) :
    Resizes C ((s.2.size C).toNat + ys.length) s r :=
  Resizes.map hs (fun _ ht => Resizes.insertPrepare ho hb ht hf) fun t => leaves_put _ _ _ t

/-- **A call** makes or moves at most the block of its array. -/
theorem Resizes.run {m : Method C} (hs : m.run s = some r) (hf : m.Fits s.2) :
    Resizes C (m.wants s.2) s r := by
  cases m with
  | reserve n => exact Resizes.reserved ho hb hs hf
  | resize n => exact Resizes.resize ho hb hs hf
  | resizeFill n => exact Resizes.resizeWith ho hb hs hf
  | resizeFillValue n value => exact Resizes.resizeWith ho hb hs hf
  | pushBack x => exact Resizes.append ho hb hs hf
  | emplaceBack x => exact Resizes.append ho hb hs hf
  | pushBackRaw x => exact Resizes.append ho hb hs hf
  | popBack =>
    obtain rfl := Option.some.inj hs
    exact Resizes.refl.leave ⟨rfl, rfl, rfl, rfl⟩
  | clear =>
    obtain rfl := Option.some.inj hs
    exact Resizes.refl.leave ⟨rfl, rfl, rfl, rfl⟩
  | insert ys => exact Resizes.insert ho hb hs hf
  | insertSmall ys behind =>
    exact Resizes.map hs (fun _ ht => Resizes.insertPrepare ho hb ht hf) fun _ =>
      ⟨rfl, rfl, rfl, rfl⟩
  | insertAt p ys =>
    refine Resizes.map hs (fun _ ht => Resizes.insertPrepare ho hb ht hf) fun t => ?_
    dsimp only
    split_ifs
    · exact ⟨rfl, rfl, rfl, rfl⟩
    · exact ⟨rfl, rfl, rfl, rfl⟩
  | assignValue n x =>
    exact Resizes.map hs (fun _ ht => Resizes.resize ho hb ht hf) fun _ => ⟨rfl, rfl, rfl, rfl⟩
  | assign ys => exact Resizes.assign ho hb hs hf

end Run

section Constructors

variable {ys : List (Elem C)}

theorem Resizes.allocated {n : Size} (hs : allocForNumElements C n s = some r)
    (hf : C.Fits n.toNat) : Resizes C n.toNat s r := by
  have := bytesRequested_le_twice hf
  change PODArray.alloc C (C.bytesRequested n) s = some r at hs
  exact Resizes.alloc hs (fun h0 => requested_eq_zero hf h0) (Template.le_atMost (by omega))

theorem Resizes.sized {n : Size} (hs : sized C n s = some r) (hf : C.Fits n.toNat) :
    Resizes C n.toNat s r :=
  Resizes.map hs (fun _ ht => Resizes.allocated ht hf) fun _ => ⟨rfl, rfl, rfl, rfl⟩

/-- There is room already. -/
theorem require_of_le {n : Size} (h : n.toNat ≤ (s.2.capacity C).toNat) : require C n s = some s :=
  if_neg (not_lt.mpr h)

theorem Resizes.ranged (hs : ranged ys s = some r) (hf : C.Fits ys.length) :
    Resizes C ys.length s r := by
  obtain ⟨t, ht, hr⟩ := Option.bind_eq_some_iff.mp hs
  have hcount := toNat_count hf
  obtain ⟨hsize, hcap⟩ := allocForNumElements_capacity ht (hcount ▸ hf)
  have hroom : PODArray.insertPrepare C (count ys) t = some t := by
    rw [PODArray.insertPrepare, hsize, zero_add]
    exact require_of_le hcap
  rw [PODArray.insert, hroom] at hr
  obtain rfl := Option.some.inj hr
  have h := Resizes.allocated ht (hcount ▸ hf)
  rw [hcount] at h
  exact h.leave (leaves_put _ _ _ t)

theorem Resizes.cloneInto {left : Elem C} (hs : cloneInto ys left s = some r)
    (hf : C.Fits ys.length) :
    Resizes C ys.length s r := by
  have hcount := toNat_count hf
  refine Resizes.map hs (fun t ht => ?_) fun t => ?_
  · obtain ⟨u, hu, ht⟩ := Option.bind_eq_some_iff.mp ht
    obtain ⟨v, hv, rfl⟩ := Option.map_eq_some_iff.mp hu
    have hcap := (allocForNumElements_capacity hv (hcount ▸ hf)).2
    rw [PODArray.assign, require_of_le (s := (setEnd (v.2.cEnd + C.byteSize (count ys)) v)) hcap]
      at ht
    obtain rfl := Option.some.inj ht
    have h := Resizes.allocated hv (hcount ▸ hf)
    rw [hcount] at h
    exact h.leave ⟨rfl, rfl, rfl, rfl⟩
  · split_ifs
    · exact ⟨rfl, rfl, rfl, rfl⟩
    · exact ⟨rfl, rfl, rfl, rfl⟩

end Constructors

/-! ### The invariant -/

section Sizes

variable {h : Heap}

theorem Heap.WF.ids_nodup (hw : h.WF C) : (h.blocks.map Block.id).Nodup :=
  (List.nodup_append.mp (hw.ids.nodup_iff.mpr List.nodup_range)).2.1

theorem Heap.WF.id_lt (hw : h.WF C) (hb : b ∈ h.blocks) : b.id < h.made :=
  List.mem_range.mp (hw.ids.mem_iff.mp (List.mem_append_right _ (List.mem_map_of_mem hb)))

theorem Heap.WF.sizeOf_eq (hw : h.WF C) (hb : b ∈ h.blocks) : h.sizeOf b.id = some b.size := by
  obtain ⟨c, hc⟩ :=
    Option.isSome_iff_exists.mp (List.find?_isSome (p := (decide <| ·.id = b.id)).mpr ⟨b, hb,
    decide_eq_true rfl⟩)
  have hid : c.id = b.id := by simpa using List.find?_some hc
  have hcb : c = b := List.inj_on_of_nodup_map hw.ids_nodup (List.mem_of_find?_eq_some hc) hb hid
  rw [Heap.sizeOf, hc, hcb]
  rfl

theorem Heap.WF.sizeOf_made (hw : h.WF C) {id : ℕ} (hid : h.made ≤ id) : h.sizeOf id = none := by
  have hnone : h.blocks.find? (·.id = id) = none := List.find?_eq_none.mpr fun c hc => by
    have := hw.id_lt hc
    simp only [decide_eq_true_eq]
    omega
  rw [Heap.sizeOf, hnone]
  rfl

end Sizes

namespace Ledger

variable {L L' : Ledger} {st : State}

@[simp] theorem charge_self (A : Account) (o : Option ℕ) : charge A o o = A := by
  cases o with
  | none => rfl
  | some n => exact if_pos rfl

@[simp] theorem charge_none (A : Account) (o : Option ℕ) : charge A none o = A := rfl

theorem charge_ne {A : Account} {n n' : ℕ} (h : n ≠ n') : charge A (some n) (some n') = A.add n :=
  if_neg h

/-- The entries of a block. -/
structure Entry (C : Template) (L : Ledger) (b : Block) : Prop where
  balanced : (L.account b.id).Balanced b.size
  /-- A block without room for an element has not been moved. -/
  unmoved : b.size < C.bytesFor 1 → L.account b.id = .none
  le : b.size ≤ C.atMost (L.peak b.id)

/-- **The invariant.** -/
structure Balanced (C : Template) (L : Ledger) : Prop where
  ordered : Ordered C L.state
  entries : ∀ b ∈ L.state.heap.blocks, Entry C L b
  fresh : ∀ id, L.state.heap.made ≤ id → L.account id = .none

/-- What an operation is to the ledger. -/
structure Posts (C : Template) (L : Ledger) (i k : ℕ) (L' : Ledger) : Prop where
  account : ∀ id, L'.account id = charge (L.account id) (L.state.heap.sizeOf id)
    (L'.state.heap.sizeOf id)
  peak : ∀ id, L.peak id ≤ L'.peak id
  wanted : ∀ id, L'.state.blockOf C i = some id → k ≤ L'.peak id

theorem step_state {op : Op C} (hs : L.step op = some L') :
    PODArray.step L.state op = some L'.state := by
  obtain ⟨st, hst, rfl⟩ := Option.map_eq_some_iff.mp hs
  exact hst

theorem posts {op : Op C} {i k : ℕ} (hs : L.step op = some L')
    (hw : ∀ w, op.wants L.state = some w → w = (i, k)) (hk : op.wants L.state = none → k = 0) :
    Posts C L i k L' := by
  obtain ⟨st, hst, rfl⟩ := Option.map_eq_some_iff.mp hs
  refine ⟨fun _ => rfl, fun id => ?_, fun id hid => ?_⟩
  · show L.peak id ≤ (op.wants L.state).elim _ _
    cases op.wants L.state with
    | none => exact le_rfl
    | some w =>
      show L.peak id ≤ ite _ _ _
      split_ifs
      · exact le_max_left _ _
      · exact le_rfl
  · show k ≤ (op.wants L.state).elim _ _
    cases hop : op.wants L.state with
    | none => exact (hk hop).le.trans (Nat.zero_le _)
    | some w =>
      obtain rfl := hw w hop
      show k ≤ ite _ _ _
      rw [if_pos hid]
      exact le_max_right _ _

/-- The block of array `i` has been posted. -/
theorem Posts.peak_ge {k i : ℕ} {a : Arr} (hp : Posts C L i k L') (hw : L'.state.heap.WF C)
    (hi : L'.state.arrays i = some a) (hb : b ∈ L'.state.heap.blocks) (ho : a.Owns C b) :
    k ≤ L'.peak b.id := by
  refine hp.wanted b.id ?_
  rw [State.blockOf, hi, Option.bind_some, hw.find_eq hb ho.2.1 ho.2.2]
  rfl

theorem posts_some {op : Op C} {i k : ℕ} (hs : L.step op = some L')
    (hw : op.wants L.state = some (i, k)) : Posts C L i k L' :=
  posts hs (fun w h => Option.some.inj (h.symm.trans hw)) fun h => by
    rw [hw] at h
    cases h

section Posting

variable {k i : ℕ} {a a' : Arr} (hL : Balanced C L) (hp : Posts C L i k L')
    (hO : Ordered C L'.state)
include hL hp

/-- A block that is as it was. -/
theorem Balanced.keep (hw : L'.state.heap.WF C) {b : Block} (hb : b ∈ L.state.heap.blocks)
    (hb' : b ∈ L'.state.heap.blocks) :
    Entry C L' b := by
  have haccount : L'.account b.id = L.account b.id := by
    rw [hp.account, hL.ordered.own.wf.sizeOf_eq hb, hw.sizeOf_eq hb', charge_self]
  obtain ⟨hbal, hun, hle⟩ := hL.entries b hb
  exact ⟨haccount ▸ hbal, fun h => haccount ▸ hun h, hle.trans (Template.atMost_mono (hp.peak _))⟩

theorem Balanced.unmade {id : ℕ} (hid : L.state.heap.made ≤ id) : L'.account id = .none := by
  rw [hp.account, hL.ordered.own.wf.sizeOf_made hid, charge_none]
  exact hL.fresh id hid

include hO

/-- Blocks may have been freed. -/
theorem Balanced.fewer (hsub : ∀ b ∈ L'.state.heap.blocks, b ∈ L.state.heap.blocks)
    (hmade : L'.state.heap.made = L.state.heap.made) : Balanced C L' :=
  ⟨hO, fun b hb => hL.keep hp hO.own.wf (hsub b hb) hb, fun _ hid => hL.unmade hp (hmade ▸ hid)⟩

/-- **What is done to the blocks keeps the ledger balanced.** -/
theorem Balanced.resized (hi : L'.state.arrays i = some a')
    (hres : Resizes C k (L.state.heap, a) (L'.state.heap, a')) : Balanced C L' := by
  have hw' := hO.own.wf
  cases hres with
  | same blocks made => exact hL.fewer hp hO (fun b hb => blocks ▸ hb) made
  | fresh b id blocks made owns le =>
    have hb : b ∈ L'.state.heap.blocks := blocks ▸ List.mem_cons_self
    have hnone : L'.account b.id = .none := hL.unmade hp id.ge
    refine ⟨hO, fun c hc => ?_, fun n hn => hL.unmade hp ?_⟩
    · rcases List.mem_cons.mp (blocks ▸ hc : c ∈ b :: L.state.heap.blocks) with rfl | hold
      · refine ⟨?_, fun _ => hnone, le.trans (Template.atMost_mono (hp.peak_ge hw' hi hb owns))⟩
        rw [hnone]
        exact .none (hw'.placed c hb).2.1
      · exact hL.keep hp hw' hold hc
    · change L'.state.heap.made = L.state.heap.made + 1 at made
      omega
  | moved b b' mem id blocks made owns le larger one =>
    have hb' : b' ∈ L'.state.heap.blocks := blocks ▸ List.mem_cons_self
    have hpos : 0 < b.size := (hL.ordered.own.wf.placed b mem).2.1
    have hlt : b.size < b'.size := by
      rcases larger with hE | h
      · exact hE.lt hpos
      · exact h.2
    have haccount : L'.account b'.id = (L.account b'.id).add b.size := by
      rw [hp.account, hw'.sizeOf_eq hb', id, hL.ordered.own.wf.sizeOf_eq mem, charge_ne hlt.ne]
    refine ⟨hO, fun c hc => ?_, fun n hn => hL.unmade hp (made ▸ hn)⟩
    rcases List.mem_cons.mp (blocks ▸ hc : c ∈ b' :: L.state.heap.blocks.erase b) with rfl | hold
    · refine ⟨?_, fun h => absurd one (not_le.mpr h),
        le.trans (Template.atMost_mono (hp.peak_ge hw' hi hb' owns))⟩
      obtain ⟨hbal, hun, -⟩ := hL.entries b mem
      rw [haccount, id]
      rcases larger with hE | h
      · exact hbal.enlarge hE
      · rw [hun h.1]
        exact .first hpos h.2
    · exact hL.keep hp hw' (List.mem_of_mem_erase hold) hc

end Posting

theorem Balanced.owned {i : ℕ} {a : Arr} (hL : Balanced C L) (hi : L.state.arrays i = some a) :
    Own C L.state.heap (Function.update L.state.arrays i (some a)) := by
  rw [update_self_eq hi]
  exact hL.ordered.own

/-- An array that is another now. -/
theorem Balanced.set {i k : ℕ} {a : Arr} {r : Heap × Arr} (hL : Balanced C L)
    (hp : Posts C L i k L') (hO : Ordered C L'.state) (hset : L.state.set i r = L'.state)
    (hres : Resizes C k (L.state.heap, a) r) : Balanced C L' := by
  have hi : L'.state.arrays i = some r.2 := by
    rw [← hset]
    exact update_same
  have hr : (L'.state.heap, r.2) = r := by rw [← hset]; rfl
  exact hL.resized hp hO hi (hr ▸ hres)

/-- An array that is constructed. -/
theorem Balanced.constructed {op : Op C} {f : Heap → Option (Heap × Arr)} {i k : ℕ} (socketId : ℤ)
    (hL : Balanced C L) (hs : L.step op = some L') (hO : Ordered C L'.state)
    (hw : op.wants L.state = some (i, k)) (hst : L.state.construct i f = some L'.state)
    (hf : ∀ r, f L.state.heap = some r → Resizes C k (L.state.heap, Arr.new C socketId) r) :
    Balanced C L' := by
  have hp := posts_some hs hw
  unfold State.construct at hst
  split at hst
  · obtain ⟨r, hr, hset⟩ := Option.map_eq_some_iff.mp hst
    exact hL.set hp hO hset (hf r hr)
  · cases hst

/-- An operation that leaves the heap alone. -/
theorem Balanced.still {op : Op C} (hL : Balanced C L) (hs : L.step op = some L')
    (hO : Ordered C L'.state) (hw : op.wants L.state = none)
    (hheap : L'.state.heap = L.state.heap) : Balanced C L' := by
  have hp : Posts C L 0 0 L' := posts hs (fun w h => by rw [hw] at h; cases h) fun _ => rfl
  exact hL.fewer hp hO (fun b hb => hheap ▸ hb) (congrArg Heap.made hheap)

theorem swapAt_heap {st st' : State} {i j : ℕ} (hs : swapAt C st i j = some st') :
    st'.heap = st.heap := by
  obtain ⟨a, -, hs⟩ := Option.bind_eq_some_iff.mp hs
  obtain ⟨b, -, rfl⟩ := Option.map_eq_some_iff.mp hs
  rfl

theorem construct_heap {st st' : State} {i : ℕ} {a : Arr}
    (hs : st.construct i (fun h => some (h, a)) = some st') :
    st'.heap = st.heap := by
  unfold State.construct at hs
  split at hs
  · obtain rfl := Option.some.inj hs
    rfl
  · cases hs

theorem Balanced.step {op : Op C} (hL : Balanced C L) (hf : op.Fits L.state)
    (ho : op.Orderly L.state) (hs : L.step op = some L') : Balanced C L' := by
  have hst := step_state hs
  have hO := hL.ordered.step hf ho hst
  cases op with
  | create i socketId => exact hL.still hs hO rfl (construct_heap hst)
  | createSized i n socketId =>
    change L.state.construct i (fun h => sized C n (h, Arr.new C socketId)) = some L'.state at hst
    exact hL.constructed socketId hs hO rfl hst fun r hr => Resizes.sized hr hf
  | createRange i ys =>
    change L.state.construct i (fun h => ranged ys (h, Arr.new C (-1))) = some L'.state at hst
    exact hL.constructed (-1) hs hO rfl hst fun r hr => Resizes.ranged hr hf
  | call i m =>
    obtain ⟨a, hi, hst⟩ := Option.bind_eq_some_iff.mp hst
    obtain ⟨r, hr, hset⟩ := Option.map_eq_some_iff.mp hst
    have hw : Op.wants L.state (.call i m) = some (i, m.wants a) := by rw [Op.wants, hi]; rfl
    refine hL.set (a := a) (posts_some hs hw) hO hset ?_
    exact Resizes.run (s := (L.state.heap, a)) (hL.owned hi) (hL.ordered.bounds _ _ hi) hr (hf a hi)
  | assignFrom i j =>
    obtain ⟨a, hi, hst⟩ := Option.bind_eq_some_iff.mp hst
    obtain ⟨b, hj, hst⟩ := Option.bind_eq_some_iff.mp hst
    obtain ⟨r, hr, hset⟩ := Option.map_eq_some_iff.mp hst
    have hw : Op.wants L.state (.assignFrom i j : Op C) = some (i, (b.size C).toNat) := by
      rw [Op.wants, hj]; rfl
    have hlen : (b.contents C L.state.heap.mem).length = (b.size C).toNat := Arr.length_contents ..
    refine hL.set (a := a) (posts_some hs hw) hO hset ?_
    rw [← hlen]
    exact Resizes.assign (s := (L.state.heap, a)) (hL.owned hi) (hL.ordered.bounds _ _ hi) hr
      (hlen ▸ hf a b hi hj)
  | swap i j => exact hL.still hs hO rfl (swapAt_heap hst)
  | moveConstruct i j =>
    obtain ⟨b, -, hst⟩ := Option.bind_eq_some_iff.mp hst
    obtain ⟨t, ht, hst⟩ := Option.bind_eq_some_iff.mp hst
    exact hL.still hs hO rfl ((swapAt_heap hst).trans (construct_heap ht))
  | moveAssign i j => exact hL.still hs hO rfl (swapAt_heap hst)
  | clone i j =>
    obtain ⟨b, hj, hst⟩ := Option.bind_eq_some_iff.mp hst
    have hw : Op.wants L.state (.clone i j : Op C) = some (i, (b.size C).toNat) := by
      rw [Op.wants, hj]; rfl
    have hlen : (b.contents C L.state.heap.mem).length = (b.size C).toNat := Arr.length_contents ..
    refine hL.constructed (-1) hs hO hw hst fun r hr => ?_
    rw [← hlen]
    exact Resizes.cloneInto hr (hlen ▸ hf b hj)
  | destroy i =>
    obtain ⟨a, hi, hst⟩ := Option.map_eq_some_iff.mp hst
    have hp : Posts C L 0 0 L' := posts hs (fun w h => by cases h) fun _ => rfl
    have hheap : L'.state.heap = dealloc C (L.state.heap, a) := congrArg State.heap hst.symm
    refine hL.fewer hp hO (fun b hb => ?_) ?_
    · rw [hheap] at hb
      unfold dealloc Heap.numaFree at hb
      split_ifs at hb
      · exact hb
      · split at hb
        · exact hb
        · exact List.mem_of_mem_erase hb
    · rw [hheap]
      unfold dealloc Heap.numaFree
      split_ifs
      · rfl
      · split
        · rfl
        · rfl

theorem Balanced.init (h : (ledgers C).init L) : Balanced C L := by
  obtain ⟨hinit, hempty⟩ := h
  refine ⟨(Good.init hinit).toOrdered, fun b hb => ?_, fun id _ => (hempty id).1⟩
  rw [hinit.1] at hb
  cases hb

end Ledger

/-- **What growing costs.** Whatever a program does with its arrays, `numa_realloc` has copied for a
block no more than twice its bytes, in a number of calls that is logarithmic in them; and a block is
the first of an array that is pushed to, or no more than four times what was wanted in it. -/
theorem growth {L : Ledger}
    (h : (ledgers C).Reach (fun L op => op.Fits L.state ∧ op.Orderly L.state) L)
    (hb : b ∈ L.state.heap.blocks) :
    (L.account b.id).copied ≤ b.size * 2 ∧ 2 ^ (L.account b.id).moves ≤ b.size * 2 ∧
      b.size ≤ max (firstBytes C).toNat (4 * C.bytesFor (L.peak b.id)) := by
  have hL : Ledger.Balanced C L :=
    h.invariant (fun _ h0 => .init h0) fun _ _ _ _ hL hok hs => hL.step hok.1 hok.2 hs
  obtain ⟨hbal, -, hle⟩ := hL.entries b hb
  exact ⟨hbal.le.1, hbal.le.2, hle⟩

/-- Room for one element, and then for a hundred: 64 bytes are copied into 512. -/
theorem growth_hundred : ∃ (L : Ledger) (b : Block), b ∈ L.state.heap.blocks ∧ b.size = 512 ∧
    L.account b.id = ⟨64, 1⟩ ∧
    L.peak b.id = 100 ∧ (L.account b.id).copied ≤ b.size * 2 ∧ 2 ^
      (L.account b.id).moves ≤ b.size * 2 ∧
      b.size ≤ max (firstBytes vector).toNat (4 * vector.bytesFor (L.peak b.id)) := by
  have h0 : (ledgers vector).Reach (fun L op => op.Fits L.state ∧ op.Orderly L.state)
      ⟨start fun _ => 65536, fun _ => .none, fun _ => 0⟩ :=
        .init ⟨start_initial (by decide) _, fun _ => ⟨rfl, rfl⟩⟩
  have h1 := h0.step (a := Op.create 0 (-1)) ⟨trivial, trivial⟩ rfl
  have h2 :=
    h1.step (a := Op.call 0 (.reserve 1)) ⟨fun _ _ => (by decide : vector.Fits 1), fun _ _ =>
    ⟨(fun h => by cases h), trivial⟩⟩ rfl
  have h3 :=
    h2.step (a := Op.call 0 (.reserve 100)) ⟨fun _ _ => (by decide : vector.Fits 100), fun _ _ =>
    ⟨(fun h => by cases h), trivial⟩⟩ rfl
  have hb : (⟨0, 65536, 512, none⟩ : Block) ∈ [(⟨0, 65536, 512, none⟩ : Block)] :=
    List.mem_cons_self
  exact ⟨_, _, hb, rfl, rfl, rfl, growth h3 hb⟩

end NetworkDemo.PODArray
