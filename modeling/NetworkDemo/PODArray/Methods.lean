import NetworkDemo.PODArray.Ownership

/-!
# What the methods do

A method first makes room, by `realloc` or not at all, and then writes elements and sets
`c_end`, or sets `c_end` only. Either part does what it does to the list of elements
(`Does`), keeps the pointers in order (`Bounds`) and touches no memory of another array; a
method is one after the other. What a method is on lists is `Method.OnLists`.

Whether `push_back` makes room depends on `c_end` being `c_end_of_storage`. That there is
room if it is not is a condition of `run_does` (`RoomOrFull`), and holds when the storage is
whole elements, as it always is if the size of an element is a power of two.
-/

namespace NetworkDemo.PODArray

open Foundations

variable {C : Template}

/-- The pointers are in order, and the sizes that are computed from them do not wrap around. -/
structure Bounds (C : Template) (a : Arr) : Prop where
  start_le : a.cStart.toNat ≤ a.cEnd.toNat
  end_le : a.cEnd.toNat ≤ a.cEndOfStorage.toNat
  dvd : C.elementSize.toNat ∣ a.cEnd.toNat - a.cStart.toNat
  fits : a.cStart ≠ C.null → a.cEndOfStorage.toNat - a.cStart.toNat + C.padRight.toNat +
    C.padLeft.toNat < 2 ^ 64

/-- The storage is whole elements. -/
def Whole (C : Template) (a : Arr) : Prop :=
  C.elementSize.toNat ∣ a.cEndOfStorage.toNat - a.cStart.toNat

/-- The storage is full, or there is room for an element. -/
def RoomOrFull (C : Template) (a : Arr) : Prop :=
  a.cEnd = a.cEndOfStorage ∨ a.cEnd.toNat + C.elementSize.toNat ≤ a.cEndOfStorage.toNat

/-- There is room for `n` elements, or they are with the paddings at most `2⁶³` bytes. -/
def RoomFor (C : Template) (a : Arr) (n : ℕ) : Prop :=
  n ≤ (a.capacity C).toNat ∨ C.bytesFor n ≤ 2 ^ 63

/-- There is room for `k` elements, or the power of two that is requested instead is not too many
bytes. -/
def Grows (C : Template) (a : Arr) (k : ℕ) : Prop :=
  k ≤ (a.capacity C).toNat ∨ C.bytesFor (2 ^ (k - 1).size) ≤ 2 ^ 63

/-- A byte of another array's block, or of `EmptyPODArray`. -/
def Foreign (C : Template) (arrays : ℕ → Option Arr) (i q : ℕ) : Prop :=
  (∃ j c b, j ≠ i ∧ arrays j = some c ∧ c.Owns C b ∧ b.base ≤ q ∧ q < b.base + b.size) ∨
    (C.emptyPODArray.toNat ≤ q ∧ q < C.emptyPODArray.toNat + 1024)

variable {h h' : Heap} {arrays : ℕ → Option Arr} {a a' : Arr} {b b' : Block} {i : ℕ}
    {s r t : Heap × Arr}

/-! ### Pointers -/

theorem toNat_sub_le {x y : Size} (hle : y.toNat ≤ x.toNat) : (x - y).toNat = x.toNat - y.toNat :=
  BitVec.toNat_sub_of_le (BitVec.le_def.mpr hle)

namespace Bounds

theorem toNat_size (hb : Bounds C a) :
    (a.size C).toNat = (a.cEnd.toNat - a.cStart.toNat) / C.elementSize.toNat := by
  rw [Arr.size, BitVec.toNat_udiv, toNat_sub_le hb.start_le]

/-- Where `c_end` is says how many elements there are. -/
theorem size_eq (hb : Bounds C a) {n : ℕ}
    (hn : a.cEnd.toNat = a.cStart.toNat + n * C.elementSize.toNat) :
    (a.size C).toNat = n := by
  rw [hb.toNat_size, hn, Nat.add_sub_cancel_left, Nat.mul_div_cancel _ C.elementSize_pos]

theorem size_mul (hb : Bounds C a) :
    (a.size C).toNat * C.elementSize.toNat = a.cEnd.toNat - a.cStart.toNat := by
  rw [hb.toNat_size, Nat.div_mul_cancel hb.dvd]

/-- `c_end` is behind the elements. -/
theorem toNat_end (hb : Bounds C a) :
    a.cEnd.toNat = a.cStart.toNat + (a.size C).toNat * C.elementSize.toNat := by
  rw [hb.size_mul, Nat.add_sub_cancel' hb.start_le]

theorem toNat_capacity (hb : Bounds C a) :
    (a.capacity C).toNat = (a.cEndOfStorage.toNat - a.cStart.toNat) / C.elementSize.toNat := by
  rw [Arr.capacity, BitVec.toNat_udiv, toNat_sub_le (hb.start_le.trans hb.end_le)]

theorem le_capacity (hb : Bounds C a) {n : ℕ} :
    n ≤ (a.capacity C).toNat ↔ a.cStart.toNat + n * C.elementSize.toNat ≤
      a.cEndOfStorage.toNat := by
  have hle := hb.start_le.trans hb.end_le
  rw [hb.toNat_capacity, Nat.le_div_iff_mul_le C.elementSize_pos]
  omega

theorem size_le_capacity (hb : Bounds C a) : (a.size C).toNat ≤ (a.capacity C).toNat := by
  rw [hb.le_capacity, ← hb.toNat_end]
  exact hb.end_le

/-- The address of an element of the storage, or behind it. -/
theorem toNat_at (hb : Bounds C a) {n : Size} (hn : n.toNat ≤ (a.capacity C).toNat) :
    (a.cStart + C.byteSize n).toNat = a.cStart.toNat + n.toNat * C.elementSize.toNat := by
  have hlt := a.cEndOfStorage.isLt
  have hle := hb.le_capacity.mp hn
  rw [BitVec.toNat_add, Template.toNat_byteSize (by omega), Nat.mod_eq_of_lt (by omega)]

/-- The address `n` elements behind `c_end`. -/
theorem toNat_behind (hb : Bounds C a) {n : Size}
    (hn : (a.size C).toNat + n.toNat ≤ (a.capacity C).toNat) :
    (a.cEnd + C.byteSize n).toNat = a.cStart.toNat +
    ((a.size C).toNat + n.toNat) * C.elementSize.toNat := by
  have hlt := a.cEndOfStorage.isLt
  have hle := hb.le_capacity.mp hn
  have hend := hb.toNat_end
  rw [Nat.add_mul] at hle ⊢
  rw [BitVec.toNat_add, Template.toNat_byteSize (by omega), Nat.mod_eq_of_lt (by omega), hend,
    Nat.add_assoc]

theorem allocated (hb : Bounds C a) (hnull : a.cStart ≠ C.null) :
    (a.allocatedBytes C).toNat = a.cEndOfStorage.toNat - a.cStart.toNat + C.padRight.toNat +
      C.padLeft.toNat := by
  have hfits := hb.fits hnull
  rw [Arr.allocatedBytes, BitVec.toNat_add, BitVec.toNat_add,
    toNat_sub_le (hb.start_le.trans hb.end_le), Nat.mod_eq_of_lt (by omega),
      Nat.mod_eq_of_lt (by omega)]

/-- Three equal pointers. -/
theorem empty {p : Size} (hnull : p = C.null) {socketId : ℤ} : Bounds C ⟨p, p, p, socketId⟩ where
  start_le := le_rfl
  end_le := le_rfl
  dvd := by
    rw [Nat.sub_self]
    exact Nat.dvd_zero _
  fits := fun hne => absurd hnull hne

/-- With another `c_end`. -/
theorem setEnd (hb : Bounds C a) {n : ℕ} {q : Size}
    (hq : q.toNat = a.cStart.toNat + n * C.elementSize.toNat) (hn : n ≤ (a.capacity C).toNat) :
    Bounds C { a with cEnd := q } where
  start_le := by
    rw [hq]
    exact Nat.le_add_right _ _
  end_le := by
    rw [hq]
    exact hb.le_capacity.mp hn
  dvd := by
    rw [hq, Nat.add_sub_cancel_left]
    exact Nat.dvd_mul_left _ _
  fits := hb.fits

end Bounds

/-- An array that points to `null` is empty. -/
theorem Bounds.end_null (hb : Bounds C a) (hnull : a.cStart = C.null)
    (hbare : a.cEndOfStorage = C.null) :
    a.cEnd = a.cStart := by
  have h1 := hb.start_le
  have h2 := hb.end_le
  rw [hbare] at h2
  rw [hnull] at h1 ⊢
  exact BitVec.eq_of_toNat_eq (Nat.le_antisymm h2 h1)

theorem Bounds.size_null (hb : Bounds C a) (hnull : a.cStart = C.null)
    (hbare : a.cEndOfStorage = C.null) :
    (a.size C).toNat = 0 := by
  rw [hb.toNat_size, hb.end_null hnull hbare, Nat.sub_self, Nat.zero_div]

/-- An array that has room for some elements does not point to `null`. -/
theorem Bounds.ne_null (hb : Bounds C a) (hbare : a.cStart = C.null → a.cEndOfStorage = C.null)
    {n : ℕ} (h0 : 0 < n) (hn : n ≤ (a.capacity C).toNat) : a.cStart ≠ C.null := by
  intro hnull
  rw [hb.toNat_capacity, hbare hnull, hnull, Nat.sub_self, Nat.zero_div] at hn
  omega

/-- The bytes of an array's block are enough for its capacity. -/
theorem Bounds.bytesFor_le (hb : Bounds C a) (hnull : a.cStart ≠ C.null) {n : ℕ}
    (hn : n ≤ (a.capacity C).toNat) :
    C.bytesFor n ≤ (a.allocatedBytes C).toNat := by
  have hroom := hb.le_capacity.mp hn
  rw [hb.allocated hnull]
  unfold Template.bytesFor
  omega

/-- The block of an array, and where the storage is in it. -/
structure Inside (C : Template) (a : Arr) (b : Block) : Prop where
  owns : a.Owns C b
  start : a.cStart.toNat = b.base + C.padLeft.toNat
  stop : a.cEndOfStorage.toNat + C.padRight.toNat = b.base + b.size

theorem Arr.Owns.inside (hab : a.Owns C b) (hp : b.Placed C) (hb : Bounds C a) : Inside C a b := by
  obtain ⟨hnull, hbase, hsize⟩ := hab
  have halloc := (hb.allocated hnull).symm.trans hsize
  have hstart : a.cStart = a.cStart - C.padLeft + C.padLeft :=
    (sub_add_cancel a.cStart C.padLeft).symm
  have hle := hb.start_le.trans hb.end_le
  obtain ⟨-, -, hlt, -⟩ := hp
  have hcs : a.cStart.toNat = b.base + C.padLeft.toNat := by
    rw [hstart, BitVec.toNat_add, hbase, Nat.mod_eq_of_lt (by omega)]
  exact ⟨⟨hnull, hbase, hsize⟩, hcs, by omega⟩

theorem Own.inside (ho : Own C h arrays) (hi : arrays i = some a) (hb : Bounds C a)
    (hnull : a.cStart ≠ C.null) :
    ∃ b ∈ h.blocks, Inside C a b := by
  obtain ⟨b, hbm, hab⟩ := ho.has i a hi hnull
  exact ⟨b, hbm, hab.inside (ho.wf.placed b hbm) hb⟩

/-- The bytes of an array's own block are not foreign. -/
theorem Own.not_foreign {q : ℕ} (ho : Own C h (Function.update arrays i (some a)))
    (hb : b ∈ h.blocks) (hab : a.Owns C b) (hq : b.base ≤ q) (hq' : q < b.base + b.size) :
    ¬ Foreign C arrays i q := by
  rintro (⟨j, c, d, hji, hj, hcd, hd, hd'⟩ | ⟨he, he'⟩)
  · obtain ⟨d', hd'm, hcd'⟩ := ho.has j c ((update_ne hji).trans hj) hcd.1
    have hbase : d'.base = d.base := hcd'.base_eq hcd
    have hsize : d'.size = d.size := hcd'.2.2.symm.trans hcd.2.2
    by_cases hbd : b = d'
    · subst hbd
      exact hji (ho.only j i c a b ((update_ne hji).trans hj) update_same hcd' hab)
    · have hapart := ho.wf.apart_of_ne hb hd'm hbd
      unfold Block.Apart at hapart
      omega
  · obtain ⟨-, -, -, hempty⟩ := ho.wf.placed b hb
    omega

/-- The pointers into a block of `bytes` at `x`, with `d` bytes of elements. -/
theorem toNat_pointers {x bytes d : Size} (hx : x.toNat + bytes.toNat < 2 ^ 64)
    (hle : d.toNat + C.padRight.toNat + C.padLeft.toNat ≤ bytes.toNat) :
    (x + C.padLeft).toNat = x.toNat + C.padLeft.toNat ∧
    (x + C.padLeft + d).toNat = x.toNat + C.padLeft.toNat + d.toNat ∧
      (x + C.padLeft + bytes - C.padRight - C.padLeft).toNat =
        x.toNat + bytes.toNat - C.padRight.toNat := by
  have hsum : (x + bytes).toNat = x.toNat + bytes.toNat := by
    rw [BitVec.toNat_add, Nat.mod_eq_of_lt hx]
  have hstart : (x + C.padLeft).toNat = x.toNat + C.padLeft.toNat := by
    rw [BitVec.toNat_add, Nat.mod_eq_of_lt (by omega)]
  have hstop : x + C.padLeft + bytes - C.padRight - C.padLeft = x + bytes - C.padRight := by ring
  refine ⟨hstart, ?_, ?_⟩
  · rw [BitVec.toNat_add, hstart, Nat.mod_eq_of_lt (by omega)]
  · rw [hstop, toNat_sub_le (by omega), hsum]

theorem Bounds.ofBlock {x bytes d : Size} {socketId : ℤ} (hx : x.toNat + bytes.toNat < 2 ^ 64)
    (hle : d.toNat + C.padRight.toNat + C.padLeft.toNat ≤ bytes.toNat)
    (hd : C.elementSize.toNat ∣ d.toNat) :
    Bounds C ⟨x + C.padLeft, x + C.padLeft + d, x + C.padLeft + bytes - C.padRight - C.padLeft,
      socketId⟩ := by
  obtain ⟨hstart, hend, hstop⟩ := toNat_pointers hx hle
  constructor
  · rw [hstart, hend]
    exact Nat.le_add_right _ _
  · rw [hend, hstop]
    omega
  · rw [hstart, hend, Nat.add_sub_cancel_left]
    exact hd
  · intro _
    have hlt := bytes.isLt
    rw [hstart, hstop]
    omega

/-- The storage is what is left of the block. -/
theorem whole_ofBlock {x bytes d : Size} {socketId : ℤ} {e : ℕ} (he : C.elementSize.toNat = 2 ^ e)
    (hx : x.toNat + bytes.toNat < 2 ^ 64)
    (hle : d.toNat + C.padRight.toNat + C.padLeft.toNat ≤ bytes.toNat)
    (hbytes : C.elementSize.toNat ∣ bytes.toNat) :
    Whole C ⟨x + C.padLeft, x + C.padLeft + d, x + C.padLeft + bytes - C.padRight - C.padLeft,
      socketId⟩ := by
  obtain ⟨hstart, -, hstop⟩ := toNat_pointers hx hle
  have hstorage : x.toNat + bytes.toNat - C.padRight.toNat - (x.toNat + C.padLeft.toNat) =
      bytes.toNat - C.padRight.toNat - C.padLeft.toNat := by omega
  unfold Whole
  rw [hstart, hstop, hstorage]
  exact Nat.dvd_sub (Nat.dvd_sub hbytes Template.dvd_padRight) (Template.dvd_padLeft he)

/-- The number of elements in a block with its paddings. -/
theorem capacity_ofBlock {x bytes d : Size} {socketId : ℤ} {n : ℕ}
    (hx : x.toNat + bytes.toNat < 2 ^ 64)
    (hle : d.toNat + C.padRight.toNat + C.padLeft.toNat ≤ bytes.toNat)
    (hd : C.elementSize.toNat ∣ d.toNat) (hn : C.bytesFor n ≤ bytes.toNat) :
    n ≤ ((⟨x + C.padLeft, x + C.padLeft + d, x + C.padLeft + bytes - C.padRight - C.padLeft,
      socketId⟩ : Arr).capacity C).toNat := by
  obtain ⟨hstart, -, hstop⟩ := toNat_pointers hx hle
  unfold Template.bytesFor at hn
  rw [(Bounds.ofBlock hx hle hd).le_capacity, hstart, hstop]
  omega

/-! ### What is done -/

/-- From `s` to `r` the list of elements goes as `R` says. -/
structure Does (C : Template) (arrays : ℕ → Option Arr) (i : ℕ) (s r : Heap × Arr)
    (R : List (Elem C) → List (Elem C) → Prop) : Prop where
  own : Own C r.1 (Function.update arrays i (some r.2))
  bounds : Bounds C r.2
  whole : (∃ e, C.elementSize.toNat = 2 ^ e) → Whole C s.2 → Whole C r.2
  lists : R (s.2.contents C s.1.mem) (r.2.contents C r.1.mem)
  before : C.padLeft ≠ 0 → s.2.before C s.1.mem = (fun _ => 0) → r.2.before C r.1.mem = fun _ => 0
  frame : ∀ q, Foreign C arrays i q → r.1.mem q = s.1.mem q
  stray : r.1.stray = s.1.stray
  meaningless : r.1.meaningless = s.1.meaningless

variable {R R' : List (Elem C) → List (Elem C) → Prop}

theorem Does.mono (hd : Does C arrays i s r R)
    (hR : ∀ xs', R (s.2.contents C s.1.mem) xs' → R' (s.2.contents C s.1.mem) xs') :
    Does C arrays i s r R' :=
  ⟨hd.own, hd.bounds, hd.whole, hR _ hd.lists, hd.before, hd.frame, hd.stray, hd.meaningless⟩

/-- First room is made, then more is done. -/
theorem Does.trans (h₁ : Does C arrays i s t Eq) (h₂ : Does C arrays i t r R) :
    Does C arrays i s r R where
  own := h₂.own
  bounds := h₂.bounds
  whole he hw := h₂.whole he (h₁.whole he hw)
  lists := h₁.lists ▸ h₂.lists
  before hp hz := h₂.before hp (h₁.before hp hz)
  frame q hq := (h₂.frame q hq).trans (h₁.frame q hq)
  stray := h₂.stray.trans h₁.stray
  meaningless := h₂.meaningless.trans h₁.meaningless

theorem Does.refl (ho : Own C s.1 (Function.update arrays i (some s.2))) (hb : Bounds C s.2) :
    Does C arrays i s s Eq :=
  ⟨ho, hb, fun _ hw => hw, rfl, fun _ hz => hz, fun _ _ => rfl, rfl, rfl⟩

theorem Does.size_eq (hd : Does C arrays i s r Eq) : (s.2.size C).toNat = (r.2.size C).toNat := by
  have hlen := congrArg List.length hd.lists
  rwa [Arr.length_contents, Arr.length_contents] at hlen

/-! ### Making room -/

theorem Own.foreign {q : ℕ} (ho : Own C h (Function.update arrays i (some a))) (hb : Bounds C a)
    (hnull : a.cStart ≠ C.null) (hq : Foreign C arrays i q) :
    q + C.padLeft.toNat < a.cStart.toNat ∨ a.cEndOfStorage.toNat + C.padRight.toNat ≤ q := by
  obtain ⟨b, hbm, hin⟩ := ho.inside update_same hb hnull
  by_contra hnot
  have hstart := hin.start
  have hstop := hin.stop
  exact ho.not_foreign hbm hin.owns (by omega) (by omega) hq

theorem before_cell (hE : C.elementSize.toNat ≤ a.cStart.toNat) (mem : ℕ → Byte)
    (j : Fin C.elementSize.toNat) :
    a.before C mem j = mem (a.cStart.toNat - C.elementSize.toNat + j) := by
  unfold Arr.before record
  rw [toNat_sub_le hE, Nat.zero_mul, Nat.add_zero]

theorem contents_nil {mem : ℕ → Byte} (hsize : (a.size C).toNat = 0) : a.contents C mem = [] := by
  rw [Arr.contents, hsize, records_zero]

theorem size_self {p q : Size} {socketId : ℤ} : (Arr.size C ⟨p, p, q, socketId⟩).toNat = 0 := by
  rw [Arr.size, sub_self]
  exact congrArg BitVec.toNat BitVec.zero_udiv

theorem Does.alloc {bytes : Size} {n : ℕ} (ho : Own C s.1 (Function.update arrays i (some s.2)))
    (hb : Bounds C s.2) (hs : alloc C bytes s = some r) (hnull : s.2.cStart = C.null)
    (hn : C.bytesFor n ≤ bytes.toNat)
    (hbytes : (∃ e, C.elementSize.toNat = 2 ^ e) → Whole C s.2 →
      C.elementSize.toNat ∣ bytes.toNat) :
    Does C arrays i s r Eq ∧ n ≤ (r.2.capacity C).toNat := by
  have hpads : C.padRight.toNat + C.padLeft.toNat ≤ bytes.toNat := by
    unfold Template.bytesFor at hn
    omega
  have hzero : bytes = 0 → C.padLeft = 0 ∧ C.padRight = 0 := by
    rintro rfl
    exact pads_eq_zero hn
  have hown := Keeps.alloc hs hnull hzero arrays i ho
  have hold : s.2.contents C s.1.mem = [] :=
    contents_nil (hb.size_null hnull (ho.bare i s.2 update_same hnull))
  by_cases h0 : bytes = 0
  · obtain ⟨hp, hr⟩ := hzero h0
    subst h0
    obtain rfl := Option.some.inj ((alloc_zero hp hr).symm.trans hs)
    have hn0 : n = 0 := by
      by_contra hne
      exact absurd hn (not_le.mpr (bytesFor_pos (Nat.pos_of_ne_zero hne)))
    refine ⟨⟨hown, Bounds.empty (null_eq_zero hp).symm, ?_, ?_, ?_, ?_, rfl, rfl⟩, ?_⟩
    · exact fun _ _ => Nat.dvd_zero _
    · rw [hold, contents_nil size_self]
    · exact fun hne => absurd hp hne
    · exact fun _ _ => rfl
    · rw [hn0]
      exact Nat.zero_le _
  · obtain ⟨x, b, ha⟩ := alloc_spec hs h0
    have hlt := ha.room.1.lt ha.base ha.size
    have harr : r.2 = ⟨x + C.padLeft, x + C.padLeft + 0,
        x + C.padLeft + bytes - C.padRight - C.padLeft, s.2.socketId⟩ := by
      rw [ha.arr, add_zero]
    have hd : (0 : Size).toNat + C.padRight.toNat + C.padLeft.toNat ≤ bytes.toNat := by
      rw [toNat_zero]
      omega
    have hd0 : C.elementSize.toNat ∣ (0 : Size).toNat := Nat.dvd_zero _
    have hbounds : Bounds C r.2 := by
      rw [harr]
      exact Bounds.ofBlock hlt hd hd0
    have howns : r.2.Owns C b := by
      rw [harr]
      exact owns_ofBlock ha.room.1 ha.base ha.size
    have hin := howns.inside ha.room.1 hbounds
    have hstart := hin.start
    have hstop := hin.stop
    have hle := hbounds.start_le.trans hbounds.end_le
    have hcell : r.2.cStart = x + C.padLeft := by rw [harr]
    refine ⟨⟨hown, hbounds, ?_, ?_, ?_, ?_, ?_, ?_⟩, ?_⟩
    · rintro ⟨e, he⟩ hw
      rw [harr]
      exact whole_ofBlock he hlt hd (hbytes ⟨e, he⟩ hw)
    · rw [hold, harr, add_zero, contents_nil size_self]
    · intro hp _
      funext j
      have hj := j.isLt
      unfold Arr.before record
      rw [ha.mem, hcell]
      exact if_pos ⟨hp, by omega, by omega⟩
    · intro q hq
      have hfar := hown.foreign hbounds howns.1 hq
      have hfar' : ¬ (b.base ≤ q ∧ q < b.base + b.size) := by omega
      have hpad : ¬ (C.padLeft ≠ 0 ∧ (x + C.padLeft - C.elementSize).toNat ≤ q ∧
          q < (x + C.padLeft - C.elementSize).toNat + C.elementSize.toNat) := by
        rintro ⟨hp, hq1, hq2⟩
        have hE := Template.elementSize_le_padLeft hp
        rw [← hcell, toNat_sub_le (by omega)] at hq1 hq2
        omega
      rw [ha.mem]
      simp only [if_neg hpad, if_neg hfar']
    · rw [ha.heap]
    · rw [ha.heap]
    · rw [harr]
      exact capacity_ofBlock hlt hd hd0 hn

/-- What was in the old block is in the new one. -/
theorem Reallocated.cell {bytes x : Size} (ha : Reallocated C bytes s r x b b') {k : ℕ}
    (hk : k < b.size) (hk' : k < b'.size) : r.1.mem (b'.base + k) = s.1.mem (b.base + k) := by
  have hin : b'.base ≤ b'.base + k ∧ b'.base + k < b'.base + b'.size := by omega
  have hsub : b'.base + k - b'.base = k := Nat.add_sub_cancel_left _ _
  rw [ha.mem]
  simp only [if_pos hin, hsub, if_pos hk]

theorem Does.realloc {bytes : Size} {n : ℕ} (ho : Own C s.1 (Function.update arrays i (some s.2)))
    (hb : Bounds C s.2) (hs : realloc C bytes s = some r) (hsize : (s.2.size C).toNat ≤ n)
    (hn : C.bytesFor n ≤ bytes.toNat)
    (hbytes : (∃ e, C.elementSize.toNat = 2 ^ e) → Whole C s.2 →
      C.elementSize.toNat ∣ bytes.toNat) :
    Does C arrays i s r Eq ∧ n ≤ (r.2.capacity C).toNat := by
  by_cases hnull : s.2.cStart = C.null
  · rw [PODArray.realloc, if_pos hnull] at hs
    exact Does.alloc ho hb hs hnull hn hbytes
  · obtain ⟨b, hbm, hin⟩ := ho.inside update_same hb hnull
    obtain ⟨x, b', ha⟩ := realloc_spec hs ho.wf hbm hin.owns
    have hlt := ha.room.1.lt ha.base ha.size
    have hzero : bytes = 0 → C.padLeft = 0 ∧ C.padRight = 0 := by
      rintro rfl
      have hpos := ha.room.1.2.1
      rw [← ha.size] at hpos
      exact absurd hpos (Nat.lt_irrefl 0)
    have hown := Keeps.realloc hs hzero arrays i ho
    have hdiff : (s.2.cEnd - s.2.cStart).toNat = (s.2.size C).toNat * C.elementSize.toNat := by
      rw [toNat_sub_le hb.start_le, hb.size_mul]
    have hmul := Nat.mul_le_mul_right C.elementSize.toNat hsize
    have hd : (s.2.cEnd - s.2.cStart).toNat + C.padRight.toNat + C.padLeft.toNat ≤ bytes.toNat := by
      unfold Template.bytesFor at hn
      omega
    have hdvd : C.elementSize.toNat ∣ (s.2.cEnd - s.2.cStart).toNat := by
      rw [hdiff]
      exact Nat.dvd_mul_left _ _
    have harr : r.2 = ⟨x + C.padLeft, x + C.padLeft + (s.2.cEnd - s.2.cStart),
        x + C.padLeft + bytes - C.padRight - C.padLeft, s.2.socketId⟩ := ha.arr
    have hbounds : Bounds C r.2 := by
      rw [harr]
      exact Bounds.ofBlock hlt hd hdvd
    have howns : r.2.Owns C b' := by
      rw [harr]
      exact owns_ofBlock ha.room.1 ha.base ha.size
    have hin' := howns.inside ha.room.1 hbounds
    have hsz := ha.size
    have hstart := hin'.start
    have hstop := hin'.stop
    have hs1 := hin.start
    have hs2 := hin.stop
    have hs3 := hb.start_le
    have hs4 := hb.end_le
    have hs5 := hb.size_mul
    refine ⟨⟨hown, hbounds, ?_, ?_, ?_, ?_, ?_, ?_⟩, ?_⟩
    · rintro ⟨e, he⟩ hw
      rw [harr]
      exact whole_ofBlock he hlt hd (hbytes ⟨e, he⟩ hw)
    · have hsame : r.2.size C = s.2.size C := by
        rw [harr, Arr.size, Arr.size, add_sub_cancel_left]
      rw [Arr.contents, Arr.contents, hsame, hstart, hs1]
      refine (records_move fun k hk => ?_).symm
      rw [Nat.add_assoc, Nat.add_assoc]
      exact ha.cell (by omega) (by omega)
    · intro hp hz
      have hE := Template.elementSize_le_padLeft hp
      rw [← hz]
      funext j
      have hj := j.isLt
      rw [before_cell (by omega), before_cell (by omega), hstart, hs1, Nat.add_sub_assoc hE,
        Nat.add_sub_assoc hE, Nat.add_assoc, Nat.add_assoc]
      exact ha.cell (by omega) (by omega)
    · intro q hq
      have hfar := hown.foreign hbounds howns.1 hq
      have hfar' : ¬ (b'.base ≤ q ∧ q < b'.base + b'.size) := by omega
      rw [ha.mem]
      simp only [if_neg hfar']
    · rw [ha.heap]
    · rw [ha.heap]
    · rw [harr]
      exact capacity_ofBlock hlt hd hdvd hn

theorem GrowFits.grows {k : ℕ} (hf : GrowFits C a k) : Grows C a k := by
  rcases Nat.lt_or_ge (a.capacity C).toNat k with hlt | hge
  · have hfit := hf.2 hlt
    rw [toNat_roundUp_ofNat (Nat.zero_lt_of_lt hlt) (Fits.lt hf.1).le] at hfit
    exact .inr hfit.le
  · exact .inl hge

section Room

variable (ho : Own C s.1 (Function.update arrays i (some s.2))) (hb : Bounds C s.2)
include ho hb

theorem Does.reserve {n : Size} (hs : reserve C n s = some r) (hf : RoomFor C s.2 n.toNat) :
    Does C arrays i s r Eq ∧ n.toNat ≤ (r.2.capacity C).toNat := by
  unfold PODArray.reserve at hs
  split at hs
  · rename_i hlt
    have hfor := hf.resolve_left (not_le.mpr (BitVec.lt_def.mp hlt))
    refine Does.realloc ho hb hs (hb.size_le_capacity.trans (BitVec.lt_def.mp hlt).le)
      (Template.le_bytesRequested hfor) ?_
    rintro ⟨e, he⟩ -
    exact Template.dvd_bytesRequested he _
  · rename_i hnot
    obtain rfl := Option.some.inj hs
    exact ⟨Does.refl ho hb, not_lt.mp hnot⟩

theorem Does.require {k : ℕ} (hs : require C (BitVec.ofNat 64 k) s = some r) (hlt : k < 2 ^ 64)
    (hf : Grows C s.2 k) :
    Does C arrays i s r Eq ∧ k ≤ (r.2.capacity C).toNat := by
  have hk := toNat_ofNat hlt
  unfold PODArray.require at hs
  split at hs
  · rename_i hcap
    rw [BitVec.lt_def, hk] at hcap
    have hfor := hf.resolve_left (not_le.mpr hcap)
    have hround := toNat_roundUp_ofNat (Nat.zero_lt_of_lt hcap)
      ((le_twoPow k).trans ((Template.le_bytesFor _).trans hfor))
    obtain ⟨hd, hcap'⟩ := Does.reserve ho hb hs (.inr (by rw [hround]; exact hfor))
    rw [hround] at hcap'
    exact ⟨hd, (le_twoPow k).trans hcap'⟩
  · rename_i hnot
    rw [BitVec.lt_def, hk, not_lt] at hnot
    obtain rfl := Option.some.inj hs
    exact ⟨Does.refl ho hb, hnot⟩

omit ho hb in
theorem dvd_firstBytes {e : ℕ} (he : C.elementSize.toNat = 2 ^ e) (hf : C.Fits 1) :
    C.elementSize.toNat ∣ (firstBytes C).toNat := by
  have hmin : (C.minimumMemoryForElements 1).toNat = C.bytesFor 1 :=
    Template.toNat_minimumMemory (n := 1) (hf.trans (by decide))
  unfold firstBytes
  simp only
  split
  · rw [hmin]
    exact Nat.dvd_add (Nat.dvd_add (Nat.dvd_mul_left _ _) Template.dvd_padRight)
      (Template.dvd_padLeft he)
  · rw [BitVec.toNat_mul]
    exact Template.dvd_mod he (Nat.dvd_mul_left _ _)

/-- A full array has room for one more element in a block of twice the bytes. -/
theorem Does.doubled (hs : PODArray.realloc C (s.2.allocatedBytes C * 2) s = some r)
    (hend : s.2.cEnd = s.2.cEndOfStorage) (hpos : 0 < (s.2.size C).toNat)
    (hf : (s.2.allocatedBytes C).toNat * 2 < 2 ^ 64) :
    Does C arrays i s r Eq ∧ (s.2.size C).toNat + 1 ≤ (r.2.capacity C).toNat := by
  have halloc := hb.allocated (hb.ne_null (ho.bare i s.2 update_same) hpos hb.size_le_capacity)
  have htwice : (s.2.allocatedBytes C * 2).toNat = (s.2.allocatedBytes C).toNat * 2 := by
    rw [BitVec.toNat_mul, toNat_two, Nat.mod_eq_of_lt hf]
  have hmul := hb.size_mul
  have hone : C.elementSize.toNat ≤ (s.2.size C).toNat * C.elementSize.toNat :=
    Nat.le_mul_of_pos_left _ hpos
  refine Does.realloc ho hb hs (Nat.le_succ _) ?_ ?_
  · unfold Template.bytesFor
    rw [htwice, halloc, Nat.add_mul, Nat.one_mul, ← hend]
    omega
  · rintro ⟨e, he⟩ hw
    rw [htwice, halloc]
    exact Nat.dvd_mul_right_of_dvd (Nat.dvd_add (Nat.dvd_add hw Template.dvd_padRight)
      (Template.dvd_padLeft he)) 2

/-- And after `reserveForNextSize`. -/
theorem Does.reserveForNextSize (hs : reserveForNextSize C s = some r)
    (hend : s.2.cEnd = s.2.cEndOfStorage) (hf : NextFits C s.2) :
    Does C arrays i s r Eq ∧ (s.2.size C).toNat + 1 ≤ (r.2.capacity C).toNat := by
  have hf := hf hend
  unfold PODArray.reserveForNextSize at hs
  by_cases hsize : s.2.size C = 0
  · rw [if_pos hsize] at hs hf
    have h0 : (s.2.size C).toNat = 0 := by rw [hsize]; rfl
    rw [h0]
    refine Does.realloc ho hb hs (by rw [h0]; exact Nat.zero_le _) (firstBytes_ge hf.1) ?_
    rintro ⟨e, he⟩ -
    exact dvd_firstBytes he hf.1
  · rw [if_neg hsize] at hs hf
    have hpos := toNat_pos hsize
    exact Does.doubled ho hb hs hend hpos (hf.trans (by decide))

/-! ### Writing -/

/-- `c_end` is set behind element `n`. -/
theorem Does.cut {n : ℕ} {q : Size} (hq : q.toNat = s.2.cStart.toNat + n * C.elementSize.toNat)
    (hn : n ≤ (s.2.capacity C).toNat) : Does C arrays i s (PODArray.setEnd q s) fun xs xs' =>
      xs'.length = n ∧ xs'.take xs.length = xs.take n := by
  have hbounds : Bounds C { s.2 with cEnd := q } := hb.setEnd hq hn
  have hsize := hbounds.size_eq hq
  refine ⟨Keeps.setEnd arrays i ho, hbounds, fun _ hw => hw, ⟨?_, ?_⟩, fun _ hz => hz,
    fun _ _ => rfl, rfl, rfl⟩
  · rw [Arr.length_contents]
    exact hsize
  · have hnew : (setEnd q s).2.contents C (setEnd q s).1.mem =
        records C.elementSize.toNat s.1.mem s.2.cStart.toNat n :=
      congrArg (records C.elementSize.toNat s.1.mem s.2.cStart.toNat) hsize
    rw [hnew, Arr.contents, length_records]
    rcases Nat.le_total (s.2.size C).toNat n with hle | hle
    · rw [take_records hle, List.take_of_length_le (by rw [length_records]; exact hle)]
    · rw [take_records hle, List.take_of_length_le (by rw [length_records]; exact hle)]

/-- With a left padding there is room for an element before the first. -/
theorem elementSize_le_start (hp : C.padLeft ≠ 0) : C.elementSize.toNat ≤ s.2.cStart.toNat := by
  have hE := Template.elementSize_le_padLeft hp
  have hle := C.padLeft_le
  by_cases hnull : s.2.cStart = C.null
  · rw [hnull, null_of_padLeft hp]
    omega
  · obtain ⟨b, -, hin⟩ := ho.inside update_same hb hnull
    have hstart := hin.start
    omega

/-- Elements are written from element `k` on, and `c_end` is set behind them. -/
theorem Does.fill {k : ℕ} {p q : Size} {ys : List (Elem C)}
    (hp : p.toNat = s.2.cStart.toNat + k * C.elementSize.toNat)
    (hq : q.toNat = s.2.cStart.toNat + (k + ys.length) * C.elementSize.toNat)
    (hk : k ≤ (s.2.size C).toNat) (hn : k + ys.length ≤ (s.2.capacity C).toNat) :
    Does C arrays i s (PODArray.setEnd q (put p ys s)) fun xs xs' => xs' = xs.take k ++ ys := by
  have hbounds : Bounds C { s.2 with cEnd := q } := hb.setEnd hq hn
  have hsize := hbounds.size_eq hq
  have hroom := hb.le_capacity.mp hn
  rw [Nat.add_mul] at hroom
  refine ⟨(Keeps.put.trans Keeps.setEnd) arrays i ho, hbounds, fun _ hw => hw, ?_, ?_, ?_, ?_, rfl⟩
  · have hnew : (setEnd q (put p ys s)).2.contents C (setEnd q (put p ys s)).1.mem =
        records C.elementSize.toNat (storeRecords s.1.mem p.toNat ys) s.2.cStart.toNat
          (k + ys.length) :=
      congrArg (records C.elementSize.toNat (storeRecords s.1.mem p.toNat ys) s.2.cStart.toNat)
        hsize
    rw [hnew, hp, records_store_append, Arr.contents, take_records hk]
  · intro hpad hz
    have hE := elementSize_le_start ho hb hpad
    rw [← hz]
    funext j
    have hj := j.isLt
    have hold := before_cell hE s.1.mem j
    have hnew := before_cell (a := { s.2 with cEnd := q }) hE (storeRecords s.1.mem p.toNat ys) j
    have hlt : s.2.cStart.toNat - C.elementSize.toNat + j < p.toNat := by omega
    rw [hold]
    exact hnew.trans (storeRecords_frame (.inl hlt))
  · intro q' hq'
    refine storeRecords_frame ?_
    rcases Nat.eq_zero_or_pos ys.length with h0 | hpos
    · rw [h0, Nat.zero_mul]
      omega
    · have hnull := hb.ne_null (ho.bare i s.2 update_same) (Nat.add_pos_right k hpos) hn
      have hfar := ho.foreign hb hnull hq'
      omega
  · have hcovers : s.2.Covers p.toNat (ys.length * C.elementSize.toNat) := ⟨by omega, by omega⟩
    show (s.1.stray ||
        (!ys.isEmpty && !decide (s.2.Covers p.toNat (ys.length * C.elementSize.toNat)))) = s.1.stray
    rw [decide_eq_true hcovers, Bool.not_true, Bool.and_false, Bool.or_false]

/-- Elements are written at `c_end`. -/
theorem Does.push {n : Size} {ys : List (Elem C)} (hn : n.toNat = ys.length)
    (hcap : (s.2.size C).toNat + ys.length ≤ (s.2.capacity C).toNat) :
    Does C arrays i s (PODArray.setEnd (s.2.cEnd + C.byteSize n) (put s.2.cEnd ys s)) fun xs xs' =>
      xs' = xs ++ ys := by
  have hq := hb.toNat_behind (n := n) (by rw [hn]; exact hcap)
  rw [hn] at hq
  refine (Does.fill ho hb hb.toNat_end hq le_rfl hcap).mono fun xs' hxs => ?_
  rw [hxs, List.take_of_length_le (by rw [Arr.length_contents])]

/-! ### Methods -/

/-- An element at `c_end`, where there is room for it. -/
theorem Does.pushOne {x : Elem C} (hcap : (s.2.size C).toNat + 1 ≤ (s.2.capacity C).toNat) :
    Does C arrays i s (PODArray.setEnd (s.2.cEnd + C.byteSize 1) (put s.2.cEnd [x] s)) fun xs xs' =>
      xs' = xs ++ [x] :=
  Does.push ho hb (n := 1) rfl hcap

omit ho in
/-- There is room for one more. -/
theorem Bounds.room_iff : (s.2.size C).toNat + 1 ≤ (s.2.capacity C).toNat ↔
    s.2.cEnd.toNat + C.elementSize.toNat ≤ s.2.cEndOfStorage.toNat := by
  rw [hb.le_capacity, Nat.add_mul, Nat.one_mul, ← Nat.add_assoc, ← hb.toNat_end]

theorem Does.append {x : Elem C} (hs : append x s = some r) (hf : NextFits C s.2)
    (hroom : RoomOrFull C s.2) :
    Does C arrays i s r fun xs xs' => xs' = xs ++ [x] := by
  obtain ⟨t, ht, rfl⟩ := Option.map_eq_some_iff.mp hs
  split at ht
  · rename_i hend
    obtain ⟨hd, hcap⟩ := Does.reserveForNextSize ho hb ht hend hf
    rw [hd.size_eq] at hcap
    exact hd.trans (Does.pushOne hd.own hd.bounds hcap)
  · rename_i hend
    obtain rfl := Option.some.inj ht
    exact Does.pushOne ho hb ((Bounds.room_iff hb).mpr (hroom.resolve_left hend))

theorem Does.resize {n : Size} (hs : resize C n s = some r) (hf : RoomFor C s.2 n.toNat) :
    Does C arrays i s r fun xs xs' => xs'.length = n.toNat ∧
    xs'.take xs.length = xs.take n.toNat := by
  obtain ⟨t, ht, rfl⟩ := Option.map_eq_some_iff.mp hs
  obtain ⟨hd, hcap⟩ := Does.reserve ho hb ht hf
  exact hd.trans (Does.cut hd.own hd.bounds (hd.bounds.toNat_at hcap) hcap)

theorem Does.resizeWith {n : Size} {x : Elem C} (hs : resizeWith n x s = some r)
    (hf : RoomFor C s.2 n.toNat) :
    Does C arrays i s r fun xs xs' => xs' = xs.take n.toNat ++ List.replicate
      (n.toNat - xs.length) x := by
  have hlen : (s.2.contents C s.1.mem).length = (s.2.size C).toNat := by rw [Arr.length_contents]
  obtain ⟨t, ht, rfl⟩ := Option.map_eq_some_iff.mp hs
  split at ht
  · rename_i hlt
    obtain ⟨u, hu, rfl⟩ := Option.map_eq_some_iff.mp ht
    obtain ⟨hd, hcap⟩ := Does.reserve ho hb hu hf
    have hlt' := BitVec.lt_def.mp hlt
    have hsub : (n - s.2.size C).toNat = n.toNat - (s.2.size C).toNat := toNat_sub_le hlt'.le
    have hsum : (u.2.size C).toNat + (List.replicate (n - s.2.size C).toNat x).length =
        n.toNat := by
      rw [List.length_replicate, hsub, ← hd.size_eq, Nat.add_sub_cancel' hlt'.le]
    have hq := hd.bounds.toNat_at hcap
    rw [← hsum] at hq hcap
    refine (hd.trans (Does.fill hd.own hd.bounds hd.bounds.toNat_end hq le_rfl hcap)).mono
      fun xs' hxs => ?_
    rw [hxs, hsub, hlen, ← hd.size_eq, List.take_of_length_le hlen.le,
      List.take_of_length_le (hlen.le.trans hlt'.le)]
  · rename_i hnot
    obtain rfl := Option.some.inj ht
    have hle := not_lt.mp (fun h => hnot (BitVec.lt_def.mpr h))
    have hcap := hle.trans hb.size_le_capacity
    refine (Does.cut ho hb (hb.toNat_at hcap) hcap).mono fun xs' hxs => ?_
    rw [hlen, Nat.sub_eq_zero_of_le hle, List.replicate_zero, List.append_nil, ← hxs.2,
      List.take_of_length_le]
    rw [hxs.1, hlen]
    exact hle

theorem Does.insertPrepare {ys : List (Elem C)} (hs : insertPrepare C (count ys) s = some r)
    (hf : GrowFits C s.2 ((s.2.size C).toNat + ys.length)) :
    Does C arrays i s r Eq ∧ (r.2.size C).toNat + ys.length ≤ (r.2.capacity C).toNat := by
  rw [PODArray.insertPrepare, count, ofNat_add_length] at hs
  obtain ⟨hd, hcap⟩ := Does.require ho hb hs ((Fits.lt hf.1).trans (by decide)) hf.grows
  rw [hd.size_eq] at hcap
  exact ⟨hd, hcap⟩

omit ho hb in
theorem count_of_growFits {ys : List (Elem C)} {n : ℕ} (hf : GrowFits C a (n + ys.length)) :
    (count ys).toNat = ys.length := by
  have hlt := Fits.lt hf.1
  exact toNat_ofNat (by omega)

theorem Does.insert {ys : List (Elem C)} (hs : insert ys s = some r)
    (hf : GrowFits C s.2 ((s.2.size C).toNat + ys.length)) :
    Does C arrays i s r fun xs xs' => xs' = xs ++ ys := by
  obtain ⟨t, ht, rfl⟩ := Option.map_eq_some_iff.mp hs
  obtain ⟨hd, hcap⟩ := Does.insertPrepare ho hb ht hf
  exact hd.trans (Does.push hd.own hd.bounds (count_of_growFits hf) hcap)

theorem Does.assignValue {n : Size} {x : Elem C} (hs : assignValue n x s = some r)
    (hf : C.Fits n.toNat) :
    Does C arrays i s r fun _ xs' => xs' = List.replicate n.toNat x := by
  obtain ⟨t, ht, rfl⟩ := Option.map_eq_some_iff.mp hs
  obtain ⟨u, hu, rfl⟩ := Option.map_eq_some_iff.mp ht
  obtain ⟨hd, hcap⟩ := Does.reserve ho hb hu (.inr hf.le)
  have hq := hd.bounds.toNat_at hcap
  have hbounds : Bounds C { u.2 with cEnd := u.2.cStart + C.byteSize n } := hd.bounds.setEnd hq hcap
  have hrep : List.replicate ((resizeAssumeReserved C n u).2.size C).toNat x =
      List.replicate n.toNat x :=
    congrArg (List.replicate · x) (hbounds.size_eq hq)
  rw [hrep]
  refine (hd.trans (Does.fill hd.own hd.bounds (k := 0) ?_ ?_ (Nat.zero_le _) ?_)).mono
    fun xs' hxs => ?_
  · show u.2.cStart.toNat = _
    rw [Nat.zero_mul, Nat.add_zero]
  · rw [Nat.zero_add, List.length_replicate]
    exact hq
  · rw [Nat.zero_add, List.length_replicate]
    exact hcap
  · rw [hxs, List.take_zero, List.nil_append]

theorem Does.assign {ys : List (Elem C)} (hs : assign ys s = some r) (hlt : ys.length < 2 ^ 64)
    (hf : Grows C s.2 ys.length) :
    Does C arrays i s r fun _ xs' => xs' = ys := by
  obtain ⟨t, ht, rfl⟩ := Option.map_eq_some_iff.mp hs
  have hcount : (count ys).toNat = ys.length := toNat_ofNat hlt
  obtain ⟨hd, hcap⟩ := Does.require ho hb ht hlt hf
  have hq := hd.bounds.toNat_at (n := count ys) (by rw [hcount]; exact hcap)
  rw [hcount, ← Nat.zero_add ys.length] at hq
  refine (hd.trans (Does.fill hd.own hd.bounds (k := 0) ?_ hq (Nat.zero_le _) ?_)).mono
    fun xs' hxs => ?_
  · rw [Nat.zero_mul, Nat.add_zero]
  · rw [Nat.zero_add]
    exact hcap
  · rw [hxs, List.take_zero, List.nil_append]

theorem Does.popBack (hne : s.2.size C ≠ 0) :
    Does C arrays i s (popBack C s) fun xs xs' => xs' = xs.dropLast := by
  have hpos := toNat_pos hne
  have hlen : (s.2.contents C s.1.mem).length = (s.2.size C).toNat := by rw [Arr.length_contents]
  have hend := hb.toNat_end
  have hcap := hb.size_le_capacity
  have hone : (C.byteSize 1).toNat = C.elementSize.toNat := by
    rw [Template.byteSize, BitVec.toNat_mul, toNat_one, Nat.one_mul,
      Nat.mod_eq_of_lt C.elementSize.isLt]
  have hsplit : (s.2.size C).toNat * C.elementSize.toNat =
      ((s.2.size C).toNat - 1) * C.elementSize.toNat + C.elementSize.toNat := by
    rw [Nat.sub_one_mul, Nat.sub_add_cancel (Nat.le_mul_of_pos_left _ hpos)]
  have hq : (s.2.cEnd - C.byteSize 1).toNat = s.2.cStart.toNat + ((s.2.size C).toNat - 1) *
      C.elementSize.toNat := by
    rw [toNat_sub_le (by omega), hone]
    omega
  refine (Does.cut ho hb hq (by omega)).mono fun xs' hxs => ?_
  rw [List.dropLast_eq_take, hlen, ← hxs.2, List.take_of_length_le]
  rw [hxs.1, hlen]
  exact Nat.sub_le _ _

theorem Does.clear : Does C arrays i s (clear s) fun _ xs' => xs' = [] := by
  refine (Does.cut ho hb (n := 0) ?_ (Nat.zero_le _)).mono fun xs' hxs =>
    List.length_eq_zero_iff.mp hxs.1
  rw [Nat.zero_mul, Nat.add_zero]

/-- `PODArray(n, socket_id)`. -/
theorem Does.sized {n : Size} (hs : sized C n s = some r) (hnull : s.2.cStart = C.null)
    (hf : C.bytesFor n.toNat ≤ 2 ^ 63) :
    Does C arrays i s r fun _ xs' => xs'.length = n.toNat := by
  obtain ⟨t, ht, rfl⟩ := Option.map_eq_some_iff.mp hs
  obtain ⟨hd, hcap⟩ := Does.alloc ho hb ht hnull (Template.le_bytesRequested hf) fun ⟨e, he⟩ _ =>
    Template.dvd_bytesRequested he _
  have hsize : (t.2.size C).toNat = 0 :=
    hd.size_eq ▸ hb.size_null hnull (ho.bare i s.2 update_same hnull)
  have hq := hd.bounds.toNat_behind (n := n) (by rw [hsize, Nat.zero_add]; exact hcap)
  rw [hsize, Nat.zero_add] at hq
  exact (hd.trans (Does.cut hd.own hd.bounds hq hcap)).mono fun _ hxs => hxs.1

/-- `PODArray(from_begin, from_end)`. -/
theorem Does.ranged {ys : List (Elem C)} (hs : ranged ys s = some r) (hnull : s.2.cStart = C.null)
    (hf : C.Fits ys.length) : Does C arrays i s r fun _ xs' => xs' = ys := by
  obtain ⟨t, ht, hr⟩ := Option.bind_eq_some_iff.mp hs
  have hcount := toNat_count hf
  obtain ⟨hd, hcap⟩ := Does.alloc ho hb ht hnull (Template.le_bytesRequested (hcount ▸ hf.le))
    fun ⟨e, he⟩ _ =>
    Template.dvd_bytesRequested he _
  have hold := hb.size_null hnull (ho.bare i s.2 update_same hnull)
  have hsize : (t.2.size C).toNat = 0 := hd.size_eq ▸ hold
  have hfits : GrowFits C t.2 ((t.2.size C).toNat + ys.length) := by
    rw [hsize, Nat.zero_add]
    exact ⟨hf, fun hlt => absurd hlt (not_lt.mpr (hcount ▸ hcap))⟩
  refine (hd.trans (Does.insert hd.own hd.bounds hr hfits)).mono fun xs' hxs => ?_
  rw [hxs, contents_nil hold, List.nil_append]

end Room

/-! ### Methods on lists -/

/-- What a call is on lists. An element that `resize` exposes is any. -/
def Method.OnLists : Method C → List (Elem C) → List (Elem C) → Prop
  | .reserve _, xs, xs' => xs = xs'
  | .resize n, xs, xs' => xs'.length = n.toNat ∧ xs'.take xs.length = xs.take n.toNat
  | .resizeFill n, xs, xs' =>
    xs' = xs.take n.toNat ++ List.replicate (n.toNat - xs.length) (fun _ => 0 : Elem C)
  | .resizeFillValue n value, xs, xs' =>
    xs' = xs.take n.toNat ++ List.replicate (n.toNat - xs.length) value
  | .pushBack x, xs, xs' => xs' = xs ++ [x]
  | .emplaceBack x, xs, xs' => xs' = xs ++ [x]
  | .pushBackRaw x, xs, xs' => xs' = xs ++ [x]
  | .popBack, xs, xs' => xs' = xs.dropLast
  | .clear, _, xs' => xs' = []
  | .insert ys, xs, xs' => xs' = xs ++ ys
  | .insertSmall ys _, xs, xs' => xs' = xs ++ ys
  | .insertAt p ys, xs, xs' => xs' = xs.take p.toNat ++ ys ++ xs.drop p.toNat
  | .assignValue n x, _, xs' => xs' = List.replicate n.toNat x
  | .assign ys, _, xs' => xs' = ys

/-- The calls that are not of `insert` in the middle, of the small `insert`, or of `pop_back` on an
empty array. -/
def Method.Plain (a : Arr) : Method C → Prop
  | .popBack => a.size C ≠ 0
  | .insertSmall _ _ => False
  | .insertAt _ _ => False
  | _ => True

/-- A call of `push_back` or its kin finds the storage full or with room for an element. -/
def Method.RoomOrFull (a : Arr) : Method C → Prop
  | .pushBack _ => PODArray.RoomOrFull C a
  | .emplaceBack _ => PODArray.RoomOrFull C a
  | .pushBackRaw _ => PODArray.RoomOrFull C a
  | _ => True

/-- **A call does on the elements what it is on lists.** -/
theorem Does.run {m : Method C} (ho : Own C s.1 (Function.update arrays i (some s.2)))
    (hb : Bounds C s.2) (hs : m.run s = some r) (hf : m.Fits s.2) (hm : m.Plain s.2)
    (hroom : m.RoomOrFull s.2) :
    Does C arrays i s r m.OnLists := by
  cases m with
  | reserve n => exact (Does.reserve ho hb hs (.inr (le_of_lt hf))).1
  | resize n => exact Does.resize ho hb hs (.inr (le_of_lt hf))
  | resizeFill n => exact Does.resizeWith ho hb hs (.inr (le_of_lt hf))
  | resizeFillValue n value => exact Does.resizeWith ho hb hs (.inr (le_of_lt hf))
  | pushBack x => exact Does.append ho hb hs hf hroom
  | emplaceBack x => exact Does.append ho hb hs hf hroom
  | pushBackRaw x => exact Does.append ho hb hs hf hroom
  | popBack =>
    obtain rfl := Option.some.inj hs
    exact Does.popBack ho hb hm
  | clear =>
    obtain rfl := Option.some.inj hs
    exact Does.clear ho hb
  | insert ys => exact Does.insert ho hb hs hf
  | insertSmall ys behind => exact hm.elim
  | insertAt p ys => exact hm.elim
  | assignValue n x => exact Does.assignValue ho hb hs hf
  | assign ys => exact Does.assign ho hb hs ((Fits.lt hf.1).trans (by decide)) hf.grows

/-- If the storage is whole elements, it is full or has room for one. -/
theorem Whole.roomOrFull (hw : Whole C a) (hb : Bounds C a) : RoomOrFull C a := by
  obtain ⟨k, hk⟩ := hw
  have hend := hb.toNat_end
  have h1 := hb.start_le
  have h2 := hb.end_le
  have hle : (a.size C).toNat ≤ k := by
    refine Nat.le_of_mul_le_mul_left ?_ C.elementSize_pos
    rw [← hk, Nat.mul_comm]
    omega
  rcases Nat.eq_or_lt_of_le hle with heq | hlt
  · left
    apply BitVec.eq_of_toNat_eq
    rw [← heq, Nat.mul_comm] at hk
    omega
  · right
    have hmul : ((a.size C).toNat + 1) * C.elementSize.toNat ≤ k * C.elementSize.toNat :=
      Nat.mul_le_mul_right _ hlt
    rw [Nat.add_mul, Nat.one_mul, Nat.mul_comm k] at hmul
    omega

/-- All calls find it so. -/
theorem Method.roomOrFull {m : Method C} (h : PODArray.RoomOrFull C a) : m.RoomOrFull a := by
  cases m with
  | pushBack x => exact h
  | emplaceBack x => exact h
  | pushBackRaw x => exact h
  | _ => trivial

end NetworkDemo.PODArray
