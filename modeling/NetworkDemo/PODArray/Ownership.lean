import NetworkDemo.PODArray.Arrays

/-!
# Who owns the blocks

A block of the allocator belongs to the array whose `c_start` is its base and the left
padding, and whose three pointers give its size (`Arr.Owns`); an array that points to `null`
has none. Base and size are recomputed by arithmetic that wraps around, and come out right
whatever the sizes are, as long as no bytes are asked for only where there is no padding.

* `blocks_owned` — each block has one owner, the allocator is told addresses and sizes of
  blocks only, and when no array is left every block has been freed once.
-/

namespace NetworkDemo.PODArray

open Foundations

variable {C : Template}

/-- A block is the array's. -/
def Arr.Owns (C : Template) (a : Arr) (b : Block) : Prop :=
  a.cStart ≠ C.null ∧ (a.cStart - C.padLeft).toNat = b.base ∧ (a.allocatedBytes C).toNat = b.size

/-- Each array that is not empty has its block, and each block its array. -/
structure Own (C : Template) (h : Heap) (arrays : ℕ → Option Arr) : Prop where
  wf : h.WF C
  has : ∀ i a, arrays i = some a → a.cStart ≠ C.null → ∃ b ∈ h.blocks, a.Owns C b
  bare : ∀ i a, arrays i = some a → a.cStart = C.null → a.cEndOfStorage = C.null
  owner : ∀ b ∈ h.blocks, ∃ i a, arrays i = some a ∧ a.Owns C b
  only : ∀ i j a a' b, arrays i = some a → arrays j = some a' → a.Owns C b → a'.Owns C b → i = j

variable {h h' : Heap} {arrays : ℕ → Option Arr} {a a' : Arr} {b b' : Block} {i : ℕ}
    {s r : Heap × Arr}

/-! ### Addresses -/

theorem null_of_padLeft (hp : C.padLeft ≠ 0) : C.null.toNat = C.emptyPODArray.toNat + 1024 := by
  have hlt := C.placed.2
  rw [Template.null, if_pos hp, BitVec.toNat_add, show emptyPODArraySize.toNat = 1024 from rfl,
    Nat.mod_eq_of_lt hlt]

theorem null_eq_zero (hp : C.padLeft = 0) : C.null = 0 := if_neg (not_not.mpr hp)

/-- The start of an array in a block is not `null`. -/
theorem start_ne_null {x : Size} (hb : b.Placed C) (hx : x.toNat = b.base) :
    x + C.padLeft ≠ C.null := by
  obtain ⟨hpos, hsize, hlt, hempty⟩ := hb
  have hle := C.padLeft_le
  by_cases hp : C.padLeft = 0
  · rw [hp, null_eq_zero hp, add_zero]
    rintro rfl
    exact hpos.ne hx
  · intro he
    have hnull := null_of_padLeft hp
    have hplaced := C.placed
    have hne := toNat_pos hp
    rw [← he, BitVec.toNat_add, hx] at hnull
    omega

theorem start_sub (x : Size) : x + C.padLeft - C.padLeft = x := add_sub_cancel_right x C.padLeft

/-- The size of a block comes out of the pointers. -/
theorem allocated_eq (x bytes : Size) :
    x + C.padLeft + bytes - C.padRight - C.padLeft -
      (x + C.padLeft) + C.padRight + C.padLeft = bytes := by ring

/-- The array whose pointers are into a block owns it. -/
theorem owns_ofBlock {x bytes y : Size} {socketId : ℤ} (hb : b.Placed C) (hbase : x.toNat = b.base)
    (hsize : bytes.toNat = b.size) :
    Arr.Owns C ⟨x + C.padLeft, y, x + C.padLeft + bytes - C.padRight - C.padLeft, socketId⟩ b := by
  refine ⟨start_ne_null hb hbase, ?_, ?_⟩
  · rw [← hbase]
    exact congrArg BitVec.toNat (start_sub x)
  · rw [← hsize]
    exact congrArg BitVec.toNat (allocated_eq x bytes)

/-! ### Allocations -/

/-- `alloc` has made the block `b` at the address `x`. -/
structure Allocated (C : Template) (bytes : Size) (s r : Heap × Arr) (x : Size) (b : Block) :
    Prop where
  room : Heap.Room C s.1.blocks b
  base : x.toNat = b.base
  size : bytes.toNat = b.size
  heap : r.1 = { s.1 with
    mem := r.1.mem, blocks := b :: s.1.blocks, made := s.1.made + 1, asked := s.1.asked + 1 }
  id : b.id = s.1.made
  mem : r.1.mem = fun q =>
    if C.padLeft ≠ 0 ∧ (x + C.padLeft - C.elementSize).toNat ≤ q ∧
        q < (x + C.padLeft - C.elementSize).toNat + C.elementSize.toNat then 0
    else if b.base ≤ q ∧ q < b.base + b.size then s.1.answer.bytes q else s.1.mem q
  answer : x = s.1.answer.base
  arr : r.2 = { s.2 with
    cStart := x + C.padLeft, cEnd := x + C.padLeft,
    cEndOfStorage := x + C.padLeft + bytes - C.padRight - C.padLeft }

theorem alloc_spec {bytes : Size} (hs : alloc C bytes s = some r) (hb : bytes ≠ 0) :
    ∃ x b, Allocated C bytes s r x b := by
  unfold alloc Heap.numaAlloc at hs
  rw [if_neg fun h => hb h.1] at hs
  simp only [if_neg hb] at hs
  by_cases hroom : Heap.Room C s.1.blocks ⟨s.1.made, s.1.answer.base.toNat, bytes.toNat, s.2.node⟩
  · rw [if_pos hroom, Option.map_some, Option.some.injEq] at hs
    subst hs
    refine ⟨s.1.answer.base, _, hroom, rfl, rfl, ?_, rfl, ?_, rfl, rfl⟩
    · split
      · rfl
      · rfl
    · funext q
      by_cases hp : C.padLeft = 0
      · simp only [hp, ne_eq, not_true_eq_false, if_false, false_and]
      · simp only [hp, ne_eq, not_false_eq_true, if_true, true_and, Heap.zero]
  · rw [if_neg hroom] at hs
    cases hs

/-- The pointers after `alloc` are computed from what the allocator gave. -/
theorem alloc_arr {bytes : Size} (hs : alloc C bytes s = some r) :
    ¬ (bytes = 0 ∧ C.padLeft ≠ 0) ∧ ∃ x : Size, r.2 = { s.2 with
      cStart := x + C.padLeft, cEnd := x + C.padLeft,
      cEndOfStorage := x + C.padLeft + bytes - C.padRight - C.padLeft } := by
  unfold alloc at hs
  split at hs
  · cases hs
  · rename_i hbytes
    obtain ⟨x, -, rfl⟩ := Option.map_eq_some_iff.mp hs
    exact ⟨hbytes, x.1, rfl⟩

/-- The pointers give back the bytes, whatever they are. -/
theorem alloc_allocated {bytes : Size} (hs : alloc C bytes s = some r) :
    r.2.allocatedBytes C = bytes := by
  obtain ⟨-, x, hx⟩ := alloc_arr hs
  rw [hx]
  exact allocated_eq x bytes

theorem realloc_allocated {bytes : Size} (hs : realloc C bytes s = some r) :
    r.2.allocatedBytes C = bytes := by
  unfold realloc at hs
  split at hs
  · exact alloc_allocated hs
  · obtain ⟨x, -, rfl⟩ := Option.map_eq_some_iff.mp hs
    exact allocated_eq x.1 bytes

/-- An allocation of no bytes gives the null pointer. -/
theorem alloc_zero (hp : C.padLeft = 0) (hr : C.padRight = 0) :
    alloc C 0 s = some (s.1, { s.2 with cStart := 0, cEnd := 0, cEndOfStorage := 0 }) := by
  simp only [alloc, Heap.numaAlloc, if_true, Option.map_some, hp, hr, ne_eq, not_true_eq_false,
    and_false, if_false, add_zero, sub_zero]

/-- `realloc` has made the block `b` of an array the block `b'` at the address `x`. -/
structure Reallocated (C : Template) (bytes : Size) (s r : Heap × Arr) (x : Size) (b b' : Block) :
    Prop where
  room : Heap.Room C (s.1.blocks.erase b) b'
  base : x.toNat = b'.base
  size : bytes.toNat = b'.size
  heap : r.1 =
    { s.1 with mem := r.1.mem, blocks := b' :: s.1.blocks.erase b, asked := s.1.asked + 1 }
  id : b'.id = b.id
  mem : r.1.mem = fun q =>
    if b'.base ≤ q ∧ q < b'.base + b'.size then
      if q - b'.base < b.size then s.1.mem (b.base + (q - b'.base)) else s.1.answer.bytes q
    else s.1.mem q
  answer : x = s.1.answer.base
  arr : r.2 = { s.2 with
    cStart := x + C.padLeft, cEnd := x + C.padLeft + (s.2.cEnd - s.2.cStart),
    cEndOfStorage := x + C.padLeft + bytes - C.padRight - C.padLeft }

theorem realloc_spec {bytes : Size} (hs : realloc C bytes s = some r) (hw : s.1.WF C)
    (hb : b ∈ s.1.blocks) (hab : s.2.Owns C b) : ∃ x b', Reallocated C bytes s r x b b' := by
  obtain ⟨hnull, hbase, hsize⟩ := hab
  have hfind := hw.find_eq hb hbase hsize
  unfold realloc Heap.numaRealloc at hs
  simp only [if_neg hnull, hfind] at hs
  by_cases hroom : Heap.Room C (s.1.blocks.erase b) { b with
    base := s.1.answer.base.toNat, size := bytes.toNat }
  · rw [if_pos hroom, Option.map_some, Option.some.injEq] at hs
    subst hs
    exact ⟨s.1.answer.base, _, hroom, rfl, rfl, rfl, rfl, rfl, rfl, rfl⟩
  · rw [if_neg hroom] at hs
    cases hs

/-! ### Changes -/

theorem Arr.Owns.base_eq (ho : a.Owns C b) (ho' : a.Owns C b') : b.base = b'.base :=
  ho.2.1.symm.trans ho'.2.1

theorem update_ne {j : ℕ} {o : Option Arr} (hj : j ≠ i) : Function.update arrays i o j = arrays j :=
  Function.update_of_ne hj _ _

theorem update_same {o : Option Arr} : Function.update arrays i o i = o := Function.update_self ..

/-- The array is one of the arrays, or another is. -/
theorem eq_or_of_update {j : ℕ} {c : Arr} (hj : Function.update arrays i (some a) j = some c) :
    j = i ∧ c = a ∨ j ≠ i ∧ arrays j = some c := by
  by_cases hji : j = i
  · subst hji
    rw [update_same] at hj
    exact .inl ⟨rfl, (Option.some.inj hj).symm⟩
  · rw [update_ne hji] at hj
    exact .inr ⟨hji, hj⟩

/-- An array that is left when one is no more. -/
theorem of_update_none {j : ℕ} {c : Arr} (hj : Function.update arrays i none j = some c) :
    j ≠ i ∧ arrays j = some c := by
  by_cases hji : j = i
  · rw [hji, update_same] at hj
    cases hj
  · rw [update_ne hji] at hj
    exact ⟨hji, hj⟩

/-- An array that owns the same. -/
theorem Own.congr (ho : Own C h (Function.update arrays i (some a))) (hw : h'.WF C)
    (hblocks : h'.blocks = h.blocks) (hnull : a'.cStart ≠ C.null ↔ a.cStart ≠ C.null)
    (hbare : a'.cStart = C.null → a'.cEndOfStorage = C.null)
    (howns : ∀ b, a'.Owns C b ↔ a.Owns C b) : Own C h' (Function.update arrays i (some a')) where
  wf := hw
  bare j c hj hc := by
    rcases eq_or_of_update hj with ⟨rfl, rfl⟩ | ⟨hji, hj⟩
    · exact hbare hc
    · exact ho.bare j c ((update_ne hji).trans hj) hc
  has j c hj hc := by
    rw [hblocks]
    rcases eq_or_of_update hj with ⟨rfl, rfl⟩ | ⟨hji, hj⟩
    · obtain ⟨b, hb, hab⟩ := ho.has j a update_same (hnull.mp hc)
      exact ⟨b, hb, (howns b).mpr hab⟩
    · exact ho.has j c ((update_ne hji).trans hj) hc
  owner b hb := by
    rw [hblocks] at hb
    obtain ⟨j, c, hj, hcb⟩ := ho.owner b hb
    rcases eq_or_of_update hj with ⟨rfl, rfl⟩ | ⟨hji, hj⟩
    · exact ⟨j, a', update_same, (howns b).mpr hcb⟩
    · exact ⟨j, c, (update_ne hji).trans hj, hcb⟩
  only j k c d b hj hk hc hd := by
    have hback : ∀ {l : ℕ} {e : Arr}, Function.update arrays i (some a') l = some e → e.Owns C b →
        ∃ e', Function.update arrays i (some a) l = some e' ∧ e'.Owns C b := by
      intro l e hl he
      rcases eq_or_of_update hl with ⟨rfl, rfl⟩ | ⟨hli, hl⟩
      · exact ⟨a, update_same, (howns b).mp he⟩
      · exact ⟨e, (update_ne hli).trans hl, he⟩
    obtain ⟨c', hj', hc'⟩ := hback hj hc
    obtain ⟨d', hk', hd'⟩ := hback hk hd
    exact ho.only j k c' d' b hj' hk' hc' hd'

/-- A block has one owner, if the array that is another now does not own what another does. -/
theorem only_update
    (hother : ∀ j k c d, j ≠ i → k ≠ i → arrays j = some c → arrays k = some d → c.Owns C b →
    d.Owns C b → j = k)
    (hnew : ∀ j c, j ≠ i → arrays j = some c → c.Owns C b → ¬ a'.Owns C b) {j k : ℕ} {c d : Arr}
    (hj : Function.update arrays i (some a') j = some c)
    (hk : Function.update arrays i (some a') k = some d) (hc : c.Owns C b) (hd : d.Owns C b) :
    j = k := by
  rcases eq_or_of_update hj with ⟨hji, rfl⟩ | ⟨hji, hj'⟩
  · rcases eq_or_of_update hk with ⟨hki, -⟩ | ⟨hki, hk'⟩
    · exact hji.trans hki.symm
    · exact absurd hc (hnew k d hki hk' hd)
  · rcases eq_or_of_update hk with ⟨-, rfl⟩ | ⟨hki, hk'⟩
    · exact absurd hd (hnew j c hji hj' hc)
    · exact hother j k c d hji hki hj' hk' hc hd

/-- An array that had no block gets one. -/
theorem Own.fresh (ho : Own C h (Function.update arrays i (some a))) (hw : h'.WF C)
    (hnull : a.cStart = C.null) (hblocks : h'.blocks = b :: h.blocks)
    (hroom : Heap.Room C h.blocks b) (hab : a'.Owns C b) :
    Own C h' (Function.update arrays i (some a')) where
  wf := hw
  bare j c hj hc := by
    rcases eq_or_of_update hj with ⟨rfl, rfl⟩ | ⟨hji, hj⟩
    · exact absurd hc hab.1
    · exact ho.bare j c ((update_ne hji).trans hj) hc
  has j c hj hc := by
    rw [hblocks]
    rcases eq_or_of_update hj with ⟨rfl, rfl⟩ | ⟨hji, hj⟩
    · exact ⟨b, List.mem_cons_self, hab⟩
    · obtain ⟨d, hd, hcd⟩ := ho.has j c ((update_ne hji).trans hj) hc
      exact ⟨d, List.mem_cons_of_mem b hd, hcd⟩
  owner d hd := by
    rw [hblocks] at hd
    rcases List.mem_cons.mp hd with rfl | hd
    · exact ⟨i, a', update_same, hab⟩
    · obtain ⟨j, c, hj, hcd⟩ := ho.owner d hd
      rcases eq_or_of_update hj with ⟨rfl, rfl⟩ | ⟨hji, hj⟩
      · exact absurd hnull hcd.1
      · exact ⟨j, c, (update_ne hji).trans hj, hcd⟩
  only j k c d e hj hk hc hd := by
    refine only_update (fun j k c d hji hki hj hk => ?_) (fun l f hli hl hf ha => ?_) hj hk hc hd
    · exact ho.only j k c d e ((update_ne hji).trans hj) ((update_ne hki).trans hk)
    · -- another array's block is not at the new address
      obtain ⟨b', hb', hfb⟩ := ho.has l f ((update_ne hli).trans hl) hf.1
      have hbase : b.base = b'.base := (hab.base_eq ha).trans (hf.base_eq hfb)
      exact (hroom.2 b' hb').base_ne hroom.1.2.1 (ho.wf.placed b' hb').2.1 hbase

/-- The block of an array becomes another. -/
theorem Own.moved (ho : Own C h (Function.update arrays i (some a))) (hw : h'.WF C)
    (hb : b ∈ h.blocks) (hab : a.Owns C b) (hblocks : h'.blocks = b' :: h.blocks.erase b)
    (hroom : Heap.Room C (h.blocks.erase b) b') (hab' : a'.Owns C b') :
    Own C h' (Function.update arrays i (some a')) := by
  have hother : ∀ {l : ℕ} {f : Arr}, l ≠ i → arrays l = some f → ¬ f.Owns C b := by
    intro l f hli hl hf
    exact hli (ho.only l i f a b ((update_ne hli).trans hl) update_same hf hab)
  have hkept : ∀ {l : ℕ} {f : Arr}, l ≠ i → arrays l = some f → f.cStart ≠ C.null →
      ∃ d ∈ h.blocks.erase b, f.Owns C d := by
    intro l f hli hl hf
    obtain ⟨d, hd, hfd⟩ := ho.has l f ((update_ne hli).trans hl) hf
    have hdb : d ≠ b := by
      rintro rfl
      exact hother hli hl hfd
    exact ⟨d, (List.mem_erase_of_ne hdb).mpr hd, hfd⟩
  constructor
  · exact hw
  · intro j c hj hc
    rw [hblocks]
    rcases eq_or_of_update hj with ⟨rfl, rfl⟩ | ⟨hji, hj⟩
    · exact ⟨b', List.mem_cons_self, hab'⟩
    · obtain ⟨d, hd, hcd⟩ := hkept hji hj hc
      exact ⟨d, List.mem_cons_of_mem b' hd, hcd⟩
  · intro j c hj hc
    rcases eq_or_of_update hj with ⟨rfl, rfl⟩ | ⟨hji, hj⟩
    · exact absurd hc hab'.1
    · exact ho.bare j c ((update_ne hji).trans hj) hc
  · intro d hd
    rw [hblocks] at hd
    rcases List.mem_cons.mp hd with rfl | hd
    · exact ⟨i, a', update_same, hab'⟩
    · obtain ⟨j, c, hj, hcd⟩ := ho.owner d (List.mem_of_mem_erase hd)
      rcases eq_or_of_update hj with ⟨rfl, rfl⟩ | ⟨hji, hj⟩
      · -- the array's old block is gone
        have hdb := ho.wf.eq_of_base (List.mem_of_mem_erase hd) hb (hcd.base_eq hab)
        rw [hdb] at hd
        exact absurd hd ho.wf.not_mem_erase
      · exact ⟨j, c, (update_ne hji).trans hj, hcd⟩
  · intro j k c d e hj hk hc hd
    refine only_update (fun j k c d hji hki hj hk => ?_) (fun l f hli hl hf ha => ?_) hj hk hc hd
    · exact ho.only j k c d e ((update_ne hji).trans hj) ((update_ne hki).trans hk)
    · obtain ⟨d', hd', hfd⟩ := hkept hli hl hf.1
      have hbase : b'.base = d'.base := (hab'.base_eq ha).trans (hf.base_eq hfd)
      exact (hroom.2 d' hd').base_ne hroom.1.2.1 (ho.wf.placed d' (List.mem_of_mem_erase hd')).2.1
        hbase

/-- An array without a block comes into being. -/
theorem Own.created (ho : Own C h arrays) (hi : arrays i = none) (hnull : a.cStart = C.null)
    (hbare : a.cEndOfStorage = C.null) : Own C h (Function.update arrays i (some a)) where
  wf := ho.wf
  bare j c hj hc := by
    rcases eq_or_of_update hj with ⟨-, rfl⟩ | ⟨-, hj⟩
    · exact hbare
    · exact ho.bare j c hj hc
  has j c hj hc := by
    rcases eq_or_of_update hj with ⟨-, rfl⟩ | ⟨-, hj⟩
    · exact absurd hnull hc
    · exact ho.has j c hj hc
  owner b hb := by
    obtain ⟨j, c, hj, hcb⟩ := ho.owner b hb
    have hji : j ≠ i := by
      rintro rfl
      rw [hi] at hj
      cases hj
    exact ⟨j, c, (update_ne hji).trans hj, hcb⟩
  only j k c d b hj hk hc hd := by
    rcases eq_or_of_update hj with ⟨-, rfl⟩ | ⟨-, hj⟩
    · exact absurd hnull hc.1
    · rcases eq_or_of_update hk with ⟨-, rfl⟩ | ⟨-, hk⟩
      · exact absurd hnull hd.1
      · exact ho.only j k c d b hj hk hc hd

/-- The arrays change places. -/
theorem Own.comp (ho : Own C h arrays) (σ : Equiv.Perm ℕ) : Own C h fun k => arrays (σ k) where
  wf := ho.wf
  has j c hj hc := ho.has (σ j) c hj hc
  bare j c hj hc := ho.bare (σ j) c hj hc
  owner b hb := by
    obtain ⟨j, c, hj, hcb⟩ := ho.owner b hb
    exact ⟨σ.symm j, c, by rw [σ.apply_symm_apply]; exact hj, hcb⟩
  only j k c d b hj hk hc hd := σ.injective (ho.only (σ j) (σ k) c d b hj hk hc hd)

/-! ### Methods keep the owners -/

/-- Whatever the other arrays are, the owners are right after a method if they were before. -/
def Keeps (C : Template) (s r : Heap × Arr) : Prop :=
  ∀ arrays i, Own C s.1 (Function.update arrays i (some s.2)) →
    Own C r.1 (Function.update arrays i (some r.2))

theorem Keeps.refl : Keeps C s s := fun _ _ h => h

theorem Keeps.trans {t : Heap × Arr} (h₁ : Keeps C s r) (h₂ : Keeps C r t) :
    Keeps C s t := fun arrays i h =>
  h₂ arrays i (h₁ arrays i h)

/-- Only memory and `c_end` change. -/
theorem Keeps.same {mem : ℕ → Byte} {stray meaningless : Bool} {cEnd : Size} :
    Keeps C s ({ s.1 with mem := mem, stray := stray, meaningless := meaningless }, { s.2 with
      cEnd := cEnd }) :=
  fun _ i h => h.congr ⟨h.wf.apart, h.wf.placed, h.wf.ids, h.wf.misused⟩ (by rfl) Iff.rfl
    (h.bare i s.2 update_same)
    fun _ => Iff.rfl

theorem Keeps.put {p : Size} {xs : List (Elem C)} : Keeps C s (put p xs s) := Keeps.same

theorem Keeps.setEnd {cEnd : Size} : Keeps C s (setEnd cEnd s) := Keeps.same

/-- No bytes are asked for only where there is no padding. -/
theorem Keeps.alloc {bytes : Size} (hs : alloc C bytes s = some r) (hnull : s.2.cStart = C.null)
    (hbytes : bytes = 0 → C.padLeft = 0 ∧ C.padRight = 0) : Keeps C s r := by
  intro arrays i ho
  by_cases hb : bytes = 0
  · obtain ⟨hp, hr⟩ := hbytes hb
    subst hb
    obtain rfl := Option.some.inj ((alloc_zero hp hr).symm.trans hs)
    have hnot : ¬ ({ s.2 with cStart := 0, cEnd := 0, cEndOfStorage := 0 } : Arr).cStart ≠ C.null :=
      not_not.mpr (null_eq_zero hp).symm
    have hnot' : ¬ s.2.cStart ≠ C.null := not_not.mpr hnull
    exact ho.congr ho.wf (by rfl) (iff_of_false hnot hnot')
      (fun _ => (null_eq_zero hp).symm) fun b =>
      iff_of_false (fun h => hnot h.1) fun h => hnot' h.1
  · obtain ⟨x, b, ha⟩ := alloc_spec hs hb
    have hwf : r.1.WF C := by
      rw [ha.heap]
      exact ho.wf.cons ha.id ha.room (by rfl) (by rfl) (by rfl) (by rfl)
    refine ho.fresh hwf hnull (by rw [ha.heap]) ha.room ?_
    rw [ha.arr]
    exact owns_ofBlock ha.room.1 ha.base ha.size

theorem Keeps.realloc {bytes : Size} (hs : realloc C bytes s = some r)
    (hbytes : bytes = 0 → C.padLeft = 0 ∧ C.padRight = 0) : Keeps C s r := by
  by_cases hnull : s.2.cStart = C.null
  · rw [PODArray.realloc, if_pos hnull] at hs
    exact Keeps.alloc hs hnull hbytes
  · intro arrays i ho
    obtain ⟨b, hb, hab⟩ := ho.has i s.2 update_same hnull
    obtain ⟨x, b', ha⟩ := realloc_spec hs ho.wf hb hab
    have hwf : r.1.WF C := by
      rw [ha.heap]
      exact ho.wf.replace hb ha.id ha.room (by rfl) (by rfl) (by rfl) (by rfl)
    refine ho.moved hwf hb hab (by rw [ha.heap]) ha.room ?_
    rw [ha.arr]
    exact owns_ofBlock ha.room.1 ha.base ha.size

theorem pads_eq_zero {n : ℕ} (h : C.bytesFor n ≤ (0 : Size).toNat) :
    C.padLeft = 0 ∧ C.padRight = 0 := by
  unfold Template.bytesFor at h
  rw [toNat_zero] at h
  constructor
  · apply BitVec.eq_of_toNat_eq
    rw [toNat_zero]
    omega
  · apply BitVec.eq_of_toNat_eq
    rw [toNat_zero]
    omega

theorem requested_eq_zero {n : Size} (hf : C.Fits n.toNat) (h0 : C.bytesRequested n = 0) :
    C.padLeft = 0 ∧ C.padRight = 0 := by
  have hle := Template.le_bytesRequested hf.le
  rw [h0] at hle
  exact pads_eq_zero hle

theorem firstBytes_ge (hf : C.Fits 1) : C.bytesFor 1 ≤ (firstBytes C).toNat := by
  have hmin : (C.minimumMemoryForElements 1).toNat = C.bytesFor 1 :=
    Template.toNat_minimumMemory (n := 1) (hf.trans (by decide))
  unfold firstBytes
  simp only
  split
  · exact hmin.ge
  · rename_i hnot
    rw [BitVec.lt_def, not_lt] at hnot
    exact hmin ▸ hnot

theorem bytesFor_pos {n : ℕ} (hn : 0 < n) : 0 < C.bytesFor n := by
  have := Nat.mul_pos hn C.elementSize_pos
  unfold Template.bytesFor
  omega

theorem Keeps.reserve {n : Size} (hs : reserve C n s = some r) (hf : C.Fits n.toNat) :
    Keeps C s r := by
  unfold PODArray.reserve at hs
  split at hs
  · exact Keeps.realloc hs fun h0 => requested_eq_zero hf h0
  · obtain rfl := Option.some.inj hs
    exact Keeps.refl

theorem Keeps.reserveForNextSize (hs : reserveForNextSize C s = some r)
    (hend : s.2.cEnd = s.2.cEndOfStorage) (hf : NextFits C s.2) : Keeps C s r := by
  have hf := hf hend
  unfold PODArray.reserveForNextSize at hs
  by_cases hsize : s.2.size C = 0
  · rw [if_pos hsize] at hs hf
    refine Keeps.realloc hs fun h0 => ?_
    have hle := firstBytes_ge hf.1
    rw [h0] at hle
    exact absurd hle (not_le.mpr (bytesFor_pos Nat.one_pos))
  · rw [if_neg hsize] at hs hf
    intro arrays i ho
    refine Keeps.realloc hs (fun h0 => ?_) arrays i ho
    have hpos : 0 < (s.2.allocatedBytes C).toNat := by
      by_cases hnull : s.2.cStart = C.null
      · -- then there is nothing in it
        refine absurd ?_ hsize
        rw [Arr.size, hend, ho.bare i s.2 update_same hnull, hnull, sub_self]
        exact BitVec.zero_udiv
      · obtain ⟨b, hb, -, -, hsz⟩ := ho.has i s.2 update_same hnull
        rw [hsz]
        exact (ho.wf.placed b hb).2.1
    have hmul := congrArg BitVec.toNat h0
    rw [BitVec.toNat_mul, toNat_two, toNat_zero] at hmul
    omega

theorem Keeps.require {k : ℕ} {n : Size} (hs : require C n s = some r) (hn : n = BitVec.ofNat 64 k)
    (hk : k < 2 ^ 64)
    (hf : (s.2.capacity C).toNat < k →
      C.Fits (roundUpToPowerOfTwoOrZero (BitVec.ofNat 64 k)).toNat) : Keeps C s r := by
  unfold PODArray.require at hs
  split at hs
  · rename_i hlt
    rw [BitVec.lt_def, hn, toNat_ofNat hk] at hlt
    rw [hn] at hs
    exact Keeps.reserve hs (hf hlt)
  · obtain rfl := Option.some.inj hs
    exact Keeps.refl

/-- A number of elements that fits is a `size_t`. -/
theorem Fits.lt {k : ℕ} (hf : C.Fits k) : k < 2 ^ 63 := (Template.le_bytesFor k).trans_lt hf

theorem ofNat_add_length (n : Size) (k : ℕ) :
    n + BitVec.ofNat 64 k = BitVec.ofNat 64 (n.toNat + k) := by
  rw [BitVec.ofNat_add, BitVec.ofNat_toNat, BitVec.setWidth_eq]

theorem Keeps.insertPrepare {k : ℕ} (hs : insertPrepare C (BitVec.ofNat 64 k) s = some r)
    (hf : GrowFits C s.2 ((s.2.size C).toNat + k)) : Keeps C s r :=
  Keeps.require hs (ofNat_add_length _ _) ((Fits.lt hf.1).trans (by decide)) hf.2

/-- A method's last part keeps the owners, and so does the method. -/
theorem Keeps.map {o : Option (Heap × Arr)} {f : Heap × Arr → Heap × Arr} (hs : o.map f = some r)
    (ho : ∀ t, o = some t → Keeps C s t) (hf : ∀ t, Keeps C t (f t)) : Keeps C s r := by
  obtain ⟨t, ht, rfl⟩ := Option.map_eq_some_iff.mp hs
  exact (ho t ht).trans (hf t)

theorem Keeps.append {x : Elem C} (hs : append x s = some r) (hf : NextFits C s.2) :
    Keeps C s r := by
  refine Keeps.map hs (fun t ht => ?_) fun t => Keeps.put.trans Keeps.setEnd
  split at ht
  · rename_i hend
    exact Keeps.reserveForNextSize ht hend hf
  · obtain rfl := Option.some.inj ht
    exact Keeps.refl

theorem Keeps.resizeWith {n : Size} {x : Elem C} (hs : resizeWith n x s = some r)
    (hf : C.Fits n.toNat) : Keeps C s r := by
  refine Keeps.map hs (fun t ht => ?_) fun t => Keeps.setEnd
  split at ht
  · exact Keeps.map ht (fun u hu => Keeps.reserve hu hf) fun u => Keeps.put
  · obtain rfl := Option.some.inj ht
    exact Keeps.refl

theorem Keeps.resize {n : Size} (hs : resize C n s = some r) (hf : C.Fits n.toNat) : Keeps C s r :=
  Keeps.map hs (fun _ ht => Keeps.reserve ht hf) fun _ => Keeps.setEnd

theorem Keeps.insert {ys : List (Elem C)} (hs : insert ys s = some r)
    (hf : GrowFits C s.2 ((s.2.size C).toNat + ys.length)) : Keeps C s r :=
  Keeps.map hs (fun _ ht => Keeps.insertPrepare ht hf) fun _ => Keeps.put.trans Keeps.setEnd

theorem Keeps.assign {ys : List (Elem C)} (hs : assign ys s = some r)
    (hf : GrowFits C s.2 ys.length) : Keeps C s r :=
  Keeps.map hs (fun _ ht => Keeps.require ht rfl ((Fits.lt hf.1).trans (by decide)) hf.2) fun _ =>
    Keeps.put.trans Keeps.setEnd

/-- **Methods keep the owners.** -/
theorem Keeps.run {m : Method C} (hs : m.run s = some r) (hf : m.Fits s.2) : Keeps C s r := by
  cases m with
  | reserve n => exact Keeps.reserve hs hf
  | resize n => exact Keeps.resize hs hf
  | resizeFill n => exact Keeps.resizeWith hs hf
  | resizeFillValue n value => exact Keeps.resizeWith hs hf
  | pushBack x => exact Keeps.append hs hf
  | emplaceBack x => exact Keeps.append hs hf
  | pushBackRaw x => exact Keeps.append hs hf
  | popBack =>
    obtain rfl := Option.some.inj hs
    exact Keeps.setEnd
  | clear =>
    obtain rfl := Option.some.inj hs
    exact Keeps.setEnd
  | insert ys => exact Keeps.insert hs hf
  | insertSmall ys behind =>
    exact Keeps.map hs (fun _ ht => Keeps.insertPrepare ht hf) fun _ => Keeps.same
  | insertAt p ys =>
    refine Keeps.map hs (fun _ ht => Keeps.insertPrepare ht hf) fun t => ?_
    dsimp only
    split
    · exact Keeps.same
    · exact Keeps.same
  | assignValue n x => exact Keeps.map hs (fun _ ht => Keeps.resize ht hf) fun _ => Keeps.put
  | assign ys => exact Keeps.assign hs hf

/-! ### Constructors -/

/-- The storage after an allocation. -/
theorem storage_eq (x bytes : Size) :
    x + bytes - C.padRight - C.padLeft - x = bytes - (C.padRight + C.padLeft) := by ring

theorem toNat_storage {bytes : Size} {n : ℕ} (hle : C.bytesFor n ≤ bytes.toNat) :
    (bytes - (C.padRight + C.padLeft)).toNat = bytes.toNat - C.padRight.toNat -
      C.padLeft.toNat := by
  unfold Template.bytesFor at hle
  have hlt := bytes.isLt
  have hsum : (C.padRight + C.padLeft).toNat = C.padRight.toNat + C.padLeft.toNat := by
    rw [BitVec.toNat_add, Nat.mod_eq_of_lt (by omega)]
  rw [BitVec.toNat_sub_of_le (BitVec.le_def.mpr (by omega)), hsum, Nat.sub_sub]

theorem le_div_of_bytesFor_le {n bytes : ℕ} (hle : C.bytesFor n ≤ bytes) :
    n ≤ (bytes - C.padRight.toNat - C.padLeft.toNat) / C.elementSize.toNat := by
  unfold Template.bytesFor at hle
  exact (Nat.le_div_iff_mul_le C.elementSize_pos).mpr (by omega)

/-- An array that is constructed for `n` elements has room for them. -/
theorem allocForNumElements_capacity {n : Size} (hs : allocForNumElements C n s = some r)
    (hf : C.Fits n.toNat) :
    r.2.size C = 0 ∧ n.toNat ≤ (r.2.capacity C).toNat := by
  by_cases hb : C.bytesRequested n = 0
  · obtain ⟨hp, hr⟩ := requested_eq_zero hf hb
    have hle := Template.le_bytesRequested hf.le
    rw [hb] at hle
    have hn : n.toNat = 0 := by
      by_contra hne
      exact absurd hle (not_le.mpr (bytesFor_pos (Nat.pos_of_ne_zero hne)))
    change alloc C (C.bytesRequested n) s = some r at hs
    rw [hb, alloc_zero hp hr] at hs
    obtain rfl := Option.some.inj hs
    constructor
    · show ((0 : Size) - 0) / C.elementSize = 0
      rw [sub_self]
      exact BitVec.zero_udiv
    · rw [hn]
      exact Nat.zero_le _
  · obtain ⟨x, b, ha⟩ := alloc_spec hs hb
    have hle := Template.le_bytesRequested hf.le
    rw [ha.arr]
    constructor
    · show (x + C.padLeft - (x + C.padLeft)) / C.elementSize = 0
      rw [sub_self]
      exact BitVec.zero_udiv
    · show n.toNat ≤
          ((x + C.padLeft + C.bytesRequested n - C.padRight - C.padLeft -
          (x + C.padLeft)) / C.elementSize).toNat
      rw [storage_eq, BitVec.toNat_udiv, toNat_storage hle]
      exact le_div_of_bytesFor_le hle

theorem Keeps.allocForNumElements {n : Size} (hs : allocForNumElements C n s = some r)
    (hnull : s.2.cStart = C.null) (hf : C.Fits n.toNat) : Keeps C s r :=
  Keeps.alloc hs hnull fun h0 => requested_eq_zero hf h0

theorem Keeps.sized {n : Size} (hs : sized C n s = some r) (hnull : s.2.cStart = C.null)
    (hf : C.Fits n.toNat) :
    Keeps C s r := Keeps.map hs (fun _ ht => Keeps.allocForNumElements ht hnull hf) fun _ =>
      Keeps.setEnd

theorem toNat_count {ys : List (Elem C)} (hf : C.Fits ys.length) : (count ys).toNat = ys.length :=
  toNat_ofNat ((Fits.lt hf).trans (by decide))

theorem Keeps.ranged {ys : List (Elem C)} (hs : ranged ys s = some r) (hnull : s.2.cStart = C.null)
    (hf : C.Fits ys.length) : Keeps C s r := by
  obtain ⟨t, ht, hr⟩ := Option.bind_eq_some_iff.mp hs
  have hcount := toNat_count hf
  obtain ⟨hsize, hcap⟩ := allocForNumElements_capacity ht (hcount ▸ hf)
  refine (Keeps.allocForNumElements ht hnull (hcount ▸ hf)).trans (Keeps.insert hr ?_)
  rw [hsize, toNat_zero, Nat.zero_add]
  exact ⟨hf, fun hlt => absurd hlt (not_lt.mpr (hcount ▸ hcap))⟩

theorem Keeps.cloneInto {ys : List (Elem C)} {left : Elem C} (hs : cloneInto ys left s = some r)
    (hnull : s.2.cStart = C.null) (hf : C.Fits ys.length) : Keeps C s r := by
  have hcount := toNat_count hf
  refine Keeps.map hs (fun t ht => ?_) fun t => ?_
  · obtain ⟨u, hu, hu'⟩ := Option.bind_eq_some_iff.mp ht
    refine (Keeps.sized hu hnull (hcount ▸ hf)).trans (Keeps.assign hu' ⟨hf, fun hlt => ?_⟩)
    obtain ⟨v, hv, rfl⟩ := Option.map_eq_some_iff.mp hu
    have hcap := (allocForNumElements_capacity hv (hcount ▸ hf)).2
    exact absurd hlt (not_lt.mpr (hcount ▸ hcap))
  · split
    · exact Keeps.same
    · exact Keeps.refl

/-! ### Operations keep the owners -/

/-- An array is destroyed, and its block freed. -/
theorem Own.destroyed (ho : Own C h arrays) (hi : arrays i = some a) :
    Own C (dealloc C (h, a)) (Function.update arrays i none) := by
  by_cases hnull : a.cStart = C.null
  · rw [dealloc, if_pos hnull]
    refine ⟨ho.wf, ?_, ?_, ?_, ?_⟩
    · exact fun j c hj => ho.has j c (of_update_none hj).2
    · exact fun j c hj => ho.bare j c (of_update_none hj).2
    · intro b hb
      obtain ⟨j, c, hj, hcb⟩ := ho.owner b hb
      have hji : j ≠ i := by
        rintro rfl
        obtain rfl := Option.some.inj (hi.symm.trans hj)
        exact hcb.1 hnull
      exact ⟨j, c, (update_ne hji).trans hj, hcb⟩
    · exact fun j k c d b hj hk => ho.only j k c d b (of_update_none hj).2 (of_update_none hk).2
  · obtain ⟨b, hb, hab⟩ := ho.has i a hi hnull
    have hfree :
        dealloc C (h, a) = { h with blocks := h.blocks.erase b, freed := b.id :: h.freed } := by
      rw [dealloc, if_neg hnull, Heap.numaFree, ho.wf.find_eq hb hab.2.1 hab.2.2]
    rw [hfree]
    refine ⟨ho.wf.erase hb (by rfl) (by rfl) (by rfl) (by rfl), ?_, ?_, ?_, ?_⟩
    · intro j c hj hc
      obtain ⟨hji, hj⟩ := of_update_none hj
      obtain ⟨d, hd, hcd⟩ := ho.has j c hj hc
      have hdb : d ≠ b := by
        rintro rfl
        exact hji (ho.only j i c a d hj hi hcd hab)
      exact ⟨d, (List.mem_erase_of_ne hdb).mpr hd, hcd⟩
    · exact fun j c hj => ho.bare j c (of_update_none hj).2
    · intro d hd
      obtain ⟨j, c, hj, hcd⟩ := ho.owner d (List.mem_of_mem_erase hd)
      have hji : j ≠ i := by
        rintro rfl
        obtain rfl := Option.some.inj (hi.symm.trans hj)
        have hdb := ho.wf.eq_of_base (List.mem_of_mem_erase hd) hb (hcd.base_eq hab)
        rw [hdb] at hd
        exact ho.wf.not_mem_erase hd
      exact ⟨j, c, (update_ne hji).trans hj, hcd⟩
    · exact fun j k c d e hj hk => ho.only j k c d e (of_update_none hj).2 (of_update_none hk).2

theorem update_self_eq (hi : arrays i = some a) : Function.update arrays i (some a) = arrays := by
  rw [← hi, Function.update_eq_self]

/-- Another node for an array. -/
theorem Own.socket (ho : Own C h arrays) (hi : arrays i = some a) (socketId : ℤ) :
    Own C h (Function.update arrays i (some { a with socketId := socketId })) := by
  have ho' := (update_self_eq hi).symm ▸ ho
  exact ho'.congr ho.wf rfl Iff.rfl (ho.bare i a hi) fun _ => Iff.rfl

theorem Own.swapped {st st' : State} {j : ℕ} (ho : Own C st.heap st.arrays)
    (hs : swapAt C st i j = some st') :
    Own C st'.heap st'.arrays := by
  obtain ⟨a, hi, hs⟩ := Option.bind_eq_some_iff.mp hs
  obtain ⟨b, hj, rfl⟩ := Option.map_eq_some_iff.mp hs
  dsimp only
  unfold swap
  split
  · -- the pointers stay
    have hb := ho.socket hj a.socketId
    by_cases hij : i = j
    · subst hij
      obtain rfl := Option.some.inj (hi.symm.trans hj)
      rw [Function.update_idem]
      exact hb
    · exact hb.socket ((update_ne hij).trans hi) b.socketId
  · have hswap : Function.update (Function.update st.arrays j (some a)) i (some b) =
        fun k => st.arrays (Equiv.swap i j k) := by
      funext k
      by_cases hki : k = i
      · rw [hki, Function.update_self, Equiv.swap_apply_left, hj]
      · rw [Function.update_of_ne hki]
        by_cases hkj : k = j
        · rw [hkj, Function.update_self, Equiv.swap_apply_right, hi]
        · rw [Function.update_of_ne hkj, Equiv.swap_apply_of_ne_of_ne hki hkj]
    rw [hswap]
    exact ho.comp _

theorem Own.constructed {st st' : State} {f : Heap → Option (Heap × Arr)} (socketId : ℤ)
    (ho : Own C st.heap st.arrays) (hs : st.construct i f = some st')
    (hf : ∀ r, f st.heap = some r → Keeps C (st.heap, Arr.new C socketId) r) :
    Own C st'.heap st'.arrays := by
  unfold State.construct at hs
  split at hs
  · rename_i hi
    obtain ⟨r, hr, rfl⟩ := Option.map_eq_some_iff.mp hs
    exact hf r hr st.arrays i (ho.created hi (by rfl) (by rfl))
  · cases hs

theorem Own.step {st st' : State} {op : Op C} (ho : Own C st.heap st.arrays) (hf : op.Fits st)
    (hs : step st op = some st') : Own C st'.heap st'.arrays := by
  cases op with
  | create i socketId =>
    change st.construct i (fun h => some (h, Arr.new C socketId)) = some st' at hs
    refine ho.constructed socketId hs fun r hr => ?_
    obtain rfl := Option.some.inj hr
    exact Keeps.refl (s := (st.heap, Arr.new C socketId))
  | createSized i n socketId =>
    change st.construct i (fun h => sized C n (h, Arr.new C socketId)) = some st' at hs
    exact ho.constructed socketId hs fun r hr => Keeps.sized hr (by rfl) hf
  | createRange i ys =>
    change st.construct i (fun h => ranged ys (h, Arr.new C (-1))) = some st' at hs
    exact ho.constructed (-1) hs fun r hr => Keeps.ranged hr (by rfl) hf
  | call i m =>
    obtain ⟨a, hi, hs⟩ := Option.bind_eq_some_iff.mp hs
    obtain ⟨r, hr, rfl⟩ := Option.map_eq_some_iff.mp hs
    exact Keeps.run hr (hf a hi) st.arrays i (by rw [update_self_eq hi]; exact ho)
  | assignFrom i j =>
    obtain ⟨a, hi, hs⟩ := Option.bind_eq_some_iff.mp hs
    obtain ⟨b, hj, hs⟩ := Option.bind_eq_some_iff.mp hs
    obtain ⟨r, hr, rfl⟩ := Option.map_eq_some_iff.mp hs
    refine Keeps.assign hr ?_ st.arrays i (by rw [update_self_eq hi]; exact ho)
    rw [Arr.length_contents]
    exact hf a b hi hj
  | swap i j => exact ho.swapped hs
  | moveConstruct i j =>
    obtain ⟨b, -, hs⟩ := Option.bind_eq_some_iff.mp hs
    obtain ⟨t, ht, hs⟩ := Option.bind_eq_some_iff.mp hs
    refine Own.swapped (ho.constructed (-1) ht fun r hr => ?_) hs
    obtain rfl := Option.some.inj hr
    exact Keeps.refl (s := (st.heap, Arr.new C (-1)))
  | moveAssign i j => exact ho.swapped hs
  | clone i j =>
    obtain ⟨b, hj, hs⟩ := Option.bind_eq_some_iff.mp hs
    refine ho.constructed (-1) hs fun r hr => Keeps.cloneInto hr (by rfl) ?_
    rw [Arr.length_contents]
    exact hf b hj
  | destroy i =>
    obtain ⟨a, hi, rfl⟩ := Option.map_eq_some_iff.mp hs
    exact ho.destroyed hi

/-! ### Runs -/

theorem Initial.no_array {st : State} {j : ℕ} {c : Arr} (h : Initial C st) :
    st.arrays j ≠ some c := by
  intro hj
  rw [h.2.2.2.2.2.1 j] at hj
  cases hj

theorem Own.init {st : State} (h : Initial C st) : Own C st.heap st.arrays := by
  have hnone : ∀ {j : ℕ} {c : Arr}, st.arrays j ≠ some c := h.no_array
  obtain ⟨hblocks, hmade, hfreed, hmis, -⟩ := h
  have hempty : ∀ b, b ∉ st.heap.blocks := by
    intro b hb
    rw [hblocks] at hb
    cases hb
  constructor
  · constructor
    · rw [hblocks]
      exact List.Pairwise.nil
    · exact fun b hb => absurd hb (hempty b)
    · rw [hblocks, hfreed, hmade]
      exact List.Perm.nil
    · exact hmis
  · exact fun j c hj => absurd hj hnone
  · exact fun j c hj => absurd hj hnone
  · exact fun b hb => absurd hb (hempty b)
  · exact fun j k c d b hj => absurd hj hnone

theorem Own.of_reach {st : State} (h : (podArrays C).Reach (fun st op => op.Fits st) st) :
    Own C st.heap st.arrays :=
  h.invariant (fun _ h0 => Own.init h0) fun _ _ _ _ ho hf hs => ho.step hf hs

/-- A number is made once. -/
theorem Heap.WF.count_eq_one (hw : h.WF C) {k : ℕ} (hk : k < h.made) :
    (h.freed ++ h.blocks.map Block.id).count k = 1 := by
  rw [hw.ids.count_eq]
  exact List.count_eq_one_of_mem List.nodup_range (List.mem_range.mpr hk)

/-- **Blocks are owned.** Each block has one array, and is not `EmptyPODArray`; the allocator was
told blocks only; each block made is there or was freed, once, and all were when no array is
left. -/
theorem blocks_owned {st : State} (h : (podArrays C).Reach (fun st op => op.Fits st) st) :
    (∀ b ∈ st.heap.blocks, b.Placed C ∧ ∃! i, ∃ a, st.arrays i = some a ∧ a.Owns C b) ∧
      st.heap.misused = false ∧
      (∀ k < st.heap.made, (st.heap.freed ++ st.heap.blocks.map Block.id).count k = 1) ∧
      ((∀ i, st.arrays i = none) → st.heap.blocks = [] ∧ ∀ k < st.heap.made,
        st.heap.freed.count k = 1) := by
  have ho := Own.of_reach h
  refine ⟨fun b hb => ⟨ho.wf.placed b hb, ?_⟩, ho.wf.misused, fun k hk => ho.wf.count_eq_one hk,
    fun hnone => ?_⟩
  · obtain ⟨i, a, hi, hab⟩ := ho.owner b hb
    refine ⟨i, ⟨a, hi, hab⟩, ?_⟩
    rintro j ⟨c, hj, hcb⟩
    exact ho.only j i c a b hj hi hcb hab
  · have hblocks : st.heap.blocks = [] := by
      apply List.eq_nil_iff_forall_not_mem.mpr
      intro b hb
      obtain ⟨i, a, hi, -⟩ := ho.owner b hb
      rw [hnone i] at hi
      cases hi
    refine ⟨hblocks, fun k hk => ?_⟩
    have hcount := ho.wf.count_eq_one hk
    rwa [hblocks, List.map_nil, List.append_nil] at hcount

/-- An array is pushed to, moved, and both are destroyed. -/
theorem blocks_owned_moved :
    ∃ st, exec step (start (fun _ => 65536)) ([.create 0 (-1), .call 0 (.pushBack fun _ => 7),
    .moveConstruct 1 0, .destroy 0, .destroy 1] : List (Op vector)) = some st ∧ st.heap.made = 1 ∧
      st.heap.freed.count 0 = 1 := by
  have h0 : (podArrays vector).Reach (fun st op => op.Fits st) (start fun _ => 65536) :=
    .init (start_initial (by decide) _)
  have h1 := h0.step (a := Op.create 0 (-1)) trivial rfl
  have h2 := h1.step (a := Op.call 0 (.pushBack fun _ => 7)) (fun a ha => by
    obtain rfl := Option.some.inj ha
    exact fun _ => by decide) rfl
  have h3 := h2.step (a := Op.moveConstruct 1 0) trivial rfl
  have h5 := (h3.step (a := Op.destroy 0) trivial rfl).step (a := Op.destroy 1) trivial rfl
  exact ⟨_, rfl, rfl, ((blocks_owned h5).2.2.2 fun i => by
    rcases i with _ | _ | i <;> rfl).2 0 Nat.one_pos⟩

end NetworkDemo.PODArray
