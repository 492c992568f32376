import NetworkDemo.Foundations.Records
import NetworkDemo.PODArray.Sizes
import Mathlib.Data.List.Pairwise
import Mathlib.Data.List.Perm.Basic

/-!
# The memory of `PODArray`s

Memory is bytes at addresses, in which the allocator has blocks. `numa_alloc_onnode` and
`numa_alloc_interleaved` differ in where the pages come from only. What the allocator
answers is not determined: a `supply` of answers, each an address and what the bytes are
that it gives, is part of the state, and the answer that is next must be of an address
where there is `Room`; else the allocation fails, and is not a step. An allocation of no
bytes returns the null pointer.

A block has a number, so that it can be told how often it was freed. Three things are
recorded and read by nobody: that `numa_realloc` or `numa_free` was called with something
else than the address and the size of a block (`misused`), that an element was written
outside its array's storage (`stray`), and that a `memcpy` was between regions that overlap
or a difference taken of pointers not into one array (`meaningless`).
-/

namespace NetworkDemo.PODArray

open Foundations

/-- A `char`. -/
abbrev Byte := BitVec 8

/-- A block, and the node its pages are of; without one they are interleaved. -/
structure Block where
  id : ℕ
  base : ℕ
  size : ℕ
  node : Option ℤ
  deriving DecidableEq

/-- Two blocks do not meet. -/
def Block.Apart (b b' : Block) : Prop := b.base + b.size ≤ b'.base ∨ b'.base + b'.size ≤ b.base

instance (b b' : Block) : Decidable (b.Apart b') := inferInstanceAs (Decidable (_ ∨ _))

instance : Std.Symm Block.Apart := ⟨fun _ _ => Or.symm⟩

/-- An answer of the allocator. -/
structure Answer where
  base : Size
  bytes : ℕ → Byte

/-- The memory and its blocks, the answers the allocator will give, and what has gone wrong: `misused`,
`stray` and `meaningless` stay set once they are. -/
structure Heap where
  mem : ℕ → Byte
  blocks : List Block
  made : ℕ
  /-- The numbers of the blocks freed. -/
  freed : List ℕ
  supply : ℕ → Answer
  asked : ℕ
  misused : Bool
  stray : Bool
  meaningless : Bool

/-- A block at an address and of a size that an allocator can give: not null, not at the end of
memory, and not where `EmptyPODArray` is. -/
def Block.Placed (C : Template) (b : Block) : Prop :=
  0 < b.base ∧ 0 < b.size ∧ b.base + b.size < 2 ^ 64 ∧
    (b.base + b.size ≤ C.emptyPODArray.toNat ∨ C.emptyPODArray.toNat + 1024 ≤ b.base)

instance (C : Template) (b : Block) : Decidable (b.Placed C) := inferInstanceAs (Decidable (_ ∧ _))

namespace Heap

/-- There is room for a block. -/
def Room (C : Template) (blocks : List Block) (b : Block) : Prop :=
  b.Placed C ∧ ∀ b' ∈ blocks, b.Apart b'

instance (C : Template) (blocks : List Block) (b : Block) : Decidable (Room C blocks b) :=
  inferInstanceAs (Decidable (_ ∧ _))

/-- The answer that is next. -/
def answer (h : Heap) : Answer := h.supply h.asked

/-- `numa_alloc_onnode(bytes, node)`, or `numa_alloc_interleaved(bytes)`. -/
def numaAlloc (C : Template) (h : Heap) (node : Option ℤ) (bytes : Size) : Option (Size × Heap) :=
  let b : Block := ⟨h.made, h.answer.base.toNat, bytes.toNat, node⟩
  if bytes = 0 then some (0, h)
  else if Room C h.blocks b then
    some (h.answer.base, { h with
      mem := fun q => if b.base ≤ q ∧ q < b.base + b.size then h.answer.bytes q else h.mem q
      blocks := b :: h.blocks, made := h.made + 1, asked := h.asked + 1 })
  else none

/-- The block that is at an address and of a size. -/
def find (h : Heap) (p bytes : Size) : Option Block :=
  h.blocks.find? fun b => decide (b.base = p.toNat ∧ b.size = bytes.toNat)

/-- `numa_realloc(p, old, bytes)`. -/
def numaRealloc (C : Template) (h : Heap) (p old bytes : Size) : Option (Size × Heap) :=
  match h.find p old with
  | none => some (p, { h with misused := true })
  | some b =>
    let b' : Block := { b with base := h.answer.base.toNat, size := bytes.toNat }
    if Room C (h.blocks.erase b) b' then
      some (h.answer.base, { h with
        mem := fun q =>
          if b'.base ≤ q ∧ q < b'.base + b'.size then
            if q - b'.base < b.size then h.mem (b.base + (q - b'.base)) else h.answer.bytes q
          else h.mem q
        blocks := b' :: h.blocks.erase b, asked := h.asked + 1 })
    else none

/-- `numa_free(p, bytes)`. -/
def numaFree (h : Heap) (p bytes : Size) : Heap :=
  match h.find p bytes with
  | none => { h with misused := true }
  | some b => { h with blocks := h.blocks.erase b, freed := b.id :: h.freed }

/-- `memset(p, 0, n)`. -/
def zero (h : Heap) (p n : Size) : Heap :=
  { h with mem := fun q => if p.toNat ≤ q ∧ q < p.toNat + n.toNat then 0 else h.mem q }

/-- `memcpy(dst, src, n)`. -/
def memcpy (h : Heap) (dst src n : Size) : Heap :=
  { h with
    mem := fun q => if dst.toNat ≤ q ∧ q < dst.toNat + n.toNat then h.mem
      (src.toNat + (q - dst.toNat)) else h.mem q
    meaningless := h.meaningless || !decide (dst.toNat + n.toNat ≤ src.toNat ∨
      src.toNat + n.toNat ≤ dst.toNat) }

/-! ### Blocks -/

end Heap

/-- Blocks that do not meet are at different addresses. -/
theorem Block.Apart.base_ne {b b' : Block} (h : b.Apart b') (hb : 0 < b.size) (hb' : 0 < b'.size) :
    b.base ≠ b'.base := by
  unfold Block.Apart at h
  omega

theorem Block.Placed.lt {C : Template} {b : Block} {x bytes : Size} (hb : b.Placed C)
    (hx : x.toNat = b.base) (hbytes : bytes.toNat = b.size) : x.toNat + bytes.toNat < 2 ^ 64 := by
  rw [hx, hbytes]
  exact hb.2.2.1

namespace Heap

/-- The blocks are apart, and each that was made is one of them or was freed, once. -/
structure WF (C : Template) (h : Heap) : Prop where
  apart : h.blocks.Pairwise Block.Apart
  placed : ∀ b ∈ h.blocks, b.Placed C
  ids : (h.freed ++ h.blocks.map Block.id).Perm (List.range h.made)
  misused : h.misused = false

variable {C : Template} {h h' : Heap} {b b' : Block}

theorem WF.apart_of_ne (hw : h.WF C) (hb : b ∈ h.blocks) (hb' : b' ∈ h.blocks) (hne : b ≠ b') :
    b.Apart b' :=
  hw.apart.forall hb hb' hne

/-- An address is of one block. -/
theorem WF.eq_of_base (hw : h.WF C) (hb : b ∈ h.blocks) (hb' : b' ∈ h.blocks)
    (he : b.base = b'.base) : b = b' := by
  by_contra hne
  exact (hw.apart_of_ne hb hb' hne).base_ne (hw.placed b hb).2.1 (hw.placed b' hb').2.1 he

theorem WF.find_eq (hw : h.WF C) (hb : b ∈ h.blocks) {p bytes : Size} (hp : p.toNat = b.base)
    (hbytes : bytes.toNat = b.size) : h.find p bytes = some b := by
  have hsome : (h.find p bytes).isSome = true := by
    rw [find, List.find?_isSome]
    exact ⟨b, hb, decide_eq_true ⟨hp.symm, hbytes.symm⟩⟩
  obtain ⟨b', hb'⟩ := Option.isSome_iff_exists.mp hsome
  have hmem : b' ∈ h.blocks := List.mem_of_find?_eq_some hb'
  have hkey :=
    of_decide_eq_true
    (List.find?_some (p := fun b : Block => decide (b.base = p.toNat ∧ b.size = bytes.toNat)) hb')
  rw [hb', hw.eq_of_base hmem hb (hkey.1.trans hp)]

/-- A new block. -/
theorem WF.cons (hw : h.WF C) (hid : b.id = h.made) (hroom : Room C h.blocks b)
    (hblocks : h'.blocks = b :: h.blocks) (hmade : h'.made = h.made + 1)
    (hfreed : h'.freed = h.freed) (hmis : h'.misused = h.misused) : h'.WF C where
  apart := by
    rw [hblocks]
    exact List.pairwise_cons.mpr ⟨hroom.2, hw.apart⟩
  placed c hc := by
    rw [hblocks] at hc
    rcases List.mem_cons.mp hc with rfl | hc
    · exact hroom.1
    · exact hw.placed c hc
  ids := by
    rw [hblocks, hmade, hfreed, List.map_cons, hid, List.range_succ]
    refine List.perm_middle.trans ((List.Perm.cons _ hw.ids).trans ?_)
    exact (List.perm_append_singleton h.made _).symm
  misused := hmis.trans hw.misused

/-- A block that is another instead. -/
theorem WF.replace (hw : h.WF C) (hb : b ∈ h.blocks) (hid : b'.id = b.id)
    (hroom : Room C (h.blocks.erase b) b') (hblocks : h'.blocks = b' :: h.blocks.erase b)
    (hmade : h'.made = h.made) (hfreed : h'.freed = h.freed) (hmis : h'.misused = h.misused) :
    h'.WF C where
  apart := by
    rw [hblocks]
    exact List.pairwise_cons.mpr ⟨hroom.2, hw.apart.sublist List.erase_sublist⟩
  placed c hc := by
    rw [hblocks] at hc
    rcases List.mem_cons.mp hc with rfl | hc
    · exact hroom.1
    · exact hw.placed c (List.mem_of_mem_erase hc)
  ids := by
    have hperm : (h.blocks.map Block.id).Perm (b.id :: (h.blocks.erase b).map Block.id) :=
      (List.perm_cons_erase hb).map Block.id
    rw [hblocks, hmade, hfreed, List.map_cons, hid]
    exact (hperm.symm.append_left h.freed).trans hw.ids
  misused := hmis.trans hw.misused

/-- A block less. -/
theorem WF.erase (hw : h.WF C) (hb : b ∈ h.blocks) (hblocks : h'.blocks = h.blocks.erase b)
    (hmade : h'.made = h.made) (hfreed : h'.freed = b.id :: h.freed)
    (hmis : h'.misused = h.misused) : h'.WF C where
  apart := by
    rw [hblocks]
    exact hw.apart.sublist List.erase_sublist
  placed c hc := by
    rw [hblocks] at hc
    exact hw.placed c (List.mem_of_mem_erase hc)
  ids := by
    have hperm : (h.blocks.map Block.id).Perm (b.id :: (h.blocks.erase b).map Block.id) :=
      (List.perm_cons_erase hb).map Block.id
    rw [hblocks, hmade, hfreed, List.cons_append]
    exact (List.perm_middle.symm.trans (hperm.symm.append_left h.freed)).trans hw.ids
  misused := hmis.trans hw.misused

theorem WF.congr (hw : h.WF C) (hblocks : h'.blocks = h.blocks) (hmade : h'.made = h.made)
    (hfreed : h'.freed = h.freed) (hmis : h'.misused = h.misused) : h'.WF C := by
  refine ⟨?_, ?_, ?_, hmis.trans hw.misused⟩
  · rw [hblocks]
    exact hw.apart
  · rw [hblocks]
    exact hw.placed
  · rw [hblocks, hmade, hfreed]
    exact hw.ids

theorem WF.not_mem_erase (hw : h.WF C) : b ∉ h.blocks.erase b := by
  have hnodup : h.blocks.Nodup := hw.apart.imp_of_mem fun {a c} ha _ hac => by
    rintro rfl
    exact hac.base_ne (hw.placed a ha).2.1 (hw.placed a ha).2.1 rfl
  exact hnodup.not_mem_erase

end Heap

end NetworkDemo.PODArray
