import NetworkDemo.PODArray.Insert

/-!
# What `reserve` and `resize` deliver

The bytes for `n` elements are a product and two sums modulo `2⁶⁴`, which are then rounded up
to a power of two, or to zero above `2⁶³`. What comes out is allocated, and is the right
number exactly when nothing of that wraps around.

* `delivered_iff` — `reserve(n)` and `resize(n)` deliver if and only if there is room for `n`
  elements, or they are with the paddings at most `2⁶³` bytes.
* `not_delivered` — `2⁶²` elements of four bytes, for which 32 bytes are allocated.
-/

namespace NetworkDemo.PODArray

open Foundations

variable {C : Template} {st st' : State} {arrays : ℕ → Option Arr} {i : ℕ} {a : Arr}
    {s r t : Heap × Arr}

/-- There is room for `n` elements, and if they are any the block has the bytes for them and the
paddings. -/
def Holds (C : Template) (a : Arr) (n : Size) : Prop :=
  n ≤ a.capacity C ∧ (n ≠ 0 → C.bytesFor n.toNat ≤ (a.allocatedBytes C).toNat)

/-- All arrays own their blocks and have their pointers in order, and array `i` holds `n`
elements. -/
def Reserved (C : Template) (st : State) (i : ℕ) (n : Size) : Prop :=
  Ordered C st ∧ ∃ a, st.arrays i = some a ∧ Holds C a n

/-- And it has `n` elements. -/
def Resized (C : Template) (st : State) (i : ℕ) (n : Size) : Prop :=
  Ordered C st ∧ ∃ a, st.arrays i = some a ∧ a.size C = n ∧ Holds C a n

/-! ### What is allocated -/

theorem Bounds.holds (hb : Bounds C a) (hbare : a.cStart = C.null → a.cEndOfStorage = C.null)
    {n : Size} (hn : n.toNat ≤ (a.capacity C).toNat) : Holds C a n := by
  refine ⟨BitVec.le_def.mpr hn, fun hne => ?_⟩
  have hpos := toNat_pos hne
  exact hb.bytesFor_le (hb.ne_null hbare hpos hn) hn

/-- The bytes that `reserve` has allocated were right if they are enough. -/
theorem RoomFor.of_reserve {n : Size} (hs : reserve C n s = some t)
    (hbytes : n ≠ 0 → C.bytesFor n.toNat ≤ (t.2.allocatedBytes C).toNat) :
    RoomFor C s.2 n.toNat := by
  unfold reserve at hs
  split at hs
  · rename_i hlt
    have hne : n ≠ 0 := by
      rintro rfl
      exact Nat.not_lt_zero _ (BitVec.lt_def.mp hlt)
    have halloc : t.2.allocatedBytes C = C.bytesRequested n := realloc_allocated hs
    have hfor := hbytes hne
    rw [halloc] at hfor
    exact .inr (hfor.trans Template.bytesRequested_le)
  · rename_i hnot
    exact .inl (not_lt.mp fun h => hnot (BitVec.lt_def.mpr h))

/-! ### When they deliver -/

/-- The call of a method. -/
theorem step_call {m : Method C} (hi : st.arrays i = some a) (hs : step st (.call i m) = some st') :
    ∃ r, m.run (st.heap, a) = some r ∧ st' = st.set i r := by
  obtain ⟨a', hi', hs⟩ := Option.bind_eq_some_iff.mp hs
  obtain rfl := Option.some.inj (hi.symm.trans hi')
  obtain ⟨r, hr, rfl⟩ := Option.map_eq_some_iff.mp hs
  exact ⟨r, hr, rfl⟩

/-- **When `reserve(n)` and `resize(n)` deliver**: if and only if there is room for `n` elements, or
they are with the paddings at most `2⁶³` bytes. -/
theorem delivered_iff {n : Size} (hg : Ordered C st) (hi : st.arrays i = some a) :
    (step st (.call i (.reserve n) : Op C) = some st' →
      (Reserved C st' i n ↔ RoomFor C a n.toNat)) ∧
      (step st (.call i (.resize n) : Op C) = some st' → (Resized C st' i n ↔
        RoomFor C a n.toNat)) := by
  have ho := (update_self_eq hi).symm ▸ hg.own
  have hb := hg.bounds i a hi
  constructor
  · intro hs
    obtain ⟨t, ht, rfl⟩ := step_call hi hs
    have hsame : (st.set i t).arrays i = some t.2 := Function.update_self ..
    constructor
    · rintro ⟨-, c, hc, hholds⟩
      obtain rfl := Option.some.inj (hsame.symm.trans hc)
      exact RoomFor.of_reserve (s := (st.heap, a)) ht hholds.2
    · intro hroom
      obtain ⟨hd, hcap⟩ := Does.reserve ho hb ht hroom
      exact ⟨hg.update hd.own hd.bounds, t.2, hsame, hd.bounds.holds (hd.own.bare i t.2 hsame) hcap⟩
  · intro hs
    obtain ⟨r, hr, rfl⟩ := step_call hi hs
    have hsame : (st.set i r).arrays i = some r.2 := Function.update_self ..
    obtain ⟨t, ht, hrt⟩ := Option.map_eq_some_iff.mp hr
    constructor
    · rintro ⟨-, c, hc, -, hholds⟩
      obtain rfl := Option.some.inj (hsame.symm.trans hc)
      subst hrt
      exact RoomFor.of_reserve (s := (st.heap, a)) ht hholds.2
    · intro hroom
      have hd := Does.resize ho hb hr hroom
      have hlen := hd.lists.1
      rw [Arr.length_contents] at hlen
      refine ⟨hg.update hd.own hd.bounds, r.2, hsame, BitVec.eq_of_toNat_eq hlen,
        hd.bounds.holds (hd.own.bare i r.2 hsame) ?_⟩
      rw [← hlen]
      exact hd.bounds.size_le_capacity

/-- A new `vector` is given three elements. -/
theorem delivered_iff_three : ∃ st st', (podArrays vector).Reachable st ∧ step st
    (.call 0 (.resize 3) : Op vector) = some st' ∧
    Resized vector st' 0 3 := by
  have h0 : OrderlyVectors (start fun _ => 65536) := .init (start_initial (by decide) _)
  have h1 := h0.step (a := Op.create 0 (-1)) ⟨trivial, trivial⟩ rfl
  exact ⟨_, _, h1.reachable, rfl, ((delivered_iff (Ordered.of_reach h1) rfl).2 rfl).mpr
    (.inr (by decide))⟩

/-- `2⁶²` elements of four bytes are no bytes: the array is given 32 for its paddings, and has no
room. -/
theorem not_delivered : ∃ (st st' : State) (a : Arr), OrderlyVectors st ∧
    step st (.call 0 (.reserve 4611686018427387904) : Op vector) = some st' ∧
    st'.arrays 0 = some a ∧
      a.allocatedBytes vector = 32 ∧ a.capacity vector = 0 ∧
        ¬ Reserved vector st' 0 4611686018427387904 := by
  have h0 : OrderlyVectors (start fun _ => 65536) := .init (start_initial (by decide) _)
  have h1 := h0.step (a := Op.create 0 (-1)) ⟨trivial, trivial⟩ rfl
  refine ⟨_, _, _, h1, rfl, rfl, by decide, by decide, ?_⟩
  rintro ⟨-, c, hc, hcap, -⟩
  obtain rfl := Option.some.inj hc
  exact absurd hcap (by decide)

end NetworkDemo.PODArray
