import NetworkDemo.PODArray.Requests

/-!
# Steps past the storage

`push_back` makes room if `c_end` is `c_end_of_storage`. A storage is a power of two of bytes
less the paddings, or twice what it was, and need not be whole elements: then `c_end` passes
its end without being equal to it, and an element is written that is partly outside. `reserve`
and `insert` compare the capacity instead.

* `in_bounds` — in a run in which the allocator is always asked for whole elements and the
  paddings nothing is outside; once it is asked for something else, pushing elements writes
  outside. If the size of an element is a power of two it is never asked for anything else.
* `not_in_bounds` — elements of 12 bytes, in a storage of 16.
-/

namespace NetworkDemo.PODArray

open Foundations

variable {C : Template} {st st' : State} {i : ℕ} {a : Arr}

/-- The pointers of all arrays are in order with whole elements between the first two, and no
element was written outside the storage. -/
def InBounds (C : Template) (st : State) : Prop :=
  (∀ i a, st.arrays i = some a → a.cStart ≤ a.cEnd ∧ a.cEnd ≤ a.cEndOfStorage ∧
    C.elementSize.toNat ∣ (a.cEnd - a.cStart).toNat) ∧ st.heap.stray = false

/-- The operations of a run, each of which asks for whole elements, if for anything. -/
def WholeOp (st : State) (op : Op C) : Prop := op.Fits st ∧ op.Plain st ∧ op.AsksWhole st

/-- In such a run all storages are whole elements. -/
theorem AllWhole.of_reach (h : (podArrays C).Reach WholeOp st) : Good C st ∧ AllWhole C st :=
  h.invariant (I := fun st => Good C st ∧ AllWhole C st)
    (fun _ (h0 : Initial C _) => ⟨Good.init h0, fun _ _ hj => absurd hj h0.no_array⟩)
    fun _ op _ _ ⟨hg, hw⟩ ⟨hf, hp, hasks⟩ hs =>
      ⟨(hg.step hf hp (hw.roomOrFull hg.toOrdered op) hs).1, (hw.step_iff hg hf hp hs).mpr hasks⟩

theorem Good.inBounds (hg : Good C st) : InBounds C st := by
  refine ⟨fun i a hi => ?_, hg.stray⟩
  have hb := hg.bounds i a hi
  refine ⟨BitVec.le_def.mpr hb.start_le, BitVec.le_def.mpr hb.end_le, ?_⟩
  rw [toNat_sub_le hb.start_le]
  exact hb.dvd

/-- An element is written although there is no room for it. -/
theorem append_stray {s r : Heap × Arr} {x : Elem C} (hs : append x s = some r)
    (hroom : ¬ RoomOrFull C s.2) :
    r.1.stray = true := by
  obtain ⟨hend, hno⟩ := not_or.mp hroom
  rw [append, if_neg hend, Option.map_some] at hs
  obtain rfl := Option.some.inj hs
  have hout : ¬ s.2.Covers s.2.cEnd.toNat (([x] : List (Elem C)).length * C.elementSize.toNat) := by
    rintro ⟨-, hle⟩
    rw [List.length_singleton, Nat.one_mul] at hle
    exact hno hle
  show (s.1.stray || (true && !decide (s.2.Covers s.2.cEnd.toNat _))) = true
  rw [decide_eq_false hout, Bool.not_false, Bool.and_self, Bool.or_true]

/-- A storage that is not whole elements is never full: an element pushed is outside, or there is
one more. -/
theorem Good.pushed (x : Elem C) (hg : Good C st) (hi : st.arrays i = some a)
    (hnot : ¬ Whole C a) :
    ∃ st', (Op.call i (.pushBack x)).Fits st ∧ PODArray.step st (.call i (.pushBack x)) = some st' ∧
      (¬ InBounds C st' ∨ Good C st' ∧ ∃ a', st'.arrays i = some a' ∧ ¬ Whole C a' ∧
        a'.capacity C = a.capacity C ∧ (a'.size C).toNat = (a.size C).toNat + 1) := by
  have hb := hg.bounds i a hi
  have hend : a.cEnd ≠ a.cEndOfStorage := by
    intro heq
    have hdvd := hb.dvd
    rw [heq] at hdvd
    exact hnot hdvd
  have hf : (Op.call i (.pushBack x)).Fits st := fun c hc => by
    obtain rfl := Option.some.inj (hi.symm.trans hc)
    exact fun h => absurd h hend
  obtain ⟨r, hr, hstart, hstop⟩ : ∃ r, append x (st.heap, a) = some r ∧ r.2.cStart = a.cStart ∧
      r.2.cEndOfStorage = a.cEndOfStorage := by
    rw [append, if_neg hend, Option.map_some]
    exact ⟨_, rfl, rfl, rfl⟩
  have hs : PODArray.step st (.call i (.pushBack x)) = some (st.set i r) := by
    show (st.arrays i).bind (fun a => (append x (st.heap, a)).map (st.set i)) = _
    rw [hi, Option.bind_some, hr, Option.map_some]
  refine ⟨_, hf, hs, ?_⟩
  by_cases hroom : RoomOrFull C a
  · have hd := Does.append ((update_self_eq hi).symm ▸ hg.own) hb hr (fun h => absurd h hend) hroom
    have hlen := congrArg List.length hd.lists
    rw [List.length_append, Arr.length_contents, Arr.length_contents] at hlen
    refine .inr ⟨(hg.change hi hd).1, r.2, update_same, ?_, ?_, hlen⟩
    · unfold Whole at hnot ⊢
      rwa [hstart, hstop]
    · rw [Arr.capacity, Arr.capacity, hstart, hstop]
  · refine .inl fun hin => ?_
    have hno : r.1.stray = false := hin.2
    rw [append_stray hr hroom] at hno
    cases hno

/-- Pushing elements to it leads outside. -/
theorem Good.pushed_outside (x : Elem C) (k : ℕ) (hg : Good C st)
    (h : (podArrays C).Reach (fun st op => op.Fits st ∧ op.Plain st) st)
    (hi : st.arrays i = some a) (hnot : ¬ Whole C a)
    (hk : (a.capacity C).toNat ≤ (a.size C).toNat + k) :
    ∃ n st', exec PODArray.step st (List.replicate n (Op.call i (.pushBack x))) = some st' ∧
      (podArrays C).Reach (fun st op => op.Fits st ∧ op.Plain st) st' ∧ ¬ InBounds C st' := by
  induction k generalizing st a with
  | zero =>
    obtain ⟨st', hf, hs, hout | ⟨hg', a', hi', -, hcap, hsize⟩⟩ := hg.pushed x hi hnot
    · exact ⟨1, st', by rw [List.replicate_one, exec, hs]; rfl,
        h.step ⟨hf, fun _ _ => trivial⟩ hs, hout⟩
    · -- there was no room for one more
      have hle := (hg'.bounds i a' hi').size_le_capacity
      rw [hcap] at hle
      omega
  | succ k ih =>
    obtain ⟨st', hf, hs, hout | ⟨hg', a', hi', hnot', hcap, hsize⟩⟩ := hg.pushed x hi hnot
    · exact ⟨1, st', by rw [List.replicate_one, exec, hs]; rfl,
        h.step ⟨hf, fun _ _ => trivial⟩ hs, hout⟩
    · obtain ⟨n, st'', hrun, hreach, hout⟩ :=
        ih hg' (h.step ⟨hf, fun _ _ => trivial⟩ hs) hi' hnot' (by rw [hcap, hsize]; omega)
      refine ⟨n + 1, st'', ?_, hreach, hout⟩
      rw [List.replicate_succ, exec, hs, Option.bind_some, hrun]

/-- **Nothing is outside the storage** of an array while the allocator is asked for whole elements
and the paddings, which it always is if the size of an element is a power of two. When it was asked
for something else, pushing elements, whatever they are, leads outside. -/
theorem in_bounds (h : (podArrays C).Reach WholeOp st) :
    InBounds C st ∧
      (∀ (op : Op C) st', op.Fits st → op.Plain st → step st op = some st' →
        ¬ op.AsksWhole st → ∃ i, ∀ x : Elem C, ∃ n st'',
          exec step st' (List.replicate n (Op.call i (.pushBack x))) = some st'' ∧
          (podArrays C).Reach (fun st op => op.Fits st ∧ op.Plain st) st'' ∧
          ¬ InBounds C st'') ∧
      ((∃ e, C.elementSize.toNat = 2 ^ e) → ∀ op : Op C, op.Fits st → op.AsksWhole st) := by
  obtain ⟨hg, hw⟩ := AllWhole.of_reach h
  refine ⟨hg.inBounds, fun op st' hf hp hs hasks => ?_, fun ⟨e, he⟩ op hf =>
    hw.asksWhole he hg.toOrdered hf⟩
  have hg' := (hg.step hf hp (hw.roomOrFull hg.toOrdered op) hs).1
  have hreach : (podArrays C).Reach (fun st op => op.Fits st ∧ op.Plain st) st' :=
    (h.mono fun _ _ hok => ⟨hok.1, hok.2.1⟩).step ⟨hf, hp⟩ hs
  have hnot : ¬ AllWhole C st' := fun hw' => hasks ((hw.step_iff hg hf hp hs).mp hw')
  simp only [AllWhole, not_forall] at hnot
  obtain ⟨i, a, hi, hnot⟩ := hnot
  exact ⟨i, fun x => hg'.pushed_outside x _ hreach hi hnot le_add_self⟩

/-- A storage that is full is made larger. -/
theorem in_bounds_full : ∃ st, exec step (start fun _ => 65536)
    ([.create 0 (-1), .call 0 (.pushBack fun _ => 7), .call 0 .popBack] : List (Op vector)) =
      some st ∧
      InBounds vector st := by
  have h0 : (podArrays vector).Reach WholeOp (start fun _ => 65536) :=
    .init (start_initial (by decide) _)
  have h1 := h0.step (a := Op.create 0 (-1)) ⟨trivial, trivial, nofun⟩ rfl
  have h2 := h1.step (a := Op.call 0 (.pushBack fun _ => 7)) ⟨fun a ha => by
    obtain rfl := Option.some.inj ha
    exact fun _ => by decide, fun _ _ => trivial, fun bytes hbytes => by
    obtain rfl := Option.some.inj hbytes
    exact (by decide : vector.elementSize.toNat ∣ 4096 - 16 - 16)⟩ rfl
  have h3 := h2.step (a := Op.call 0 .popBack) ⟨fun _ _ => trivial, fun a ha => by
    obtain rfl := Option.some.inj ha
    exact fun hsize => absurd hsize (by decide), nofun⟩ rfl
  exact ⟨_, rfl, (in_bounds h3).1⟩

/-! ### All operations -/

/-- `pop_back` is not called on an empty array, and `push_back` finds the storage full or with room
for an element. -/
def Op.Orderly (st : State) : Op C → Prop
  | .call i m => ∀ a, st.arrays i = some a → (m = .popBack → a.size C ≠ 0) ∧ m.RoomOrFull a
  | _ => True

/-- The array after a call of `insert`, whatever it did to the elements. -/
theorem Bounds.inserted {s t : Heap × Arr} {arrays : ℕ → Option Arr} {ys : List (Elem C)}
    (ho : Own C s.1 (Function.update arrays i (some s.2))) (hb : Bounds C s.2)
    (ht : insertPrepare C (count ys) s = some t)
    (hf : GrowFits C s.2 ((s.2.size C).toNat + ys.length)) :
    Bounds C { t.2 with cEnd := t.2.cEnd + C.byteSize (count ys) } := by
  obtain ⟨hd, hcap⟩ := Does.insertPrepare ho hb ht hf
  rw [← count_of_growFits hf] at hcap
  exact hd.bounds.setEnd (hd.bounds.toNat_behind hcap) hcap

theorem Bounds.run {s r : Heap × Arr} {arrays : ℕ → Option Arr} {m : Method C}
    (ho : Own C s.1 (Function.update arrays i (some s.2))) (hb : Bounds C s.2)
    (hs : m.run s = some r) (hf : m.Fits s.2) (hpop : m = .popBack → s.2.size C ≠ 0)
    (hroom : m.RoomOrFull s.2) : Bounds C r.2 := by
  by_cases hm : m.Plain s.2
  · exact (Does.run ho hb hs hf hm hroom).bounds
  · cases m with
    | insertSmall ys behind =>
      obtain ⟨t, ht, rfl⟩ := Option.map_eq_some_iff.mp hs
      have hins := Bounds.inserted ho hb ht hf
      exact hins
    | insertAt p ys =>
      obtain ⟨t, ht, rfl⟩ := Option.map_eq_some_iff.mp hs
      have hins := Bounds.inserted ho hb ht hf
      exact hins
    | popBack => exact absurd (hpop rfl) hm
    | _ => exact absurd trivial hm

/-- An array that is constructed. -/
theorem Bounds.constructed {f : Heap → Option (Heap × Arr)} (socketId : ℤ) (hg : Ordered C st)
    (hs : st.construct i f = some st')
    (hf : ∀ r, f st.heap = some r →
      Own C st.heap (Function.update st.arrays i (some (Arr.new C socketId))) →
      Bounds C (Arr.new C socketId) → Bounds C r.2) : ∀ j c, st'.arrays j = some c →
        Bounds C c := by
  unfold State.construct at hs
  split at hs
  · rename_i hi
    obtain ⟨r, hr, rfl⟩ := Option.map_eq_some_iff.mp hs
    intro j c hj
    rcases eq_or_of_update hj with ⟨rfl, rfl⟩ | ⟨-, hj⟩
    · exact hf r hr (hg.own.created hi rfl rfl) (Bounds.empty rfl)
    · exact hg.bounds j c hj
  · cases hs

theorem Bounds.swapped {j : ℕ} (hg : ∀ k c, st.arrays k = some c → Bounds C c)
    (hs : swapAt C st i j = some st') :
    ∀ k c, st'.arrays k = some c → Bounds C c := by
  obtain ⟨a, hi, hs⟩ := Option.bind_eq_some_iff.mp hs
  obtain ⟨b, hj, rfl⟩ := Option.map_eq_some_iff.mp hs
  have ha := hg i a hi
  have hb := hg j b hj
  have hswap : Bounds C (swap C a b).1 ∧ Bounds C (swap C a b).2 := by
    unfold swap
    split
    · exact ⟨⟨ha.start_le, ha.end_le, ha.dvd, ha.fits⟩, ⟨hb.start_le, hb.end_le, hb.dvd, hb.fits⟩⟩
    · exact ⟨hb, ha⟩
  intro k c hk
  rcases eq_or_of_update hk with ⟨-, rfl⟩ | ⟨-, hk⟩
  · exact hswap.1
  · rcases eq_or_of_update hk with ⟨-, rfl⟩ | ⟨-, hk⟩
    · exact hswap.2
    · exact hg k c hk

theorem Bounds.cloned {s r : Heap × Arr} {arrays : ℕ → Option Arr} {ys : List (Elem C)}
    {left : Elem C} (ho : Own C s.1 (Function.update arrays i (some s.2))) (hb : Bounds C s.2)
    (hs : cloneInto ys left s = some r) (hnull : s.2.cStart = C.null) (hf : C.Fits ys.length) :
    Bounds C r.2 := by
  have hcount := toNat_count hf
  obtain ⟨t, ht, rfl⟩ := Option.map_eq_some_iff.mp hs
  obtain ⟨u, hu, hu'⟩ := Option.bind_eq_some_iff.mp ht
  have hd := Does.sized ho hb hu hnull (hcount ▸ hf.le)
  have hsize : ys.length ≤ (u.2.capacity C).toNat := by
    refine le_of_eq_of_le ?_ hd.bounds.size_le_capacity
    rw [← hcount, ← hd.lists, Arr.length_contents]
  have hd' := Does.assign hd.own hd.bounds hu' ((Fits.lt hf).trans (by decide)) (.inl hsize)
  split
  · exact hd'.bounds
  · exact hd'.bounds

/-- **The pointers stay in order**, whatever the operations do to the elements. -/
theorem Ordered.step {op : Op C} (hg : Ordered C st) (hf : op.Fits st) (ho : op.Orderly st)
    (hs : step st op = some st') :
    Ordered C st' := by
  refine ⟨hg.own.step hf hs, ?_⟩
  cases op with
  | create i socketId =>
    change st.construct i (fun h => some (h, Arr.new C socketId)) = some st' at hs
    refine Bounds.constructed socketId hg hs fun r hr _ hb => ?_
    obtain rfl := Option.some.inj hr
    exact hb
  | createSized i n socketId =>
    change st.construct i (fun h => sized C n (h, Arr.new C socketId)) = some st' at hs
    exact Bounds.constructed socketId hg hs fun r hr ho hb => (Does.sized ho hb hr rfl hf.le).bounds
  | createRange i ys =>
    change st.construct i (fun h => ranged ys (h, Arr.new C (-1))) = some st' at hs
    exact Bounds.constructed (-1) hg hs fun r hr ho hb => (Does.ranged ho hb hr rfl hf).bounds
  | call i m =>
    obtain ⟨a, hi, hs⟩ := Option.bind_eq_some_iff.mp hs
    obtain ⟨r, hr, rfl⟩ := Option.map_eq_some_iff.mp hs
    have hown := (update_self_eq hi).symm ▸ hg.own
    intro j c hj
    rcases eq_or_of_update hj with ⟨rfl, rfl⟩ | ⟨-, hj⟩
    · exact Bounds.run hown (hg.bounds _ a hi) hr (hf a hi) (ho a hi).1 (ho a hi).2
    · exact hg.bounds j c hj
  | assignFrom i j =>
    obtain ⟨a, hi, hs⟩ := Option.bind_eq_some_iff.mp hs
    obtain ⟨b, hj, hs⟩ := Option.bind_eq_some_iff.mp hs
    obtain ⟨r, hr, rfl⟩ := Option.map_eq_some_iff.mp hs
    have hown := (update_self_eq hi).symm ▸ hg.own
    have hfits : GrowFits C a (b.contents C st.heap.mem).length := by
      rw [Arr.length_contents]
      exact hf a b hi hj
    intro k c hk
    rcases eq_or_of_update hk with ⟨rfl, rfl⟩ | ⟨-, hk⟩
    · exact (Does.assign hown (hg.bounds _ a hi) hr
        ((Fits.lt hfits.1).trans (by decide)) hfits.grows).bounds
    · exact hg.bounds k c hk
  | swap i j => exact Bounds.swapped hg.bounds hs
  | moveConstruct i j =>
    obtain ⟨b, -, hs⟩ := Option.bind_eq_some_iff.mp hs
    obtain ⟨t, ht, hs⟩ := Option.bind_eq_some_iff.mp hs
    refine Bounds.swapped (Bounds.constructed (-1) hg ht fun r hr _ hb => ?_) hs
    obtain rfl := Option.some.inj hr
    exact hb
  | moveAssign i j => exact Bounds.swapped hg.bounds hs
  | clone i j =>
    obtain ⟨b, hj, hs⟩ := Option.bind_eq_some_iff.mp hs
    refine Bounds.constructed (-1) hg hs fun r hr ho hb => Bounds.cloned ho hb hr rfl ?_
    rw [Arr.length_contents]
    exact hf b hj
  | destroy i =>
    obtain ⟨a, hi, rfl⟩ := Option.map_eq_some_iff.mp hs
    exact fun k c hk => hg.bounds k c (of_update_none hk).2

theorem Ordered.of_reach (h : (podArrays C).Reach (fun st op => op.Fits st ∧ op.Orderly st) st) :
    Ordered C st :=
  h.invariant (I := Ordered C) (fun _ h0 => (Good.init h0).toOrdered) fun _ _ _ _ hg hok hs =>
    hg.step hok.1 hok.2 hs

/-! ### Elements of 12 bytes -/

/-- `PODArray` of elements of 12 bytes, without paddings. -/
def points : Template where
  elementSize := 12
  initialSize := 4096
  rightArg := 0
  leftArg := 0
  emptyPODArray := 8192
  elementSize_pos := by decide
  assert := by decide
  placed := by decide

/-- After `reserve(1)` two elements are pushed, of which the second is at bytes 12 to 24 of 16. -/
theorem not_in_bounds : ∃ st, (podArrays points).Reach (fun st op => op.Fits st ∧ op.Plain st) st ∧
    ¬ InBounds points st := by
  have h0 : (podArrays points).Reach (fun st op => op.Fits st ∧ op.Plain st)
      (start fun _ => 65536) :=
    .init (start_initial (by decide) _)
  have h1 := h0.step (a := Op.create 0 (-1)) ⟨trivial, trivial⟩ rfl
  have h2 := h1.step (a := Op.call 0 (.reserve 1))
    ⟨fun _ _ => (by decide : points.Fits 1), fun _ _ => trivial⟩ rfl
  have h3 := h2.step (a := Op.call 0 (.pushBack fun _ => 7)) ⟨fun a ha => by
    obtain rfl := Option.some.inj ha
    exact fun hend => absurd hend (by decide), fun _ _ => trivial⟩ rfl
  have h4 := h3.step (a := Op.call 0 (.pushBack fun _ => 8)) ⟨fun a ha => by
    obtain rfl := Option.some.inj ha
    exact fun hend => absurd hend (by decide), fun _ _ => trivial⟩ rfl
  exact ⟨_, h4, fun hin => absurd hin.2 (by decide)⟩

end NetworkDemo.PODArray
