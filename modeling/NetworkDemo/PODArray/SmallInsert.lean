import NetworkDemo.PODArray.Alias

/-!
# Insertion of small ranges

`insertSmallAllowReadWriteOverflow15` prepares for the new elements as `insert` does, and then
copies blocks of 16 bytes, the last of which goes past the elements by up to 15. The right
padding is there for that, and is at least `pad_right_`, which is asserted to be 15, unless
rounding it up to whole elements wraps around.

* `smallInserted_iff` — the elements are appended, and nothing is written outside the block,
  if and only if the bytes that are allocated are right, those of the range are an `ssize_t`,
  and the padding does not wrap around or the last block ends in the array's block without it.
* `not_smallInserted` — one element, and the largest `pad_right_`.
-/

namespace NetworkDemo.PODArray

open Foundations

variable {C : Template} {st st' : State} {arrays : ℕ → Option Arr} {i : ℕ} {a : Arr}
    {s r t : Heap × Arr}
  {ys : List (Elem C)} {behind : ℕ → Byte}

/-- The bytes of whole blocks of 16. -/
def blockBytes (n : ℕ) : ℕ := (n + 15) / 16 * 16

/-- How many bytes the copy writes at the `c_end` of the array that was prepared. -/
def smallWritten (ys : List (Elem C)) (behind : ℕ → Byte) (t : Heap × Arr) : ℕ :=
  (memcpySmallAllowReadWriteOverflow15 t.1.mem t.2.cEnd (rangeBytes ys behind)
    (C.byteSize (count ys))).1

/-- Array `i`, which was `a` and was prepared as `t`, holds the range behind its elements, the range
was copied, and all bytes written are in the array's block. -/
structure SmallInserted (C : Template) (st st' : State) (i : ℕ) (a : Arr) (t : Heap × Arr)
    (ys : List (Elem C)) (behind : ℕ → Byte) : Prop where
  ordered : Ordered C st'
  appended : st'.lists i = some (a.contents C st.heap.mem ++ ys)
  copied : ys.length * C.elementSize.toNat ≤ smallWritten ys behind t
  inside : ∀ q, t.2.cEnd.toNat ≤ q → q < t.2.cEnd.toNat + smallWritten ys behind t →
    ∃ c d, st'.arrays i = some c ∧ d ∈ st'.heap.blocks ∧ c.Owns C d ∧ d.base ≤ q ∧
      q < d.base + d.size

/-- The bytes of the block of an array that was prepared for `k` more elements, where they are
right. -/
def preparedBytes (C : Template) (a : Arr) (k : ℕ) : ℕ :=
  if (a.size C).toNat + k ≤ (a.capacity C).toNat then (a.allocatedBytes C).toNat
  else 2 ^ (C.bytesFor (2 ^ ((a.size C).toNat + k - 1).size) - 1).size

/-- The right padding does not wrap around, or the last of the blocks for `k` elements ends in the
array's block. -/
def LastFits (C : Template) (a : Arr) (k : ℕ) : Prop :=
  C.rightArg.toNat + C.elementSize.toNat ≤ 2 ^ 64 ∨
    C.padLeft.toNat + (a.size C).toNat * C.elementSize.toNat + blockBytes
      (k * C.elementSize.toNat) ≤ preparedBytes C a k

/-! ### Copying blocks -/

theorem blockBytes_ge (n : ℕ) : n ≤ blockBytes n := by
  unfold blockBytes
  omega

theorem blockBytes_le (n : ℕ) : blockBytes n ≤ n + 15 := by
  unfold blockBytes
  omega

/-- The memory after `w` bytes of a source were copied. -/
def copied (mem : ℕ → Byte) (dst w : ℕ) (src : ℕ → Byte) : ℕ → Byte := fun q =>
  if dst ≤ q ∧ q < dst + w then src (q - dst) else mem q

theorem copied_zero (mem : ℕ → Byte) (dst : ℕ) (src : ℕ → Byte) : copied mem dst 0 src = mem := by
  funext q
  exact if_neg (by omega)

/-- Bytes are copied behind others. -/
theorem copied_behind (mem : ℕ → Byte) (dst v w : ℕ) (src : ℕ → Byte) :
    copied (copied mem dst v src) (dst + v) w (fun m => src (v + m)) = copied mem dst
      (v + w) src := by
  funext q
  unfold copied
  by_cases hlater : dst + v ≤ q ∧ q < dst + v + w
  · have hin : dst ≤ q ∧ q < dst + (v + w) := by omega
    have hsub : v + (q - (dst + v)) = q - dst := by omega
    rw [if_pos hlater, if_pos hin]
    exact congrArg src hsub
  · rw [if_neg hlater]
    by_cases hfirst : dst ≤ q ∧ q < dst + v
    · rw [if_pos hfirst, if_pos (by omega)]
    · rw [if_neg hfirst, if_neg (by omega)]

/-- The loop writes whole blocks, one after the other. -/
theorem smallImpl_eq (src : ℕ → Byte) (blocks : ℕ) (mem : ℕ → Byte) (dst k : ℕ) (n : ℤ)
    (hn : n ≤ 16 * blocks) :
    memcpySmallAllowReadWriteOverflow15Impl src blocks mem dst k n =
      (blockBytes n.toNat, copied mem dst (blockBytes n.toNat) fun m => src (k + m)) := by
  have hnone : n ≤ 0 → blockBytes n.toNat = 0 := by
    intro h0
    unfold blockBytes
    omega
  induction blocks generalizing mem dst k n with
  | zero =>
    rw [hnone (by omega), copied_zero]
    rfl
  | succ blocks ih =>
    unfold memcpySmallAllowReadWriteOverflow15Impl
    split
    · have hmore : blockBytes n.toNat = 16 + blockBytes (n - 16).toNat := by
        unfold blockBytes
        omega
      have hrest := ih (copied mem dst 16 fun m => src (k + m)) (dst + 16) (k + 16) (n - 16)
        (by omega) fun h0 => by
        unfold blockBytes
        omega
      have hsrc : (fun m => src (k + 16 + m)) = fun m => src (k + (16 + m)) :=
        funext fun m => by rw [Nat.add_assoc]
      rw [hsrc, copied_behind mem dst 16 _ fun m => src (k + m), ← hmore] at hrest
      have hwritten := congrArg (fun r : ℕ × (ℕ → Byte) => 16 + r.1) hrest
      have hmem := congrArg Prod.snd hrest
      exact Prod.ext (hwritten.trans hmore.symm) hmem
    · rename_i hstop
      rw [hnone (by omega), copied_zero]

theorem small_eq (mem : ℕ → Byte) (dst n : Size) (src : ℕ → Byte) :
    memcpySmallAllowReadWriteOverflow15 mem dst src n =
      (blockBytes n.toInt.toNat, copied mem dst.toNat (blockBytes n.toInt.toNat) src) := by
  have hle : n.toInt ≤ 16 * (n.toNat : ℤ) := by
    have hlt := n.isLt
    rw [BitVec.toInt_eq_toNat_cond]
    split
    · omega
    · omega
  rw [memcpySmallAllowReadWriteOverflow15, smallImpl_eq src n.toNat mem dst.toNat 0 n.toInt hle]
  simp only [Nat.zero_add]

/-- A number of bytes is an `ssize_t`, or nothing is copied. -/
theorem toInt_toNat (n : Size) : n.toInt.toNat = if n.toNat < 2 ^ 63 then n.toNat else 0 := by
  have hlt := n.isLt
  rw [BitVec.toInt_eq_toNat_cond]
  split
  · rw [if_pos (by omega)]
    omega
  · rw [if_neg (by omega)]
    omega

/-! ### The padding -/

/-- The right padding is as large as it was asserted, or nothing. -/
theorem Template.padRight_cases :
    (C.rightArg.toNat + C.elementSize.toNat ≤ 2 ^ 64 ∧ C.rightArg.toNat ≤ C.padRight.toNat) ∨
    (2 ^ 64 < C.rightArg.toNat + C.elementSize.toNat ∧ C.padRight = 0) := by
  have hE := C.elementSize_pos
  have hlt := C.rightArg.isLt
  have hlt' := C.elementSize.isLt
  have hone : (C.elementSize - 1).toNat = C.elementSize.toNat - 1 :=
    BitVec.toNat_sub_of_le (BitVec.le_def.mpr hE)
  have hsum : (C.rightArg + C.elementSize - 1).toNat =
      (C.rightArg.toNat + (C.elementSize.toNat - 1)) % 2 ^ 64 := by
    rw [add_sub_assoc, BitVec.toNat_add, hone]
  have hround := toNat_integerRoundUp C.rightArg C.elementSize
  rw [hsum] at hround
  rcases Nat.lt_or_ge (2 ^ 64) (C.rightArg.toNat + C.elementSize.toNat) with hwrap | hfits
  · refine .inr ⟨hwrap, BitVec.eq_of_toNat_eq ?_⟩
    have hmod : (C.rightArg.toNat + (C.elementSize.toNat - 1)) % 2 ^ 64 < C.elementSize.toNat := by
      omega
    rw [Nat.div_eq_of_lt hmod, Nat.zero_mul] at hround
    exact hround
  · refine .inl ⟨hfits, ?_⟩
    have hmod : (C.rightArg.toNat + (C.elementSize.toNat - 1)) % 2 ^ 64 =
        C.rightArg.toNat + (C.elementSize.toNat - 1) :=
      Nat.mod_eq_of_lt (by omega)
    rw [hmod] at hround
    have hdiv := Nat.div_add_mod' (C.rightArg.toNat + (C.elementSize.toNat - 1)) C.elementSize.toNat
    have hrest := Nat.mod_lt (C.rightArg.toNat + (C.elementSize.toNat - 1)) hE
    have hpad : C.padRight.toNat = _ := hround
    omega

/-! ### The elements -/

/-- The same list, stored at another place. -/
theorem storeRecords_shift {β : Type} {w p q : ℕ} {mem mem' : ℕ → β} {xs : List (Fin w → β)}
    (h1 : p ≤ q) (h2 : q < p + xs.length * w) :
    storeRecords mem 0 xs (q - p) = storeRecords mem' p xs q := by
  have hlt : q - p < xs.length * w := by omega
  rw [storeRecords, storeRecords, dif_pos ⟨Nat.zero_le _, hlt⟩, dif_pos ⟨h1, hlt⟩]
  rfl

/-- The elements after at least those of the range were copied behind the old ones. -/
theorem records_copied {m n w : ℕ} {mem : ℕ → Byte} (hw : ys.length * C.elementSize.toNat ≤ w) :
    records C.elementSize.toNat
      (copied mem (m + n * C.elementSize.toNat) w (rangeBytes ys behind)) m (n + ys.length) =
      records C.elementSize.toNat mem m n ++ ys := by
  rw [← records_store_append]
  refine records_congr fun q hq hq' => ?_
  rw [Nat.add_mul] at hq'
  by_cases hlt : q < m + n * C.elementSize.toNat
  · rw [storeRecords_frame (.inl hlt)]
    exact if_neg (by omega)
  · rw [copied, if_pos (by omega)]
    exact storeRecords_shift (by omega) (by omega)

/-! ### The block -/

theorem smallWritten_eq {n : ℕ} (hn : (n + ys.length) * C.elementSize.toNat < 2 ^ 64) :
    smallWritten ys behind t =
    blockBytes (if ys.length * C.elementSize.toNat < 2 ^ 63 then ys.length * C.elementSize.toNat
      else 0) := by
  have hcount := toNat_count_of_lt hn
  rw [Nat.add_mul] at hn
  have hbytes : (C.byteSize (count ys)).toNat = ys.length * C.elementSize.toNat := by
    rw [Template.toNat_byteSize (by rw [hcount]; omega), hcount]
  rw [smallWritten, small_eq, toInt_toNat, hbytes]

/-- The array after the call. -/
theorem insertSmall_eq (ht : insertPrepare C (count ys) s = some t)
    (hr : insertSmall ys behind s = some r) :
    r.2 = { t.2 with cEnd := t.2.cEnd + C.byteSize (count ys) } ∧ Keeps C t r ∧
      r.1.mem = copied t.1.mem t.2.cEnd.toNat (smallWritten ys behind t)
        (rangeBytes ys behind) := by
  rw [insertSmall, ht, Option.map_some] at hr
  obtain rfl := Option.some.inj hr
  refine ⟨rfl, Keeps.same, ?_⟩
  unfold smallWritten
  rw [small_eq]
  exact congrArg Prod.snd (small_eq _ _ _ _)

/-- The bytes of the block that is prepared. -/
theorem prepared_allocated {k : ℕ} (hn : (s.2.size C).toNat + k < 2 ^ 64)
    (hs : insertPrepare C (BitVec.ofNat 64 k) s = some t)
    (hf : Grows C s.2 ((s.2.size C).toNat + k)) :
    (t.2.allocatedBytes C).toNat = preparedBytes C s.2 k := by
  rw [insertPrepare_eq hn] at hs
  unfold preparedBytes
  by_cases hcap : (s.2.size C).toNat + k ≤ (s.2.capacity C).toNat
  · rw [if_neg (by omega)] at hs
    obtain rfl := Option.some.inj hs
    rw [if_pos hcap]
  · have hlt := not_le.mp hcap
    have hfor := hf.resolve_left hcap
    have hpos := Nat.zero_lt_of_lt hlt
    have hround :=
      toNat_roundUp_ofNat hpos ((le_twoPow _).trans ((Template.le_bytesFor _).trans hfor))
    have hmin :
        (C.minimumMemoryForElements (roundUpToPowerOfTwoOrZero
        (BitVec.ofNat 64 ((s.2.size C).toNat + k)))).toNat =
        C.bytesFor (2 ^ ((s.2.size C).toNat + k - 1).size) := by
      rw [Template.toNat_minimumMemory (by rw [hround]; omega), hround]
    have hgrow : s.2.capacity C < roundUpToPowerOfTwoOrZero
        (BitVec.ofNat 64 ((s.2.size C).toNat + k)) := by
      rw [BitVec.lt_def, hround]
      exact hlt.trans_le (le_twoPow _)
    rw [if_pos ⟨hlt, hgrow⟩] at hs
    rw [realloc_allocated hs, Template.bytesRequested,
      roundUp_eq (by rw [hmin]; exact bytesFor_pos (Nat.two_pow_pos _))
      (by rw [hmin]; exact hfor), hmin, if_neg hcap]

/-- The last block ends before the right padding does. -/
theorem lastFits_iff {k : ℕ} (h15 : 15 ≤ C.rightArg.toNat) (hb : Bounds C t.2)
    (hbare : t.2.cStart = C.null → t.2.cEndOfStorage = C.null)
    (hsize : (a.size C).toNat = (t.2.size C).toNat)
    (halloc : (t.2.allocatedBytes C).toNat = preparedBytes C a k)
    (hcap : (t.2.size C).toNat + k ≤ (t.2.capacity C).toNat) :
    LastFits C a k ↔
      t.2.cEnd.toNat + blockBytes (k * C.elementSize.toNat) ≤
        t.2.cEndOfStorage.toNat + C.padRight.toNat := by
  have hroom := hb.le_capacity.mp hcap
  rw [Nat.add_mul] at hroom
  have hend := hb.toNat_end
  have hW := blockBytes_le (k * C.elementSize.toNat)
  unfold LastFits
  rcases C.padRight_cases with ⟨hle, hpad⟩ | ⟨hwrap, hzero⟩
  · exact iff_of_true (.inl hle) (by omega)
  · rw [or_iff_right (not_le.mpr hwrap), hsize, ← halloc, hzero, toNat_zero]
    by_cases hnull : t.2.cStart = C.null
    · have hsame : t.2.cEndOfStorage = t.2.cStart := (hbare hnull).trans hnull.symm
      have hbytes : t.2.allocatedBytes C = C.padLeft := by
        rw [Arr.allocatedBytes, hsame, sub_self, zero_add, hzero, zero_add]
      rw [hbytes, hsame, hend]
      omega
    · have hbytes := hb.allocated hnull
      rw [hzero, toNat_zero] at hbytes
      have hle := hb.start_le.trans hb.end_le
      omega

theorem prepared_does (hn : (s.2.size C).toNat + ys.length < 2 ^ 64)
    (ho : Own C s.1 (Function.update arrays i (some s.2))) (hb : Bounds C s.2)
    (ht : insertPrepare C (count ys) s = some t)
    (hf : Grows C s.2 ((s.2.size C).toNat + ys.length)) :
    Does C arrays i s t Eq ∧ (t.2.size C).toNat + ys.length ≤ (t.2.capacity C).toNat := by
  rw [insertPrepare, count, ofNat_add_length] at ht
  obtain ⟨hd, hcap⟩ := Does.require ho hb ht hn hf
  exact ⟨hd, hd.size_eq ▸ hcap⟩

section Inserting

variable (h15 : 15 ≤ C.rightArg.toNat) (hg : Ordered C st) (hi : st.arrays i = some a)
  (hn : ((a.size C).toNat + ys.length) * C.elementSize.toNat < 2 ^ 64)
  (ht : insertPrepare C (count ys) (st.heap, a) = some t)
  (hr : insertSmall ys behind (st.heap, a) = some r)
include h15 hg hi hn ht hr

/-- What an insertion that went well says of the sizes. -/
theorem SmallInserted.fits (h : SmallInserted C st (st.set i r) i a t ys behind) :
    Grows C a ((a.size C).toNat + ys.length) ∧ ys.length * C.elementSize.toNat < 2 ^ 63 ∧
    LastFits C a ys.length := by
  have ho := (update_self_eq hi).symm ▸ hg.own
  have hlt := (Nat.le_mul_of_pos_right ((a.size C).toNat + ys.length) C.elementSize_pos).trans_lt hn
  have hsame : (st.set i r).arrays i = some r.2 := Function.update_self ..
  obtain ⟨harr, -, -⟩ := insertSmall_eq ht hr
  have hwritten : smallWritten ys behind t = _ := smallWritten_eq hn
  have hbr := h.ordered.bounds i r.2 hsame
  have hbare := h.ordered.own.bare i r.2 hsame
  have hsize : (r.2.size C).toNat = (a.size C).toNat + ys.length := by
    rw [← Arr.length_contents C r.2 r.1.mem, lists_set.mp h.appended, List.length_append,
      Arr.length_contents]
  have hroom := hsize.symm.trans_le hbr.size_le_capacity
  rw [harr] at hbr hbare hroom
  have hgrows := Grows.of_bounds (s := (st.heap, a)) hlt ht hbr hbare hroom
  have hsmall : ys.length * C.elementSize.toNat < 2 ^ 63 := by
    by_contra hlarge
    have hcopied := h.copied
    rw [hwritten, if_neg hlarge] at hcopied
    exact hlarge (lt_of_le_of_lt hcopied (by decide))
  rw [if_pos hsmall] at hwritten
  obtain ⟨hd, hcap⟩ := prepared_does (s := (st.heap, a)) hlt ho (hg.bounds i a hi) ht hgrows
  have halloc := prepared_allocated (s := (st.heap, a)) hlt ht hgrows
  refine ⟨hgrows, hsmall, (lastFits_iff h15 hd.bounds hbare hd.size_eq halloc hcap).mpr ?_⟩
  have hle := hd.bounds.end_le
  rcases Nat.eq_zero_or_pos (blockBytes (ys.length * C.elementSize.toNat)) with h0 | hpos
  · omega
  · -- the last byte that is written
    obtain ⟨c, d, hc, hdm, hcd, -, hlast⟩ :=
      h.inside (t.2.cEnd.toNat + blockBytes (ys.length * C.elementSize.toNat) - 1)
      (by omega) (by omega)
    obtain rfl := Option.some.inj (hsame.symm.trans hc)
    have hstop := (hcd.inside (h.ordered.own.wf.placed d hdm) (h.ordered.bounds i r.2 hsame)).stop
    rw [harr] at hstop
    dsimp only at hstop
    omega

theorem SmallInserted.of_fits (hgrows : Grows C a ((a.size C).toNat + ys.length))
    (hsmall : ys.length * C.elementSize.toNat < 2 ^ 63) (hlast : LastFits C a ys.length) :
    SmallInserted C st (st.set i r) i a t ys behind := by
  have ho := (update_self_eq hi).symm ▸ hg.own
  have hlt := (Nat.le_mul_of_pos_right ((a.size C).toNat + ys.length) C.elementSize_pos).trans_lt hn
  have hcount := toNat_count_of_lt hn
  obtain ⟨harr, hkeeps, hmem⟩ := insertSmall_eq ht hr
  have hwritten : smallWritten ys behind t = _ := smallWritten_eq hn
  rw [if_pos hsmall] at hwritten
  obtain ⟨hd, hcap⟩ := prepared_does (s := (st.heap, a)) hlt ho (hg.bounds i a hi) ht hgrows
  have hbare := hd.own.bare i t.2 update_same
  have halloc := prepared_allocated (s := (st.heap, a)) hlt ht hgrows
  have hfits := (lastFits_iff h15 hd.bounds hbare hd.size_eq halloc hcap).mp hlast
  rw [← hcount] at hcap
  have hq := hd.bounds.toNat_behind hcap
  have hbr : Bounds C r.2 := by
    rw [harr]
    exact hd.bounds.setEnd hq hcap
  have hown := hkeeps st.arrays i hd.own
  refine ⟨hg.update hown hbr, lists_set.mpr ?_, ?_, fun q hq1 hq2 => ?_⟩
  · have hsize : (r.2.size C).toNat = (t.2.size C).toNat + ys.length := by
      rw [harr, (hd.bounds.setEnd hq hcap).size_eq hq, hcount]
    have hstart : r.2.cStart = t.2.cStart := by rw [harr]
    rw [Arr.contents, hsize, hmem, hstart, hd.bounds.toNat_end, hwritten,
      records_copied (blockBytes_ge _)]
    exact congrArg (· ++ ys) hd.lists.symm
  · rw [hwritten]
    exact blockBytes_ge _
  · have hpos : 0 < (count ys).toNat := by
      by_contra h0
      have hzero : ys.length = 0 := by omega
      rw [hwritten, hzero, Nat.zero_mul, blockBytes] at hq2
      omega
    have hnull : r.2.cStart ≠ C.null := by
      rw [harr]
      exact hd.bounds.ne_null hbare (Nat.add_pos_right _ hpos) hcap
    obtain ⟨d, hdm, hin⟩ := hown.inside update_same hbr hnull
    have hstart := hin.start
    have hstop := hin.stop
    have hend := hd.bounds.toNat_end
    rw [harr] at hstart hstop
    dsimp only at hstart hstop
    exact ⟨r.2, d, update_same, hdm, hin.owns, by omega, by omega⟩

end Inserting

/-- **Insertion of a small range**: the elements are appended and all writes are in the block if and
only if the bytes that are allocated are right, the range's are an `ssize_t`, and the last block of
16 fits. The array and the range are in a memory of `2⁶⁴` bytes. -/
theorem smallInserted_iff (h15 : 15 ≤ C.rightArg.toNat) (hg : Ordered C st)
    (hi : st.arrays i = some a) (hn : ((a.size C).toNat + ys.length) * C.elementSize.toNat < 2 ^ 64)
    (ht : insertPrepare C (count ys) (st.heap, a) = some t)
    (hs : step st (.call i (.insertSmall ys behind)) = some st') :
    SmallInserted C st st' i a t ys behind ↔
      Grows C a ((a.size C).toNat + ys.length) ∧ ys.length * C.elementSize.toNat < 2 ^ 63 ∧
        LastFits C a ys.length := by
  obtain ⟨r, hr, rfl⟩ := step_call hi hs
  exact ⟨SmallInserted.fits h15 hg hi hn ht hr, fun ⟨hgrows, hsmall, hlast⟩ =>
    SmallInserted.of_fits h15 hg hi hn ht hr hgrows hsmall hlast⟩

/-- Three elements of a `vector`. -/
theorem smallInserted_iff_three :
    ∃ (st st' : State) (a : Arr) (t : Heap × Arr), st.arrays 0 = some a ∧ a.size vector = 0 ∧
    step st (.call 0 (.insertSmall [fun _ => 5, fun _ => 6, fun _ => 7] fun _ => 9) : Op vector) =
      some st' ∧
      SmallInserted vector st st' 0 a t [fun _ => 5, fun _ => 6, fun _ => 7] fun _ => 9 := by
  have h0 : OrderlyVectors (start fun _ => 65536) := .init (start_initial (by decide) _)
  have h1 := h0.step (a := Op.create 0 (-1)) ⟨trivial, trivial⟩ rfl
  exact ⟨_, _, _, _, rfl, by decide, rfl,
    (smallInserted_iff (by decide) (Ordered.of_reach h1) rfl (by decide) rfl rfl).mpr
    ⟨.inr (by decide), by decide, .inl (by decide)⟩⟩

/-- `PODArray` of elements of eight bytes, with the largest `pad_right_`. -/
def widest : Template where
  elementSize := 8
  initialSize := 4096
  rightArg := 18446744073709551615
  leftArg := 0
  emptyPODArray := 16384
  elementSize_pos := by decide
  assert := by decide
  placed := by decide

/-- One element, in a block of eight bytes: 16 are written. -/
theorem not_smallInserted : ∃ (st st' : State) (a : Arr) (t : Heap × Arr),
    ((podArrays widest).Reach (fun st op => op.Fits st ∧ op.Orderly st) st ∧ st.arrays 0 = some a) ∧
      15 ≤ widest.rightArg.toNat ∧ insertPrepare widest 1 (st.heap, a) = some t ∧
      step st (.call 0 (.insertSmall [fun _ => 7] fun _ => 9) : Op widest) = some st' ∧
        ¬ SmallInserted widest st st' 0 a t [fun _ => 7] fun _ => 9 := by
  have h0 : (podArrays widest).Reach (fun st op => op.Fits st ∧ op.Orderly st)
      (start fun _ => 65536) :=
    .init (start_initial (by decide) _)
  have h1 := h0.step (a := Op.create 0 (-1)) ⟨trivial, trivial⟩ rfl
  refine ⟨_, _, _, _, ⟨h1, rfl⟩, by decide, rfl, rfl, fun hinserted => ?_⟩
  obtain ⟨c, d, hc, -, ⟨-, hbase, hsize⟩, -, hlast⟩ :=
    hinserted.inside (65536 + 15) (by decide) (by decide)
  obtain rfl := Option.some.inj hc
  rw [← hbase, ← hsize] at hlast
  exact absurd hlast (by decide)

end NetworkDemo.PODArray
