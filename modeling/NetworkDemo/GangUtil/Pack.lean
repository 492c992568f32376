import NetworkDemo.Foundations.Stores
import NetworkDemo.GangUtil.CountSerial

/-!
# Packing

`pack` writes `f(i)` for every selected index `i`, in increasing order, to consecutive
places of `out`. An array of more than `BLOCK_SIZE` flags is done by blocks: the blocks
are counted, the counts scanned in place, and then every block is packed to where the
blocks before it end.

## The model

The memory of the output is `Memory`, which has a record of the stores, and `out` is a
place in it, or null. `std::is_rvalue_reference_v<decltype(out)>` is always true, `out`
being a `T*&&`, so a null `out` is refused and nothing is ever allocated for it. The
tasks of either `groupSubmit` run in any order (`PackSchedule`).

* `packSerial_eq` — the serial function stores the list of the selected.
* `pack_packs` — and so does the other, blocks or not, each place being written once.
-/

namespace NetworkDemo.GangUtil

open Foundations CTy

variable {α : Type}

/-! ### The functions -/

/-- One turn of `packSerial`. -/
def packTurn (out : ℕ) (sel : ℕ → Bool) (f : ℕ → α) : ℕ × Memory α → ℕ → ℕ × Memory α
  | (k, m), i => if sel i = true then (k + 1, m.store (out + k) (f i)) else (k, m)

/-- The loop of `packSerial` from `b` to `e`. -/
def packLoop (out : ℕ) (sel : ℕ → Bool) (b e : ℕ) (f : ℕ → α) (m : Memory α) : ℕ × Memory α :=
  (List.range' b (e - b)).foldl (packTurn out sel f) (0, m)

/-- `packSerial` for an integer type. -/
def packSerialInt {U : CTy} (out : ℕ) (input : ℕ → U.Val) (b e : ℕ) (f : ℕ → α) (m : Memory α) :
    ℕ × Memory α :=
  packLoop out (fun i => notMax (input i)) b e f m

/-- `packSerial` for `bool`. -/
def packSerialBool (out : ℕ) (input : ℕ → Bool) (b e : ℕ) (f : ℕ → α) (m : Memory α) :
    ℕ × Memory α :=
  packLoop out input b e f m

/-- `packSerial(out, in, b, e, f)`, the overload by the type. -/
def packSerial : {U : CTy} → (out : ℕ) → (input : ℕ → U.Val) → (b e : ℕ) → (f : ℕ → α) →
    Memory α → ℕ × Memory α
  | .bool => packSerialBool
  | .unsigned _ => packSerialInt
  | .signed _ => packSerialInt

/-- The order the blocks are counted and packed in, and what is in the memory for `sums`. -/
structure PackSchedule where
  counting : ℕ → List ℕ
  packing : ℕ → List ℕ
  counting_perm : ∀ n, (counting n).Perm (List.range n)
  packing_perm : ∀ n, (packing n).Perm (List.range n)
  scanning : Schedule sizeT
  fresh : ℕ → sizeT.Val

/-- The first `groupSubmit` of `pack`: `sums[j]` becomes the count of block `j`. -/
def countBlocks {U : CTy} (order : List ℕ) (addr : ℕ) (input : ℕ → U.Val) (n : ℕ)
    (sums : ℕ → sizeT.Val) :
    ℕ → sizeT.Val :=
  groupSubmit order (fun j sums => Function.update sums j
    (countSerial addr input (j * BLOCK_SIZE) (blockLen n j))) sums

/-- The second: block `j` is packed to `out + sums[j]`. -/
def packBlocks {U : CTy} (order : List ℕ) (out : ℕ) (input : ℕ → U.Val) (n : ℕ) (f : ℕ → α)
    (sums : ℕ → sizeT.Val) (m : Memory α) : Memory α :=
  groupSubmit order (fun j m =>
    (packSerial (out + (sums j).toNat) input (j * BLOCK_SIZE)
      (j * BLOCK_SIZE + blockLen n j) f m).2) m

/-- `pack(out, in, n, f)`, `in` at address `addr`. -/
def pack {U : CTy} (env : PackSchedule) (addr : ℕ) (out : Option ℕ) (input : ℕ → U.Val)
    (n : ℕ) (f : ℕ → α) (m : Memory α) : Except String (sizeT.Val × Memory α) :=
  match out with
  | none => .error "invalid"
  | some out =>
    if numBlocks n ≤ 1 then
      let (k, m) := packSerial out input 0 n f m
      .ok (toSize k, m)
    else
      let sums := countBlocks (env.counting (numBlocks n)) addr input n env.fresh
      let (r, sums) := scanPlus env.scanning (sizeT.ofInt 0) (.same : Reader sizeT sizeT)
        (numBlocks n) sums
      .ok (r, packBlocks (env.packing (numBlocks n)) out input n f sums m)

/-- `packIndex(out, in, n)`, `out` being an array of `T`. -/
def packIndex {T U : CTy} (env : PackSchedule) (addr : ℕ) (out : Option ℕ)
    (input : ℕ → U.Val) (n : ℕ) (m : Memory T.Val) : Except String (sizeT.Val × Memory T.Val) :=
  pack env addr out input n (fun i => conv T (toSize i)) m

/-- `filter(out, in, n)`. -/
def filter {U : CTy} (env : PackSchedule) (addr : ℕ) (out : Option ℕ) (input : ℕ → U.Val) (n : ℕ)
    (m : Memory U.Val) : Except String (sizeT.Val × Memory U.Val) :=
  pack env addr out input n (fun i => input i) m

theorem pack_serial {U : CTy} {env : PackSchedule} {addr out n : ℕ} {input : ℕ → U.Val} {f : ℕ → α}
    {m : Memory α} (hn : numBlocks n ≤ 1) : pack env addr (some out) input n f m =
      .ok (toSize (packSerial out input 0 n f m).1, (packSerial out input 0 n f m).2) := if_pos hn

theorem pack_blocks {U : CTy} {env : PackSchedule} {addr out n : ℕ} {input : ℕ → U.Val} {f : ℕ → α}
    {m : Memory α} {p : sizeT.Val × (ℕ → sizeT.Val)} (hn : ¬ numBlocks n ≤ 1)
    (hp : p = scanPlus env.scanning (sizeT.ofInt 0) (.same : Reader sizeT sizeT) (numBlocks n)
      (countBlocks (env.counting (numBlocks n)) addr input n env.fresh)) : pack env addr
        (some out) input n f m =
      .ok (p.1, packBlocks (env.packing (numBlocks n)) out input n f p.2 m) := by
  subst hp
  exact if_neg hn

/-! ### The serial function -/

section Serial

variable {out b e : ℕ} {sel : ℕ → Bool} {f : ℕ → α} {m : Memory α}

/-- `f(i)` for the selected `i` of `is`, in their order. -/
def picked (sel : ℕ → Bool) (f : ℕ → α) (is : List ℕ) : List α := (is.filter sel).map f

theorem foldl_packTurn (is : List ℕ) (k : ℕ) : is.foldl (packTurn out sel f) (k, m) =
    (k + (picked sel f is).length, m.storeAll (out + k) (picked sel f is)) := by
  induction is generalizing k m with
  | nil => rfl
  | cons i is ih =>
    rw [List.foldl_cons]
    cases hi : sel i with
    | false =>
      have hturn : packTurn out sel f (k, m) i = (k, m) := by simp [packTurn, hi]
      have hpick : picked sel f (i :: is) = picked sel f is := by simp [picked, hi]
      rw [hturn, hpick, ih]
    | true =>
      have hturn : packTurn out sel f (k, m) i = (k + 1, m.store (out + k) (f i)) := by
        simp [packTurn, hi]
      have hpick : picked sel f (i :: is) = f i :: picked sel f is := by simp [picked, hi]
      rw [hturn, hpick, ih, List.length_cons, Nat.add_assoc, Nat.add_comm 1]
      rfl

/-- Both overloads store the list of the selected. -/
theorem packSerial_eq {U : CTy} (out : ℕ) (input : ℕ → U.Val) (b e : ℕ) (f : ℕ → α) (m : Memory α) :
    packSerial out input b e f m =
    ((picked (fun i => selected (input i)) f (List.range' b (e - b))).length,
      m.storeAll out (picked (fun i => selected (input i)) f (List.range' b (e - b)))) := by
  have hloop : ∀ sel, packLoop out sel b e f m =
      ((picked sel f (List.range' b (e - b))).length,
        m.storeAll out (picked sel f (List.range' b (e - b)))) := by
    intro sel
    unfold packLoop
    rw [foldl_packTurn, Nat.zero_add]
    rfl
  cases U with
  | bool => exact hloop _
  | unsigned w => exact hloop _
  | signed w => exact hloop _

theorem length_picked (b n : ℕ) :
    (picked sel f (List.range' b n)).length = Nat.count (fun i => sel (b + i) = true) n := by
  induction n with
  | zero => rfl
  | succ n ih =>
    have happ : picked sel f (List.range' b (n + 1)) =
        picked sel f (List.range' b n) ++ picked sel f [b + n] := by
      rw [List.range'_1_concat]
      simp [picked]
    rw [happ, List.length_append, ih, Nat.count_succ]
    cases h : sel (b + n) <;> simp [picked, h]

end Serial

/-! ### By blocks -/

section Blocks

variable {U : CTy} {n : ℕ} {input : ℕ → U.Val} {f : ℕ → α}

/-- What block `j` stores. -/
def piece (input : ℕ → U.Val) (f : ℕ → α) (n j : ℕ) : List α :=
  picked (fun i => selected (input i)) f (List.range' (blockStart n j) (blockStart n
    (j + 1) - blockStart n j))

/-- The pieces one after the other. -/
theorem pieces_eq : (List.range (numBlocks n)).flatMap (piece input f n) =
    picked (fun i => selected (input i)) f (List.range n) := by
  unfold piece picked
  rw [← List.map_flatMap, ← List.filter_flatMap, flatMap_blocks (blockStart_mono n)
    (blockStart_zero n), blockStart_last]

theorem length_pieces_le (input : ℕ → U.Val) (f : ℕ → α) (j : ℕ) (hj : j ≤ numBlocks n) :
    ((List.range j).flatMap (piece input f n)).length ≤ n := by
  have hle : ((List.range j).flatMap (piece input f n)).length ≤
      ((List.range (numBlocks n)).flatMap (piece input f n)).length := by
    have := Memory.start_mono (piece input f n) 0 hj
    simp only [Memory.start] at this
    omega
  rw [pieces_eq, picked, List.length_map] at hle
  have hfilter := List.length_filter_le (fun i => selected (input i)) (List.range n)
  rw [List.length_range] at hfilter
  exact hle.trans hfilter

theorem blockLen_le (j : ℕ) (hj : j < numBlocks n) : blockLen n j ≤ BLOCK_SIZE := by
  have hend := blockLen_end hj
  have : blockStart n (j + 1) ≤ (j + 1) * BLOCK_SIZE := Nat.min_le_left _ _
  rw [Nat.succ_mul] at this
  omega

/-- An integer type of 16 bits holds the length of a block. -/
theorem blockSize_le_max (hU : 16 ≤ U.bits) : (BLOCK_SIZE : ℤ) ≤ U.max := by
  cases U with
  | bool => exact absurd hU (by decide)
  | unsigned w => cases w <;> revert hU <;> decide
  | signed w => cases w <;> revert hU <;> decide

theorem countBlocks_apply {order : List ℕ} (addr : ℕ) (sums : ℕ → sizeT.Val)
    (hU : U = .bool ∨ 16 ≤ U.bits) {j : ℕ} (hj : j < numBlocks n) (ho : j ∈ order) :
    countBlocks order addr input n sums j = toSize (piece input f n j).length := by
  have hfit : U = .bool ∨ (blockLen n j : ℤ) ≤ U.max := hU.imp_right fun h => by
    have := blockSize_le_max h
    have := blockLen_le j hj
    omega
  refine (foldl_update _ order sums j).trans ((if_pos ho).trans ?_)
  rw [countSerial_eq addr input _ hfit, piece, length_picked, blockLen_eq hj, blockStart_of_lt hj]

theorem sum_toSize (g : ℕ → ℕ) (s : Finset ℕ) : ∑ j ∈ s, toSize (g j) = toSize (∑ j ∈ s, g j) := by
  induction s using Finset.induction_on with
  | empty => rfl
  | insert j s hj ih => rw [Finset.sum_insert hj, Finset.sum_insert hj, toSize_add, ih]

theorem sum_length (g : ℕ → List α) (j : ℕ) :
    ∑ i ∈ Finset.range j, (g i).length = ((List.range j).flatMap g).length := by
  rw [List.length_flatMap, ← List.sum_toFinset _ List.nodup_range, List.toFinset_range]

/-- The scan puts where each piece begins. -/
theorem scan_counts (env : Schedule sizeT) {sums : ℕ → sizeT.Val}
    (hs : ∀ j < numBlocks n, sums j = toSize (piece input f n j).length) :
    let res := scanPlus env (sizeT.ofInt 0) (.same : Reader sizeT sizeT) (numBlocks n) sums
    res.1 = toSize ((List.range (numBlocks n)).flatMap (piece input f n)).length ∧
      ∀ j < numBlocks n, res.2 j = toSize ((List.range j).flatMap (piece input f n)).length := by
  have hscan := scan_sums (T := sizeT) env scanAdds_plus scanAdds_plus .same (sizeT.ofInt 0) false 0
    (numBlocks n) false sums
  simp only [conv_self] at hscan
  have hzero : (sizeT.ofInt 0 : sizeT.Val) = 0 := rfl
  refine ⟨?_, fun j hj => ?_⟩
  · refine hscan.total.trans ?_
    rw [hzero, zero_add, ← sum_length, ← sum_toSize]
    exact Finset.sum_congr rfl fun j hj => hs j (Finset.mem_range.mp hj)
  · refine (hscan.sums j hj).trans ?_
    rw [hzero, zero_add, ← sum_length, ← sum_toSize]
    have hbefore : before (numBlocks n) false false j = Finset.range j := by
      ext k
      simp [before]
      omega
    rw [hbefore]
    exact Finset.sum_congr rfl fun k hk => hs k ((Finset.mem_range.mp hk).trans hj)

/-- Block by block, in any order. -/
theorem packBlocks_eq {order : List ℕ} (ho : order.Perm (List.range (numBlocks n)))
    {sums : ℕ → sizeT.Val} (out : ℕ) (m : Memory α) (hn : n < 2 ^ 64)
    (hs : ∀ j < numBlocks n, sums j = toSize ((List.range j).flatMap (piece input f n)).length) :
    packBlocks order out input n f sums m = m.storePieces (piece input f n) out order := by
  unfold packBlocks Memory.storePieces groupSubmit
  refine List.foldl_ext _ _ _ fun m j hj => ?_
  show (packSerial _ _ _ _ _ _).2 = _
  have hj' : j < numBlocks n := List.mem_range.mp (ho.mem_iff.mp hj)
  have hlt : ((List.range j).flatMap (piece input f n)).length < 2 ^ 64 :=
    (length_pieces_le input f j hj'.le).trans_lt hn
  rw [packSerial_eq, hs j hj', toNat_toSize hlt, Nat.add_sub_cancel_left, Memory.start, piece,
    blockLen_eq hj', blockStart_of_lt hj']

end Blocks

/-! ### The result -/

/-- What a packing of `xs` to `out` is to return and to leave. -/
structure Packed (xs : List α) (out : ℕ) (m : Memory α) (res : sizeT.Val × Memory α) : Prop where
  count : res.1.toNat = xs.length
  placed : ∀ (k : ℕ) (h : k < xs.length), res.2.cells (out + k) = xs[k]
  rest : ∀ q, q < out ∨ out + xs.length ≤ q → res.2.cells q = m.cells q
  once : ∃ w, res.2.written = m.written ++ w ∧ w.Perm (List.range' out xs.length)

theorem packed_of_storeAll {xs : List α} {out : ℕ} {m : Memory α} {res : sizeT.Val × Memory α}
    (hx : xs.length < 2 ^ 64) (hr : res.1 = toSize xs.length)
    (hc : res.2.cells = (m.storeAll out xs).cells)
    (hw : ∃ w, res.2.written = m.written ++ w ∧ w.Perm (List.range' out xs.length)) :
    Packed xs out m res where
  count := by rw [hr, toNat_toSize hx]
  placed k h := by rw [hc, Memory.storeAll_cells h]
  rest q h := by rw [hc, Memory.storeAll_frame h]
  once := hw

/-- It returns, and has packed. -/
def Packs (xs : List α) (out : ℕ) (m : Memory α) (res : Except String (sizeT.Val × Memory α)) :
    Prop :=
  ∃ r, res = .ok r ∧ Packed xs out m r

/-- `pack` packs. -/
theorem pack_packs {U : CTy} (env : PackSchedule) (addr out : ℕ) (input : ℕ → U.Val) {n : ℕ}
    (f : ℕ → α) (m : Memory α) (hU : U = .bool ∨ 16 ≤ U.bits) (hn : n < 2 ^ 64) :
    Packs (picked (fun i => selected (input i)) f (List.range n)) out m
      (pack env addr (some out) input n f m) := by
  have hlen : (picked (fun i => selected (input i)) f (List.range n)).length < 2 ^ 64 := by
    have := length_pieces_le input f _ (le_refl (numBlocks n))
    rw [pieces_eq] at this
    omega
  by_cases hnb : numBlocks n ≤ 1
  · have hser := packSerial_eq out input 0 n f m
    rw [Nat.sub_zero, ← List.range_eq_range'] at hser
    rw [pack_serial hnb, hser]
    exact ⟨_, rfl, packed_of_storeAll hlen rfl rfl ⟨_, Memory.storeAll_written, .refl _⟩⟩
  · have hcount : ∀ j < numBlocks n, countBlocks (env.counting (numBlocks n)) addr input
        n env.fresh j =
        toSize (piece input f n j).length := fun j hj =>
      countBlocks_apply addr _ hU hj ((env.counting_perm _).mem_iff.mpr (List.mem_range.mpr hj))
    obtain ⟨htotal, hstarts⟩ := scan_counts env.scanning hcount
    have hblocks := packBlocks_eq (env.packing_perm (numBlocks n)) out m hn hstarts
    have hwritten := m.storePieces_written (piece input f n) out (env.packing_perm (numBlocks n))
    rw [pieces_eq] at htotal hwritten
    rw [pack_blocks hnb rfl, hblocks]
    refine ⟨_, rfl, packed_of_storeAll hlen htotal ?_ hwritten⟩
    rw [Memory.storePieces_cells (env.packing_perm _), pieces_eq]

/-- A packing leaves the cells that the serial function leaves, and returns what it returns. -/
theorem Packed.serial {U : CTy} {out n : ℕ} {input : ℕ → U.Val} {f : ℕ → α} {m : Memory α}
    {r : sizeT.Val × Memory α}
    (h : Packed (picked (fun i => selected (input i)) f (List.range n)) out m r) :
    r.1.toNat = (packSerial out input 0 n f m).1 ∧
    r.2.cells = (packSerial out input 0 n f m).2.cells := by
  rw [packSerial_eq, Nat.sub_zero, ← List.range_eq_range']
  refine ⟨h.count, ?_⟩
  funext q
  by_cases hq : q < out ∨ out + (picked (fun i => selected (input i)) f (List.range n)).length ≤ q
  · rw [h.rest q hq]
    exact (Memory.storeAll_frame hq).symm
  · obtain ⟨k, rfl⟩ : ∃ k, q = out + k := ⟨q - out, by omega⟩
    have hk : k < (picked (fun i => selected (input i)) f (List.range n)).length := by omega
    rw [h.placed k hk]
    exact (Memory.storeAll_cells hk).symm

/-- **The parallel `pack` is the serial one**: `f(i)` for the selected indices in order, each place
written once, and nothing else; likewise the indices themselves, and the selected elements. -/
theorem pack_eq_serial {T U : CTy} (env : PackSchedule) (addr out : ℕ) (input : ℕ → U.Val)
    {n : ℕ} (f : ℕ → α) (m : Memory α) (i : Memory T.Val) (e : Memory U.Val)
    (hU : U = .bool ∨ 16 ≤ U.bits) (hn : n < 2 ^ 64) :
    (∃ r, pack env addr (some out) input n f m = .ok r ∧
      Packed (((List.range n).filter fun i => selected (input i)).map f) out m r ∧
      r.1.toNat = (packSerial out input 0 n f m).1 ∧
        r.2.cells = (packSerial out input 0 n f m).2.cells) ∧
    Packs (((List.range n).filter fun i => selected (input i)).map fun i => conv T (toSize i)) out i
      (packIndex env addr (some out) input n i) ∧
    Packs (((List.range n).filter fun i => selected (input i)).map input) out e
      (filter env addr (some out) input n e) := by
  refine ⟨?_, pack_packs env addr out input _ i hU hn, pack_packs env addr out input _ e hU hn⟩
  obtain ⟨r, hr, hp⟩ := pack_packs env addr out input f m hU hn
  exact ⟨r, hr, hp, hp.serial⟩

/-- Blocks in order. -/
def packInOrder : PackSchedule :=
  ⟨List.range, List.range, fun _ => .refl _, fun _ => .refl _, inOrder sizeT, fun _ => 0⟩

/-- A million flags, every third one set. -/
theorem pack_eq_serial_thirds :
    (∃ r, pack packInOrder 64 (some 0) (U := .bool) (fun i => i % 3 == 0) 1000000 (fun i => 2 * i)
        ⟨fun _ => 0, []⟩ = .ok r ∧
      Packed (((List.range 1000000).filter fun i => selected (U := .bool) (i % 3 == 0)).map fun i =>
        2 * i) 0 ⟨fun _ => 0, []⟩ r ∧
      r.1.toNat = (packSerial (U := .bool) 0 (fun i => i % 3 == 0) 0 1000000 (fun i => 2 * i)
        ⟨fun _ => 0, []⟩).1 ∧
      r.2.cells = (packSerial (U := .bool) 0 (fun i => i % 3 == 0) 0 1000000 (fun i => 2 * i)
        ⟨fun _ => 0, []⟩).2.cells) ∧
    Packs (((List.range 1000000).filter fun i => selected (U := .bool) (i % 3 == 0)).map fun i =>
      conv sizeT (toSize i)) 0
      ⟨fun _ => 0, []⟩ (packIndex (T := sizeT) (U := .bool) packInOrder 64 (some 0) (fun i =>
        i % 3 == 0) 1000000 ⟨fun _ => 0, []⟩) ∧
    Packs (((List.range 1000000).filter fun i => selected (U := .bool) (i % 3 == 0)).map fun i =>
      i % 3 == 0) 0
      ⟨fun _ => false, []⟩ (filter (U := .bool) packInOrder 64 (some 0) (fun i =>
        i % 3 == 0) 1000000 ⟨fun _ => false, []⟩) :=
  pack_eq_serial (T := sizeT) (U := .bool) packInOrder 64 0 (fun i => i % 3 == 0) (fun i => 2 * i)
    ⟨fun _ => 0, []⟩
    ⟨fun _ => 0, []⟩ ⟨fun _ => false, []⟩ (.inl rfl) (by decide)

end NetworkDemo.GangUtil
