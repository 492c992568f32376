import NetworkDemo.GangUtil.CountSerial

/-!
# Reading a `bool` array by words

`countSerial` of a `bool` array goes by its words in three of its four ways, which are here
with the memory the array is in: bytes by address, words with the low byte first. Each
function also returns the addresses of the bytes it has read, in the order it reads them.

* `countSerialAt_eq` — what is counted is what `countSerialBool` counts.
* `words_read` — the words of an array are its bytes, one after the other.
* `sumWords_lanes` — a byte of the sum of up to 255 words is the sum of their bytes.
* `bool_count` — all of it, for each way.
-/

namespace NetworkDemo.GangUtil

open Foundations CTy

/-! ### The functions -/

/-- The word of `L` bytes at `p`. -/
def wordAt (L : ℕ) (mem : ℕ → BitVec 8) (p : ℕ) : ℕ := ofLanes 8 (fun b => (mem (p + b)).toNat) L

/-- One turn of the inner loop, `rr += pi[j]`. -/
def addWord (L : ℕ) (mem : ℕ → BitVec 8) (pi : ℕ) : ℕ × List ℕ → ℕ → ℕ × List ℕ
  | (rr, read), j =>
    ((rr + wordAt L mem (pi + j * L)) % 2 ^ (8 * L), read ++ List.range' (pi + j * L) L)

/-- The inner loop of so many turns. -/
def sumWords (L : ℕ) (mem : ℕ → BitVec 8) (pi turns : ℕ) (read : List ℕ) : ℕ × List ℕ :=
  (List.range turns).foldl (addWord L mem pi) (0, read)

/-- One turn of the outer loop. -/
def addChunk (L : ℕ) (mem : ℕ → BitVec 8) (addr : ℕ) : sizeT.Val × List ℕ → ℕ → sizeT.Val × List ℕ
  | (r, read), k =>
    let p := sumWords L mem (addr + k * 128 * L) 128 read
    (r + toSize (addBytes L p.1), p.2)

/-- The way by words of `L` bytes. -/
def countSerialWords (L : ℕ) (mem : ℕ → BitVec 8) (addr n : ℕ) : sizeT.Val × List ℕ :=
  (List.range (n / (128 * L))).foldl (addChunk L mem addr) (0, [])

/-- One turn of the plain loop, `r += in[j]`. -/
def addByte (mem : ℕ → BitVec 8) (addr : ℕ) : sizeT.Val × List ℕ → ℕ → sizeT.Val × List ℕ
  | (r, read), j => (r + toSize (mem (addr + j)).toNat, read ++ [addr + j])

/-- The plain loop. -/
def countSerialBytes (mem : ℕ → BitVec 8) (addr n : ℕ) : sizeT.Val × List ℕ :=
  (List.range n).foldl (addByte mem addr) (0, [])

/-- `countSerial(in, n)` for an array of `bool` at address `addr`. -/
def countSerialAt (mem : ℕ → BitVec 8) (addr n : ℕ) : sizeT.Val × List ℕ :=
  if n &&& 1023 = 0 ∧ addr &&& 7 = 0 then countSerialWords 8 mem addr n
  else if n &&& 511 = 0 ∧ addr &&& 3 = 0 then countSerialWords 4 mem addr n
  else if n &&& 255 = 0 ∧ addr &&& 1 = 0 then countSerialWords 2 mem addr n
  else countSerialBytes mem addr n

/-! ### What is read -/

section Read

variable {L : ℕ} {mem : ℕ → BitVec 8} {addr n : ℕ}

theorem sumWords_eq (L : ℕ) (mem : ℕ → BitVec 8) (pi turns : ℕ) (read : List ℕ) :
    sumWords L mem pi turns read =
    ((∑ j ∈ Finset.range turns, wordAt L mem (pi + j * L)) % 2 ^ (8 * L),
      read ++ List.range' pi (turns * L)) := by
  rw [← foldl_add_mod]
  unfold sumWords
  induction turns with
  | zero => simp
  | succ turns ih =>
    rw [List.range_succ, List.foldl_append, List.foldl_append, ih, Nat.succ_mul turns,
      ← List.range'_append_1, ← List.append_assoc]
    rfl

theorem addChunk_snd (L : ℕ) (mem : ℕ → BitVec 8) (addr : ℕ) (x : sizeT.Val × List ℕ) (k : ℕ) :
    (addChunk L mem addr x k).2 = x.2 ++ List.range' (addr + k * (128 * L)) (128 * L) := by
  rw [addChunk, sumWords_eq, Nat.mul_assoc]

theorem addChunk_fst (L : ℕ) (mem : ℕ → BitVec 8) (addr : ℕ) (x : sizeT.Val × List ℕ) (k : ℕ) :
    (addChunk L mem addr x k).1 = x.1 + toSize (addBytes L ((List.range 128).foldl
      (fun rr j => (rr + wordAt L mem (addr + k * 128 * L + j * L)) % 2 ^ (8 * L)) 0)) := by
  rw [addChunk, sumWords_eq, foldl_add_mod]

/-- The words of the chunks are the bytes, one after the other. -/
theorem words_read (hn : 128 * L ∣ n) : (countSerialWords L mem addr n).2 = List.range' addr n := by
  have hall : ∀ m, ((List.range m).foldl (addChunk L mem addr) (0, [])).2 =
      List.range' addr (m * (128 * L)) := by
    intro m
    induction m with
    | zero => simp
    | succ m ih =>
      rw [List.range_succ, List.foldl_append, Nat.succ_mul, ← List.range'_append_1, ← ih]
      exact addChunk_snd ..
  rw [countSerialWords, hall, Nat.div_mul_cancel hn]

theorem bytes_eq (mem : ℕ → BitVec 8) (addr n : ℕ) : countSerialBytes mem addr n =
    ((List.range n).foldl (fun r j => r + toSize (mem (addr + j)).toNat) 0,
      List.range' addr n) := by
  unfold countSerialBytes
  induction n with
  | zero => rfl
  | succ n ih =>
    rw [List.range_succ, List.foldl_append, List.foldl_append, ih, List.range'_1_concat]
    rfl

end Read

/-! ### What is counted -/

section Flags

variable {L : ℕ} {mem : ℕ → BitVec 8} {addr n : ℕ}

/-- The bytes of the array are those of `bool`s. -/
def Flags (mem : ℕ → BitVec 8) (addr n : ℕ) : Prop :=
  ∀ i < n, mem (addr + i) = 0 ∨ mem (addr + i) = 1

/-- Element `i` is `true`. -/
def flag (mem : ℕ → BitVec 8) (addr i : ℕ) : Bool := mem (addr + i) == 1

theorem Flags.toNat_eq (h : Flags mem addr n) {i : ℕ} (hi : i < n) :
    (mem (addr + i)).toNat = (flag mem addr i).toNat := by
  unfold flag
  rcases h i hi with h0 | h1
  · rw [h0]
    rfl
  · rw [h1]
    rfl

theorem Flags.toNat_le (h : Flags mem addr n) {i : ℕ} (hi : i < n) :
    (mem (addr + i)).toNat ≤ 1 := by
  rw [h.toNat_eq hi]
  exact Bool.toNat_le _

/-- A place of word `j` of chunk `k` is in the array. -/
theorem place_lt {k j b : ℕ} (hk : k < n / (128 * L)) (hj : j < 128) (hb : b < L) :
    (k * 128 + j) * L + b < n := by
  have hword : (k * 128 + j + 1) * L ≤ (k * 128 + 128) * L := Nat.mul_le_mul_right L (by omega)
  have hchunk : (k + 1) * (128 * L) ≤ n := (Nat.le_div_iff_mul_le (by omega)).mp hk
  calc (k * 128 + j) * L + b < (k * 128 + j) * L + L := Nat.add_lt_add_left hb _
    _ = (k * 128 + j + 1) * L := (Nat.succ_mul _ _).symm
    _ ≤ (k * 128 + 128) * L := hword
    _ = (k + 1) * (128 * L) := by ring
    _ ≤ n := hchunk

/-- Where it is. -/
theorem place_eq (addr k j L b : ℕ) :
    addr + k * 128 * L + j * L + b = addr + ((k * 128 + j) * L + b) := by ring

theorem Flags.wordAt_eq (h : Flags mem addr n) {k j : ℕ} (hk : k < n / (128 * L)) (hj : j < 128) :
    wordAt L mem (addr + k * 128 * L + j * L) = boolWord L (flag mem addr) (k * 128 + j) := by
  unfold wordAt boolWord ofLanes
  refine Finset.sum_congr rfl fun b hb => ?_
  dsimp only
  rw [place_eq, h.toNat_eq (place_lt hk hj (Finset.mem_range.mp hb))]

theorem Flags.words_eq (h : Flags mem addr n) :
    (countSerialWords L mem addr n).1 = countWords L (flag mem addr) n := by
  have hall : ∀ m ≤ n / (128 * L), ((List.range m).foldl (addChunk L mem addr) (0, [])).1 =
      (List.range m).foldl (fun r k => r + toSize (addBytes L ((List.range 128).foldl
        (fun rr j => (rr + boolWord L (flag mem addr) (k * 128 + j)) % 2 ^ (8 * L)) 0))) 0 := by
    intro m hm
    induction m with
    | zero => rfl
    | succ m ih =>
      rw [List.range_succ, List.foldl_append, List.foldl_append, ← ih (by omega), List.foldl_cons,
        List.foldl_nil, List.foldl_cons, List.foldl_nil, addChunk_fst]
      refine congrArg (fun w => _ + toSize (addBytes L w)) (List.foldl_ext _ _ _ fun rr j hj => ?_)
      rw [h.wordAt_eq hm (List.mem_range.mp hj)]
  exact hall _ le_rfl

theorem Flags.bytes_eq (h : Flags mem addr n) :
    (countSerialBytes mem addr n).1 = (List.range n).foldl
    (fun r j => r + toSize (flag mem addr j).toNat) 0 := by
  rw [GangUtil.bytes_eq]
  refine List.foldl_ext _ _ _ fun r j hj => ?_
  rw [h.toNat_eq (List.mem_range.mp hj)]

/-- The memory is counted as the array of its flags is, whichever way. -/
theorem countSerialAt_eq (h : Flags mem addr n) :
    (countSerialAt mem addr n).1 = countSerialBool addr (flag mem addr) n := by
  unfold countSerialAt countSerialBool
  split_ifs
  · exact h.words_eq
  · exact h.words_eq
  · exact h.words_eq
  · exact h.bytes_eq

/-! ### Bytes of a sum -/

/-- **No byte carries into the next**: while up to 255 words are added the sum does not wrap, and
each of its bytes is the sum of the words' bytes. -/
theorem sumWords_lanes (mem : ℕ → BitVec 8) (pi turns : ℕ) (read : List ℕ) (ht : turns < 256)
    (h : ∀ j < turns, ∀ b < L, (mem (pi + j * L + b)).toNat ≤ 1) :
    (sumWords L mem pi turns read).1 = ∑ j ∈ Finset.range turns, wordAt L mem (pi + j * L) ∧
      ∀ b < L, (sumWords L mem pi turns read).1 >>> (8 * b) &&& 255 =
        ∑ j ∈ Finset.range turns, (mem (pi + j * L + b)).toNat := by
  have hlane : ∀ b < L, ∑ j ∈ Finset.range turns, (mem (pi + j * L + b)).toNat < 2 ^ 8 := by
    intro b hb
    have hle :=
      Finset.sum_le_card_nsmul (Finset.range turns) (fun j => (mem (pi + j * L + b)).toNat) 1
      fun j hj => h j (Finset.mem_range.mp hj) b hb
    rw [Finset.card_range, Nat.nsmul_eq_mul, Nat.mul_one] at hle
    exact hle.trans_lt ht
  have hsum : ∑ j ∈ Finset.range turns, wordAt L mem (pi + j * L) =
      ofLanes 8 (fun b => ∑ j ∈ Finset.range turns, (mem (pi + j * L + b)).toNat) L :=
        sum_ofLanes _ _
  have hno : (sumWords L mem pi turns read).1 = ∑ j ∈ Finset.range turns,
      wordAt L mem (pi + j * L) := by
    rw [sumWords_eq, hsum]
    exact Nat.mod_eq_of_lt (ofLanes_lt hlane)
  refine ⟨hno, fun b hb => ?_⟩
  rw [hno, hsum]
  exact ofLanes_lane hlane hb

/-- What the way by words of `L` bytes does: it is the plain loop, and no byte of any of its sums
carries. -/
structure WordsRight (L : ℕ) (mem : ℕ → BitVec 8) (addr n : ℕ) : Prop where
  plain : countSerialWords L mem addr n = countSerialBytes mem addr n
  lanes : ∀ k < n / (128 * L), ∀ turns ≤ 128,
    (sumWords L mem (addr + k * 128 * L) turns []).1 < 2 ^ (8 * L) ∧
      (sumWords L mem (addr + k * 128 * L) turns []).1 =
        ∑ j ∈ Finset.range turns, wordAt L mem (addr + (k * 128 + j) * L) ∧
      ∀ b < L, (sumWords L mem (addr + k * 128 * L) turns []).1 >>> (8 * b) &&& 255 =
        ∑ j ∈ Finset.range turns, (mem (addr + ((k * 128 + j) * L + b))).toNat

theorem Flags.wordsRight (h : Flags mem addr n) (hn : 128 * L ∣ n) : WordsRight L mem addr n where
  plain := by
    refine Prod.ext ?_ ?_
    · rw [h.words_eq, h.bytes_eq, countWords_eq _ hn, foldl_count]
    · rw [words_read hn, GangUtil.bytes_eq]
  lanes k hk turns ht := by
    have hword : ∀ j, addr + k * 128 * L + j * L = addr + (k * 128 + j) * L :=
      fun j => place_eq addr k j L 0
    obtain ⟨hno, hlanes⟩ := sumWords_lanes (L := L) mem (addr + k * 128 * L) turns [] (by omega)
      fun j hj b hb => by
        rw [place_eq]
        exact h.toNat_le (place_lt hk (by omega) hb)
    refine ⟨?_, ?_, fun b hb => ?_⟩
    · rw [sumWords_eq]
      exact Nat.mod_lt _ (Nat.two_pow_pos _)
    · rw [hno]
      simp only [hword]
    · rw [hlanes b hb]
      simp only [place_eq]

/-- **The count of an array of `bool`** at any address: it is the number of those that are `true`,
read from the bytes of the array, each once; and each way by words is the plain loop. -/
theorem bool_count (hn : n < 2 ^ 64) (h : Flags mem addr n) :
    ((countSerialAt mem addr n).1.toNat = Nat.count (fun i => mem (addr + i) = 1) n ∧
      (countSerialAt mem addr n).2 = List.range' addr n) ∧
    (n &&& 1023 = 0 → WordsRight 8 mem addr n) ∧ (n &&& 511 = 0 → WordsRight 4 mem addr n) ∧
      (n &&& 255 = 0 → WordsRight 2 mem addr n) := by
  refine ⟨⟨?_, ?_⟩, ?_, ?_, ?_⟩
  · rw [countSerialAt_eq h, countSerialBool_eq, toNat_toSize ((Nat.count_le ..).trans_lt hn)]
    simp only [flag, beq_iff_eq]
  · unfold countSerialAt
    split_ifs with h8 h4 h2
    · exact words_read (dvd_of_and (k := 10) h8.1)
    · exact words_read (dvd_of_and (k := 9) h4.1)
    · exact words_read (dvd_of_and (k := 8) h2.1)
    · rw [bytes_eq]
  · exact fun h8 => h.wordsRight (dvd_of_and (k := 10) h8)
  · exact fun h4 => h.wordsRight (dvd_of_and (k := 9) h4)
  · exact fun h2 => h.wordsRight (dvd_of_and (k := 8) h2)

/-- Two kilobytes of flags at an even address, every third one set. -/
theorem bool_count_thirds : (countSerialAt (fun q => if q % 3 = 0 then 1 else 0) 66 2048).1.toNat =
      Nat.count (fun i => (if (66 + i) % 3 = 0 then 1 else 0 : BitVec 8) = 1) 2048 ∧
    (countSerialAt (fun q => if q % 3 = 0 then 1 else 0) 66 2048).2 = List.range' 66 2048 := by
  have hflags : Flags (fun q => if q % 3 = 0 then 1 else 0) 66 2048 := fun i _ => by
    by_cases h : (66 + i) % 3 = 0
    · exact .inr (if_pos h)
    · exact .inl (if_neg h)
  exact (bool_count (by decide) hflags).1

end Flags

end NetworkDemo.GangUtil
