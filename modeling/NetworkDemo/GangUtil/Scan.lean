import NetworkDemo.Foundations.Footprints
import NetworkDemo.Foundations.Blocks
import NetworkDemo.GangUtil.Integers

/-!
# The parallel scan

`GangUtil::scan` writes to `out[i]` the fold of `f` over the elements before `i`, from a
start value, and returns the fold over all: up to `i` or from the end back to it, with
`in[i]` or without. An array of more than `BLOCK_SIZE` elements is done by blocks. The
blocks are reduced, the reductions scanned in place, by the same function, and then
every block is scanned from what has come before it.

## The model

Arrays are functions of the index. `in` and `out` may be the same array, which is why
the input is a `Reader` of the output array: what it finds at `i` may depend on what is
at `i` now. `groupSubmit` runs its tasks one after the other, in the order the
`Schedule` has for this call; the `Schedule` also says what is in the memory `ab_alloc`
hands out. `n + BLOCK_SIZE` does not wrap, an array of `n` elements being in memory.

The types are those of the templates: `T` of the output, `U` of the input, `Z` of the
start value, and `P` the one `f` takes and returns.

* `scanSerial_fold` — what the serial scan does, whatever `f` is.
* `scan_sums` — what the scan does, blocks or not, when `f` adds, as `T` sees it.
* `prefix_sums` — the parallel prefix sum of an unsigned type.
-/

namespace NetworkDemo.GangUtil

open Foundations CTy

/-! ### The functions -/

/-- `GangUtil::BLOCK_SIZE`. -/
def BLOCK_SIZE : ℕ := 2048

/-- An input array, which may be the array the output goes to. -/
structure Reader (T U : CTy) where
  /-- `in[i]`, the output array being `out`. -/
  read : (out : ℕ → T.Val) → ℕ → U.Val
  /-- Only `out[i]` can be the same place as `in[i]`. -/
  pointwise : ∀ out out' i, out i = out' i → read out i = read out' i

/-- An array of its own. -/
def Reader.apart {T U : CTy} (a : ℕ → U.Val) : Reader T U := ⟨fun _ => a, fun _ _ _ _ => rfl⟩

@[simp] theorem Reader.read_apart {T U : CTy} (a : ℕ → U.Val) (out : ℕ → T.Val) (i : ℕ) :
    (Reader.apart a).read out i = a i := rfl

/-- The same array. -/
def Reader.same {T : CTy} : Reader T T := ⟨fun out => out, fun _ _ _ h => h⟩

/-- What `groupSubmit` and `ab_alloc` do. -/
structure Schedule (T : CTy) where
  /-- The order of the tasks of the first and of the second `groupSubmit` at a depth of the
  recursion. -/
  order : ℕ → Bool → ℕ → List ℕ
  /-- Every task runs once. -/
  perm : ∀ depth second n, (order depth second n).Perm (List.range n)
  /-- What is in the memory for `sums`. -/
  fresh : ℕ → ℕ → T.Val

/-- A schedule: in order, and the memory zero. -/
def inOrder (T : CTy) : Schedule T :=
  ⟨fun _ _ n => List.range n, fun _ _ _ => .refl _, fun _ _ => T.ofInt 0⟩

/-- `groupSubmit`: the tasks, one after the other. -/
def groupSubmit {σ : Type} (order : List ℕ) (task : ℕ → σ → σ) (s : σ) : σ :=
  order.foldl (fun s j => task j s) s

/-- How many blocks. -/
def numBlocks (n : ℕ) : ℕ := (n + BLOCK_SIZE - 1) / BLOCK_SIZE

theorem numBlocks_lt {n : ℕ} (h : ¬ numBlocks n ≤ 1) : numBlocks n < n := by
  unfold numBlocks BLOCK_SIZE at *
  omega

/-- How long block `j` is. -/
def blockLen (n j : ℕ) : ℕ := if j = numBlocks n - 1 then n - j * BLOCK_SIZE else BLOCK_SIZE

section Functions

variable {T U Z P : CTy} (f : P.Val → P.Val → P.Val)

/-- `reduceSerial(arr + b, n, zero, f)`. -/
def reduceSerial (arr : ℕ → T.Val) (b n : ℕ) (zero : Z.Val) : T.Val :=
  (List.range n).foldl (fun r i => call f r (arr (b + i))) (conv T zero)

/-- One turn of `scanSerial`. -/
def scanTurn (input : Reader T U) (b : ℕ) (inclusive : Bool) :
    Z.Val × (ℕ → T.Val) → ℕ → Z.Val × (ℕ → T.Val)
  | (r, out), i =>
    let r' := call f r (input.read out (b + i))
    (r', Function.update out (b + i) (conv T (if inclusive = true then r' else r)))

/-- The turns of the loop. -/
def turns (back : Bool) (n : ℕ) : List ℕ :=
  if back = true then (List.range n).reverse else List.range n

/-- `scanSerial(out + b, in + b, n, zero, f, inclusive, back)`. -/
def scanSerial (input : Reader T U) (b n : ℕ) (zero : Z.Val) (inclusive back : Bool)
    (out : ℕ → T.Val) :
    T.Val × (ℕ → T.Val) :=
  let (r, out) := (turns back n).foldl (scanTurn f input b inclusive) (zero, out)
  (conv T r, out)

/-- The first `groupSubmit` of `scan`: `sums[j]` becomes the reduction of block `j`. -/
def reduceBlocks (order : List ℕ) (arr : ℕ → U.Val) (n : ℕ) (sums : ℕ → T.Val) : ℕ → T.Val :=
  groupSubmit order (fun j sums => Function.update sums j
    (conv T (reduceSerial f arr (j * BLOCK_SIZE) (blockLen n j) (U.ofInt 0)))) sums

/-- The second: block `j` is scanned from `sums[j]`. -/
def scanBlocks (order : List ℕ) (input : Reader T U) (n : ℕ) (sums : ℕ → T.Val)
    (inclusive back : Bool) (out : ℕ → T.Val) : ℕ → T.Val :=
  groupSubmit order (fun j out =>
    (scanSerial f input (j * BLOCK_SIZE) (blockLen n j) (sums j) inclusive back out).2) out

end Functions

/-- `scan(out, in, n, zero, f, inclusive, back)`, at a depth of the recursion. -/
def scan {T Z P : CTy} (env : Schedule T) (f : P.Val → P.Val → P.Val) (zero : Z.Val)
    (back : Bool) (U : CTy) (input : Reader T U) (depth n : ℕ) (inclusive : Bool)
    (out : ℕ → T.Val) : T.Val × (ℕ → T.Val) :=
  if h : numBlocks n ≤ 1 then scanSerial f input 0 n zero inclusive back out
  else
    have : numBlocks n < n := numBlocks_lt h
    let sums := reduceBlocks f (env.order depth false (numBlocks n)) (input.read out) n
      (env.fresh depth)
    let p := scan env f zero back T .same (depth + 1) (numBlocks n) false sums
    (p.1, scanBlocks f (env.order depth true (numBlocks n)) input n p.2 inclusive back out)
  termination_by n
  decreasing_by exact this

/-- `scan(out, in, n, zero)`. -/
def scanPlus {T Z U : CTy} (env : Schedule T) (zero : Z.Val) (input : Reader T U) (n : ℕ)
    (out : ℕ → T.Val) :
    T.Val × (ℕ → T.Val) :=
  scan env (plus T) zero false U input 0 n false out

theorem scan_serial {T Z P U : CTy} {env : Schedule T} {f : P.Val → P.Val → P.Val} {zero : Z.Val}
    {back : Bool} {input : Reader T U} {depth n : ℕ} {inclusive : Bool} {out : ℕ → T.Val}
    (h : numBlocks n ≤ 1) :
    scan env f zero back U input depth n inclusive out =
      scanSerial f input 0 n zero inclusive back out := by
  rw [scan, dif_pos h]

theorem scan_blocks {T Z P U : CTy} {env : Schedule T} {f : P.Val → P.Val → P.Val} {zero : Z.Val}
    {back : Bool} {input : Reader T U} {depth n : ℕ} {inclusive : Bool} {out : ℕ → T.Val}
    (h : ¬ numBlocks n ≤ 1) {p : T.Val × (ℕ → T.Val)}
    (hp : p = scan env f zero back T .same (depth + 1) (numBlocks n) false
      (reduceBlocks f (env.order depth false (numBlocks n)) (input.read out) n (env.fresh depth))) :
    scan env f zero back U input depth n inclusive out =
      (p.1, scanBlocks f (env.order depth true (numBlocks n)) input n p.2 inclusive back out) := by
  rw [scan, dif_neg h, hp]

/-! ### The serial scan, whatever the function -/

section Serial

variable {T U Z P : CTy} {f : P.Val → P.Val → P.Val} {input : Reader T U} {b n : ℕ}
    {inclusive back : Bool}
  {out : ℕ → T.Val} {r : Z.Val} {is : List ℕ}

/-- The fold over the elements at offsets `is`. -/
def fold (f : P.Val → P.Val → P.Val) (x : ℕ → U.Val) (r : Z.Val) (is : List ℕ) : Z.Val :=
  is.foldl (fun r i => call f r (x i)) r

theorem fold_congr {x y : ℕ → U.Val} (h : ∀ i ∈ is, x i = y i) : fold f x r is = fold f y r is := by
  induction is generalizing r with
  | nil => rfl
  | cons i is ih =>
    show fold f x (call f r (x i)) is = fold f y (call f r (y i)) is
    rw [h i List.mem_cons_self]
    exact ih fun j hj => h j (List.mem_cons_of_mem i hj)

theorem fold_append (x : ℕ → U.Val) (r : Z.Val) (is is' : List ℕ) :
    fold f x r (is ++ is') = fold f x (fold f x r is) is' := List.foldl_append

/-- A turn leaves every other element of the input alone. -/
theorem read_scanTurn {i k : ℕ} (h : k ≠ i) :
    input.read (scanTurn f input b inclusive (r, out) i).2 (b + k) = input.read out (b + k) :=
  input.pointwise _ _ _ (Function.update_of_ne (by omega) _ _)

/-- The running value of the scan is the fold of the elements as they were. -/
theorem scanTurns_fst (hn : is.Nodup) : (is.foldl (scanTurn f input b inclusive) (r, out)).1 =
    fold f (fun i => input.read out (b + i)) r is := by
  induction is generalizing r out with
  | nil => rfl
  | cons i is ih =>
    obtain ⟨hi, hn⟩ := List.nodup_cons.mp hn
    refine (@ih (scanTurn f input b inclusive (r, out) i).2 _ hn).trans ?_
    refine fold_congr fun k hk => read_scanTurn ?_
    rintro rfl
    exact hi hk

/-- A place that is none of the turns' is left alone. -/
theorem scanTurns_frame {k : ℕ} (h : ∀ i ∈ is, k ≠ b + i) :
    (is.foldl (scanTurn f input b inclusive) (r, out)).2 k = out k := by
  induction is generalizing r out with
  | nil => rfl
  | cons i is ih =>
    refine (@ih (scanTurn f input b inclusive (r, out) i).2 _ fun j hj =>
      h j (List.mem_cons_of_mem i hj)).trans ?_
    exact Function.update_of_ne (h i List.mem_cons_self) _ _

/-- At each place is the fold of the elements before it, as they were, and with its own when
inclusive. -/
theorem scanTurns_snd {i : ℕ} {is' : List ℕ} (hn : (is ++ i :: is').Nodup) :
    ((is ++ i :: is').foldl (scanTurn f input b inclusive) (r, out)).2 (b + i) = conv T
      (fold f (fun i => input.read out (b + i)) r (if inclusive = true then is ++ [i]
        else is)) := by
  have hni : i ∉ is := fun hm => (List.nodup_append.mp hn).2.2 i hm i List.mem_cons_self rfl
  have hni' : i ∉ is' := (List.nodup_cons.mp (List.nodup_append.mp hn).2.1).1
  rw [List.foldl_append, List.foldl_cons]
  obtain ⟨⟨r', out'⟩, hp⟩ : ∃ p, p = is.foldl (scanTurn f input b inclusive) (r, out) := ⟨_, rfl⟩
  have hr : r' = fold f (fun i => input.read out (b + i)) r is := by
    rw [← scanTurns_fst (List.nodup_append.mp hn).1, ← hp]
  have hread : input.read out' (b + i) = input.read out (b + i) := input.pointwise _ _ _ (by
    have hframe : (is.foldl (scanTurn f input b inclusive) (r, out)).2 (b + i) = out (b + i) :=
      scanTurns_frame fun j hj he => hni (by rwa [Nat.add_left_cancel he])
    rwa [← hp] at hframe)
  rw [← hp]
  have hlater :
      (is'.foldl (scanTurn f input b inclusive) (scanTurn f input b inclusive (r', out') i)).2
      (b + i) =
      (scanTurn f input b inclusive (r', out') i).2 (b + i) :=
    scanTurns_frame fun j hj he => hni' (by rwa [Nat.add_left_cancel he])
  rw [hlater]
  refine (Function.update_self ..).trans ?_
  cases inclusive
  · rw [hr]
    rfl
  · show conv T (call f r' (input.read out' (b + i))) = conv T (fold f _ r (is ++ [i]))
    rw [hread, hr, fold, fold, List.foldl_append]
    rfl

theorem turns_nodup : (turns back n).Nodup := by
  unfold turns
  split_ifs
  · exact List.nodup_reverse.mpr List.nodup_range
  · exact List.nodup_range

theorem mem_turns (back : Bool) {k : ℕ} : k ∈ turns back n ↔ k < n := by
  unfold turns
  split_ifs <;> simp

theorem range_split {i : ℕ} (hi : i < n) :
    List.range n = List.range i ++ i :: (List.range (n - (i + 1))).map (i + 1 + ·) := by
  rw [show n = i + 1 + (n - (i + 1)) by omega, List.range_add, List.range_succ, List.append_assoc]
  simp

/-- The turns before that of `i` are those of the indices before `i`. -/
theorem turns_split (back : Bool) {i : ℕ} (hi : i < n) : ∃ is is', turns back n = is ++ i :: is' ∧
    ∀ k, k ∈ is ↔ k ∈ before n false back i := by
  have hrange := range_split hi
  cases back
  · refine ⟨List.range i, _, hrange, fun k => ?_⟩
    simp only [List.mem_range, before, Finset.mem_filter, Finset.mem_range]
    simp
    omega
  · refine ⟨((List.range (n - (i + 1))).map (i + 1 + ·)).reverse, (List.range i).reverse,
      ?_, fun k => ?_⟩
    · show (List.range n).reverse = _
      rw [hrange]
      simp
    · simp only [List.mem_reverse, List.mem_map, List.mem_range, before, Finset.mem_filter,
        Finset.mem_range]
      simp only [if_true, Bool.false_eq_true, false_and, or_false]
      constructor
      · rintro ⟨m, hm, rfl⟩
        omega
      · rintro ⟨hk, hik⟩
        exact ⟨k - (i + 1), by omega, by omega⟩

/-- **The serial scan**: at `i` is the fold of the elements before it in the order of the turns. -/
theorem scanSerial_fold (f : P.Val → P.Val → P.Val) (input : Reader T U) (b : ℕ)
    (inclusive back : Bool) (out : ℕ → T.Val) (zero : Z.Val) {i : ℕ} (hi : i < n) : ∃ is, is.Nodup ∧
    (∀ k, k ∈ is ↔ k ∈ before n inclusive back i) ∧
    (scanSerial f input b n zero inclusive back out).2 (b + i) =
      conv T (fold f (fun i => input.read out (b + i)) zero is) := by
  obtain ⟨is, is', hs, hmem⟩ := turns_split back hi
  have hn : (is ++ i :: is').Nodup := hs ▸ turns_nodup
  refine ⟨if inclusive = true then is ++ [i] else is, ?_, fun k => ?_, ?_⟩
  · split_ifs
    · rw [List.append_cons] at hn
      exact (List.nodup_append.mp hn).1
    · exact (List.nodup_append.mp hn).1
  · cases inclusive
    · exact hmem k
    · simp only [if_true, List.mem_append, List.mem_singleton, hmem, before, Finset.mem_filter,
        Finset.mem_range, Bool.false_eq_true, false_and, or_false, true_and, and_or_left]
      exact or_congr_right ⟨fun h => ⟨h ▸ hi, h⟩, And.right⟩
  · show ((turns back n).foldl (scanTurn f input b inclusive) (zero, out)).2 (b + i) = _
    rw [hs]
    exact scanTurns_snd hn

/-- Forwards and exclusive, the fold of the elements below it. -/
theorem scanSerial_forward (f : P.Val → P.Val → P.Val) (input : Reader T U) (b : ℕ)
    (out : ℕ → T.Val) (zero : Z.Val) {i : ℕ} (hi : i < n) :
    (scanSerial f input b n zero false false out).2 (b + i) =
      conv T (fold f (fun i => input.read out (b + i)) zero (List.range i)) := by
  have hn : (List.range i ++ i :: (List.range (n - (i + 1))).map (i + 1 + ·)).Nodup :=
    range_split hi ▸ List.nodup_range
  show ((List.range n).foldl (scanTurn f input b false) (zero, out)).2 (b + i) = _
  rw [range_split hi]
  exact scanTurns_snd hn

theorem scanSerial_fst {zero : Z.Val} : (scanSerial f input b n zero inclusive back out).1 =
    conv T (fold f (fun i => input.read out (b + i)) zero (turns back n)) := by
  show conv T ((turns back n).foldl (scanTurn f input b inclusive) (zero, out)).1 = _
  rw [scanTurns_fst turns_nodup]

theorem scanSerial_frame {zero : Z.Val} {k : ℕ} (h : k < b ∨ b + n ≤ k) :
    (scanSerial f input b n zero inclusive back out).2 k = out k :=
  scanTurns_frame fun i hi => by
    have := (mem_turns back).mp hi
    omega

/-- The serial scan of a block reads and writes that block only. -/
theorem scanSerial_within {zero : Z.Val} :
    Within (fun out => (scanSerial f input b n zero inclusive back out).2) fun k => b ≤ k ∧
    k < b + n where
  frame out k hk := scanSerial_frame (by omega)
  reads out out' hm k hk := by
    obtain ⟨i, rfl⟩ : ∃ i, k = b + i := ⟨k - b, by omega⟩
    have hi : i < n := by omega
    obtain ⟨is, is', hs, hmem⟩ := turns_split back hi
    have hn : (is ++ i :: is').Nodup := hs ▸ turns_nodup
    show ((turns back n).foldl (scanTurn f input b inclusive) (zero, out)).2 (b + i) =
      ((turns back n).foldl (scanTurn f input b inclusive) (zero, out')).2 (b + i)
    rw [hs, scanTurns_snd hn, scanTurns_snd hn]
    congr 1
    refine fold_congr fun k hk => input.pointwise _ _ _ (hm _ ?_)
    have : k < n := by
      rw [← mem_turns back, hs]
      split_ifs at hk
      · rw [List.append_cons]
        exact List.mem_append_left _ hk
      · exact List.mem_append_left _ hk
    omega

end Serial

/-! ### Blocks -/

section Blocks

variable {T U P : CTy} {f : P.Val → P.Val → P.Val} {input : Reader T U} {n : ℕ}
    {inclusive back : Bool}
  {out : ℕ → T.Val}

/-- Where block `j` begins, and where the last one ends. -/
def blockStart (n j : ℕ) : ℕ := min (j * BLOCK_SIZE) n

theorem blockStart_mono (n : ℕ) : Monotone (blockStart n) := fun i j h => by
  have : i * BLOCK_SIZE ≤ j * BLOCK_SIZE := Nat.mul_le_mul_right _ h
  unfold blockStart
  omega

theorem numBlocks_bounds (n : ℕ) :
    n ≤ numBlocks n * BLOCK_SIZE ∧ ∀ j < numBlocks n, j * BLOCK_SIZE < n := by
  unfold numBlocks BLOCK_SIZE
  exact ⟨by omega, fun j hj => by omega⟩

theorem blockStart_zero (n : ℕ) : blockStart n 0 = 0 := by simp [blockStart]

theorem blockStart_last (n : ℕ) : blockStart n (numBlocks n) = n :=
  Nat.min_eq_right (numBlocks_bounds n).1

theorem blockStart_of_lt {j : ℕ} (hj : j < numBlocks n) : blockStart n j = j * BLOCK_SIZE :=
  Nat.min_eq_left ((numBlocks_bounds n).2 j hj).le

theorem blockLen_eq {j : ℕ} (hj : j < numBlocks n) :
    blockLen n j = blockStart n (j + 1) - blockStart n j := by
  have h1 := (numBlocks_bounds n).1
  rw [blockStart_of_lt hj]
  unfold blockLen blockStart
  rw [Nat.add_mul, Nat.one_mul]
  split_ifs with h
  · have : numBlocks n * BLOCK_SIZE = j * BLOCK_SIZE + BLOCK_SIZE := by
      rw [show numBlocks n = j + 1 by omega, Nat.add_mul, Nat.one_mul]
    omega
  · have := (numBlocks_bounds n).2 (j + 1) (by omega)
    rw [Nat.add_mul, Nat.one_mul] at this
    omega

theorem blockLen_end {j : ℕ} (hj : j < numBlocks n) :
    j * BLOCK_SIZE + blockLen n j = blockStart n (j + 1) := by
  have : blockStart n j ≤ blockStart n (j + 1) := blockStart_mono n j.le_succ
  rw [blockLen_eq hj, ← blockStart_of_lt hj]
  omega

/-- Every index is in a block. -/
theorem exists_block {i : ℕ} (hi : i < n) :
    ∃ j < numBlocks n, ∃ k < blockLen n j, i = j * BLOCK_SIZE + k := by
  have hj : i / BLOCK_SIZE < numBlocks n := by
    unfold numBlocks BLOCK_SIZE
    omega
  have hend := blockLen_end hj
  refine ⟨i / BLOCK_SIZE, hj, i % BLOCK_SIZE, ?_, ?_⟩
  · unfold blockStart BLOCK_SIZE at *
    omega
  · unfold BLOCK_SIZE
    omega

theorem reduceBlocks_apply {order : List ℕ} (arr : ℕ → U.Val) (sums : ℕ → T.Val) {j : ℕ}
    (hj : j ∈ order) :
    reduceBlocks f order arr n sums j =
      conv T (reduceSerial f arr (j * BLOCK_SIZE) (blockLen n j) (U.ofInt 0)) := by
  refine (foldl_update _ order sums j).trans (if_pos hj)

/-- The blocks are disjoint. -/
theorem block_disjoint {i j k : ℕ} (hi : i < numBlocks n) (hj : j < numBlocks n) (hne : i ≠ j)
    (hk : i * BLOCK_SIZE ≤ k ∧ k < i * BLOCK_SIZE + blockLen n i) :
    ¬ (j * BLOCK_SIZE ≤ k ∧ k < j * BLOCK_SIZE + blockLen n j) := by
  rw [blockLen_end hi] at hk
  rw [blockLen_end hj]
  rw [← blockStart_of_lt hi] at hk
  rw [← blockStart_of_lt hj]
  rcases Nat.lt_or_gt_of_ne hne with h | h
  · have : blockStart n (i + 1) ≤ blockStart n j := blockStart_mono n h
    omega
  · have : blockStart n (j + 1) ≤ blockStart n i := blockStart_mono n h
    omega

/-- A block is scanned as if it were alone. -/
theorem scanBlocks_apply (f : P.Val → P.Val → P.Val) (input : Reader T U) (inclusive back : Bool)
    (out : ℕ → T.Val) {order : List ℕ} (ho : order.Perm (List.range (numBlocks n)))
    (sums : ℕ → T.Val) {j k : ℕ} (hj : j < numBlocks n) (hk : k < blockLen n j) :
    scanBlocks f order input n sums inclusive back out (j * BLOCK_SIZE + k) =
      (scanSerial f input (j * BLOCK_SIZE) (blockLen n j) (sums j) inclusive back out).2
        (j * BLOCK_SIZE + k) := by
  have hmem : ∀ i, i ∈ order → i < numBlocks n := fun i hi => List.mem_range.mp (ho.mem_iff.mp hi)
  exact foldl_within (fun i _ => scanSerial_within) (ho.nodup_iff.mpr List.nodup_range)
    (fun i hi j hj hne k => block_disjoint (hmem i hi) (hmem j hj) hne)
      (ho.mem_iff.mpr (List.mem_range.mpr hj))
    ⟨by omega, by omega⟩

theorem scanBlocks_frame {order : List ℕ} (ho : order.Perm (List.range (numBlocks n)))
    (sums : ℕ → T.Val) {k : ℕ} (hk : n ≤ k) :
    scanBlocks f order input n sums inclusive back out k = out k :=
  foldl_frame (fun i _ => scanSerial_within) fun i hi hc => by
    have hi' := List.mem_range.mp (ho.mem_iff.mp hi)
    rw [blockLen_end hi'] at hc
    have : blockStart n (i + 1) ≤ n := Nat.min_le_right _ _
    omega

end Blocks

/-! ### Functions that add -/

section Adds

variable {T U Z P : CTy} [AddCommMonoid T.Val] {f : P.Val → P.Val → P.Val}
    {input : Reader T U} {b n : ℕ}
  {inclusive back : Bool} {out : ℕ → T.Val}

/-- Taking elements of type `U` into a running value of type `Z` is adding, as `T` sees it. -/
def Adds (f : P.Val → P.Val → P.Val) (T Z U : CTy) [AddCommMonoid T.Val] : Prop :=
  ∀ (r : Z.Val) (x : U.Val), conv T (call f r x) = conv T r + conv T x

theorem Adds.fold (h : Adds f T Z U) (x : ℕ → U.Val) (r : Z.Val) (is : List ℕ) :
    conv T (fold f x r is) = conv T r + (is.map fun i => conv T (x i)).sum := by
  induction is generalizing r with
  | nil => simp [GangUtil.fold]
  | cons i is ih =>
    rw [List.map_cons, List.sum_cons, ← add_assoc, ← h r (x i)]
    exact ih _

/-- The order of the turns does not matter then. -/
theorem Adds.fold_nodup (h : Adds f T Z U) (x : ℕ → U.Val) (r : Z.Val) {is : List ℕ} (hn : is.Nodup)
    {S : Finset ℕ} (hS : ∀ k, k ∈ is ↔ k ∈ S) :
    conv T (GangUtil.fold f x r is) = conv T r + ∑ k ∈ S, conv T (x k) := by
  have hset : is.toFinset = S := by
    ext k
    rw [List.mem_toFinset, hS]
  rw [h.fold, ← List.sum_toFinset _ hn, hset]

/-- What a scan is to leave, and to return: `x i` are the elements, as `T` sees them. -/
structure PrefixSums {T : CTy} [AddCommMonoid T.Val] (x : ℕ → T.Val) (zero : T.Val) (n : ℕ)
    (inclusive back : Bool) (out : ℕ → T.Val) (res : T.Val × (ℕ → T.Val)) : Prop where
  total : res.1 = zero + ∑ k ∈ Finset.range n, x k
  sums : ∀ i < n, res.2 i = zero + ∑ k ∈ before n inclusive back i, x k
  rest : ∀ i, n ≤ i → res.2 i = out i

theorem scanSerial_total (h : Adds f T Z U) {zero : Z.Val} :
    (scanSerial f input b n zero inclusive back out).1 =
    conv T zero + ∑ k ∈ Finset.range n, conv T (input.read out (b + k)) := by
  rw [scanSerial_fst, h.fold_nodup _ _ turns_nodup fun k => by rw [mem_turns, Finset.mem_range]]

theorem scanSerial_sums (h : Adds f T Z U) {zero : Z.Val} {i : ℕ} (hi : i < n) :
    (scanSerial f input b n zero inclusive back out).2 (b + i) =
      conv T zero + ∑ k ∈ before n inclusive back i, conv T (input.read out (b + k)) := by
  obtain ⟨is, hn, hmem, hres⟩ := scanSerial_fold f input b inclusive back out zero hi
  rw [hres, h.fold_nodup _ _ hn hmem]

theorem prefixSums_serial (h : Adds f T Z U) {zero : Z.Val} :
    PrefixSums (fun k => conv T (input.read out k)) (conv T zero) n inclusive back out
      (scanSerial f input 0 n zero inclusive back out) where
  total := by simpa using scanSerial_total (b := 0) h
  sums i hi := by simpa using scanSerial_sums (b := 0) h hi
  rest i hi := scanSerial_frame (.inr (by omega))

theorem reduceSerial_sum (h : Adds f T U U) (arr : ℕ → U.Val) (zero : Z.Val) :
    conv T (reduceSerial f arr b n zero) = conv T (conv U zero) + ∑ k ∈ Finset.range n, conv T
      (arr (b + k)) :=
  h.fold_nodup (fun i => arr (b + i)) _ List.nodup_range fun k =>
    by rw [List.mem_range, Finset.mem_range]

/-- What `f` must do for the blocked scan to be one of `n` elements of type `U`. -/
structure ScanAdds (f : P.Val → P.Val → P.Val) (T Z U : CTy) [AddCommMonoid T.Val] : Prop where
  start : Adds f T Z U
  block : Adds f T T U
  reduce : Adds f T U U
  zero : conv T (U.ofInt 0) = (0 : T.Val)

/-- **The scan sums**, whatever the number of blocks and the order they are done in. -/
theorem scan_sums {U : CTy} (env : Schedule T) (hT : ScanAdds f T Z T) (hU : ScanAdds f T Z U)
    (input : Reader T U) (zero : Z.Val) (back : Bool) (depth n : ℕ) (inclusive : Bool)
    (out : ℕ → T.Val) :
    PrefixSums (fun k => conv T (input.read out k)) (conv T zero) n inclusive back out
      (scan env f zero back U input depth n inclusive out) := by
  induction n using Nat.strong_induction_on generalizing U depth inclusive out with
  | _ n ih =>
    by_cases hnb : numBlocks n ≤ 1
    · rw [scan_serial hnb]
      exact prefixSums_serial hU.start
    obtain ⟨p, hp⟩ : ∃ p, p = scan env f zero back T .same (depth + 1) (numBlocks n) false
      (reduceBlocks f (env.order depth false (numBlocks n)) (input.read out) n (env.fresh depth)) :=
        ⟨_, rfl⟩
    -- the sums of the blocks, scanned
    have hsums := ih (numBlocks n) (numBlocks_lt hnb) hT .same (depth + 1) false
      (reduceBlocks f (env.order depth false (numBlocks n)) (input.read out) n (env.fresh depth))
    rw [← hp] at hsums
    have hblock : ∀ j < numBlocks n, conv T (Reader.same.read (reduceBlocks f
        (env.order depth false (numBlocks n))
        (input.read out) n (env.fresh depth)) j) =
          ∑ k ∈ Finset.range (blockStart n (j + 1) - blockStart n j),
          conv T (input.read out (blockStart n j + k)) := fun j hj => by
      have ho := env.perm depth false (numBlocks n)
      show conv T (reduceBlocks f _ _ n _ j) = _
      rw [reduceBlocks_apply _ _ (ho.mem_iff.mpr (List.mem_range.mpr hj)), conv_self,
        reduceSerial_sum hU.reduce, conv_self, hU.zero, zero_add, blockLen_eq hj,
          blockStart_of_lt hj]
    rw [scan_blocks hnb hp]
    refine ⟨?_, fun i hi => ?_, fun i hi => scanBlocks_frame (env.perm depth true _) _ hi⟩
    · rw [hsums.total, Finset.sum_congr rfl fun j hj => hblock j (Finset.mem_range.mp hj),
        sum_blocks (fun k => conv T (input.read out k)) (blockStart_mono n) (blockStart_zero n),
          blockStart_last]
    · obtain ⟨j, hj, k, hk, rfl⟩ := exists_block hi
      have hcut := sum_before_blocks (fun k => conv T (input.read out k)) inclusive back
        (blockStart_mono n)
        (blockStart_zero n) hj (blockLen_eq hj ▸ hk)
      rw [blockStart_last, ← blockLen_eq hj, blockStart_of_lt hj] at hcut
      show scanBlocks f _ input n p.2 inclusive back out _ = _
      rw [scanBlocks_apply f input inclusive back out (env.perm depth true _) _ hj hk,
        scanSerial_sums hU.block hk, conv_self, hsums.sums j hj, hcut, add_assoc]
      congr 2
      exact Finset.sum_congr rfl fun j hj => hblock j
        (Finset.mem_range.mp (Finset.mem_filter.mp hj).1)

end Adds

/-! ### The parallel prefix sum -/

section PrefixSum

variable {w : Width}

theorem adds_plus : Adds (plus (.unsigned w)) (.unsigned w) (.unsigned w) (.unsigned w) := by
  intro r x
  rw [call_self, conv_self, conv_self, conv_self, plus_unsigned]

theorem scanAdds_plus : ScanAdds (plus (.unsigned w)) (.unsigned w) (.unsigned w) (.unsigned w) :=
  ⟨adds_plus, adds_plus, adds_plus, conv_self _⟩

/-- **The parallel prefix sum** of an unsigned type, in all four modes, from any start value, of an
array of its own or in place. -/
theorem prefix_sums (env : Schedule (.unsigned w)) (input : Reader (.unsigned w) (.unsigned w))
    (zero : (unsigned w).Val) (n : ℕ) (inclusive back : Bool) (out : ℕ → (unsigned w).Val) :
    PrefixSums (input.read out) zero n inclusive back out
      (scan env (plus (.unsigned w)) zero back (.unsigned w) input 0 n inclusive out) := by
  have h := scan_sums env scanAdds_plus scanAdds_plus input zero back 0 n inclusive out
  simp only [conv_self] at h
  exact h

end PrefixSum

end NetworkDemo.GangUtil
