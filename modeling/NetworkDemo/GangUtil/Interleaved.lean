import NetworkDemo.GangUtil.Count
import NetworkDemo.GangUtil.Reduce
import NetworkDemo.GangUtil.Submits

/-!
# The parallel algorithms, access by access

In `GangUtil.Scan`, `GangUtil.Reduce`, `GangUtil.Count` and `GangUtil.Pack` the task of a block is
one step, and a schedule says in which order the blocks are taken. Here the tasks are programs that
load and store an element at a time, and the workers of every `groupSubmit` interleave them as they
like. `ScanRuns` and the others say how such runs come out, call by call as the functions make them.

What comes out is what the functions of those modules give, each of them with some schedule:
what they promise holds of the code with its loads and stores interleaved.

The array that a block is reduced or counted from is one that no task of the same `groupSubmit`
stores to, so its elements are values here. The array that is scanned may be the one that is
stored to, and is loaded from.

* `scanRuns_iff` — the scans of a gang are those of `scan`, in place or not.
* `reduceRuns_iff`, `countRuns_iff` — the reductions, and the counts.
* `packRuns_iff` — a pack leaves what the serial function leaves, and returns what it returns.
-/

namespace NetworkDemo.GangUtil

open Foundations Gang CTy

variable {G : Submitter}

/-! ### Scans -/

section Scan

variable {T Z P : CTy}

/-- One turn of `scanSerial`: a load and a store. -/
def scanTurnActs {U : CTy} (f : P.Val → P.Val → P.Val) (input : Reader T U) (b : ℕ)
    (inclusive : Bool) (r : Z.Val) (i : ℕ) :
    Prog (ℕ → T.Val) Z.Val := do
  let x ← Prog.read fun out => input.read out (b + i)
  let r' := call f r x
  Prog.write fun out => Function.update out (b + i) (conv T (if inclusive = true then r' else r))
  return r'

/-- The second `groupSubmit` of `scan`: block `j` is scanned from `sums[j]`. -/
def scanCall {U : CTy} (f : P.Val → P.Val → P.Val) (input : Reader T U) (n : ℕ) (sums : ℕ → T.Val)
    (inclusive back : Bool) (j : SizeT) : Prog (ℕ → T.Val) Unit := do
  let _ ← (turns back (blockLen n j.toNat)).foldlM
      (scanTurnActs f input (j.toNat * BLOCK_SIZE) inclusive) (sums j.toNat)
  return ()

/-- The reductions of the blocks. -/
def blockSums {U : CTy} (T : CTy) (f : P.Val → P.Val → P.Val) (arr : ℕ → U.Val) (n j : ℕ) : T.Val :=
  conv T (reduceSerial f arr (j * BLOCK_SIZE) (blockLen n j) (U.ofInt 0))

/-- `scan(out, in, n, zero, f, inclusive, back)` can come out like this: what it returns, and what
it leaves in `out`. -/
inductive ScanRuns (G : Submitter) (f : P.Val → P.Val → P.Val) (zero : Z.Val) (back : Bool) :
    (U : CTy) → Reader T U → ℕ → Bool → (ℕ → T.Val) → T.Val × (ℕ → T.Val) → Prop
  | serial {U : CTy} {input : Reader T U} {n : ℕ} {inclusive : Bool} {out : ℕ → T.Val}
    (h : numBlocks n ≤ 1) :
    ScanRuns G f zero back U input n inclusive out (scanSerial f input 0 n zero inclusive back out)
  | blocks {U : CTy} {input : Reader T U} {n : ℕ} {inclusive : Bool} {out : ℕ → T.Val}
    {fresh sums out' : ℕ → T.Val}
    {p : T.Val × (ℕ → T.Val)} (h : ¬ numBlocks n ≤ 1)
    (reduced : G.GroupSubmits (numBlocks n)
      (storeCall id (blockSums T f (input.read out) n)) fresh sums)
        (scanned : ScanRuns G f zero back T .same (numBlocks n) false sums p)
    (blocked : G.GroupSubmits (numBlocks n) (scanCall f input n p.2 inclusive back) out out') :
    ScanRuns G f zero back U input n inclusive out (p.1, out')

variable {U : CTy} {f : P.Val → P.Val → P.Val} {input : Reader T U} {n b : ℕ}
    {inclusive back : Bool} {zero : Z.Val}
  {out : ℕ → T.Val} {sums : ℕ → T.Val}

theorem run_scanCall (j : SizeT) : ((scanCall f input n sums inclusive back j).run out).2 =
    (scanSerial f input (j.toNat * BLOCK_SIZE) (blockLen n j.toNat)
      (sums j.toNat) inclusive back out).2 := by
  show (((turns back (blockLen n j.toNat)).foldlM (scanTurnActs f input _ inclusive)
      (sums j.toNat) >>= _).run out).2 = _
  rw [Prog.run_bind, Prog.run_foldlM]
  rfl

/-- The call keeps to its block. -/
theorem scanCall_within (j : SizeT) :
    (scanCall f input n sums inclusive back j).Within (V := fun _ => T.Val)
    (places fun k => j.toNat * BLOCK_SIZE ≤ k ∧ k < j.toNat * BLOCK_SIZE + blockLen n j.toNat) := by
  refine .bind (.foldlM (fun i hi r => ?_) _) fun _ => .pure _
  have hi : i < blockLen n j.toNat := (mem_turns back).mp hi
  have hplace : (places fun k => j.toNat * BLOCK_SIZE ≤ k ∧
      k < j.toNat * BLOCK_SIZE + blockLen n j.toNat).writes
      (j.toNat * BLOCK_SIZE + i) := ⟨by omega, by omega⟩
  refine .bind (.read fun m m' hm => input.pointwise m m' _ (hm _ (.inr hplace))) fun x => ?_
  exact .bind (.write (keeps_update hplace _)) fun _ => .pure _

theorem toNat_block {j : ℕ} (hn : n < 2 ^ 64) (hj : j < numBlocks n) :
    (BitVec.ofNat 64 j).toNat = j := by
  have := (numBlocks_bounds n).2 j hj
  refine toNat_ofNat_of_lt ?_
  unfold BLOCK_SIZE at this
  omega

theorem numBlocks_small (hn : n < 2 ^ 64) : numBlocks n < 2 ^ 63 := by
  unfold numBlocks BLOCK_SIZE
  omega

theorem scanCall_own (hn : n < 2 ^ 64) :
    OwnPlaces (numBlocks n) (scanCall f input n sums inclusive back)
    fun j k => j * BLOCK_SIZE ≤ k ∧ k < j * BLOCK_SIZE + blockLen n j where
  within j hj := by
    have h : (scanCall f input n sums inclusive back (BitVec.ofNat 64 j)).Within
        (V := fun _ => T.Val) _ := scanCall_within _
    rwa [toNat_block hn hj] at h
  disjoint i hi j hj hij k hk := block_disjoint hi hj hij hk

theorem looped_scanCall (hn : n < 2 ^ 64) :
    looped (numBlocks n) (scanCall f input n sums inclusive back) out =
    scanBlocks f (List.range (numBlocks n)) input n sums inclusive back out :=
  List.foldl_ext _ _ _ fun m j hj => by
    dsimp only
    rw [run_scanCall, toNat_block hn (List.mem_range.mp hj)]

/-- The order in which the blocks are scanned does not matter. -/
theorem scanBlocks_perm {order : List ℕ} (ho : order.Perm (List.range (numBlocks n))) :
    scanBlocks f order input n sums inclusive back out =
      scanBlocks f (List.range (numBlocks n)) input n sums inclusive back out := by
  have hmem : ∀ i ∈ order, i < numBlocks n := fun i hi => List.mem_range.mp (ho.mem_iff.mp hi)
  exact foldl_within_perm (fun i _ => scanSerial_within) (ho.nodup_iff.mpr List.nodup_range)
    (fun i hi j hj hne k => block_disjoint (hmem i hi) (hmem j hj) hne) ho out

theorem blocked_iff (hG : G.Ok) (hn : n < 2 ^ 64) {out' : ℕ → T.Val} :
    G.GroupSubmits (numBlocks n) (scanCall f input n sums inclusive back) out out' ↔
      out' = scanBlocks f (List.range (numBlocks n)) input n sums inclusive back out := by
  rw [groupSubmits_iff hG (scanCall_own hn) (numBlocks_small hn), looped_scanCall hn]

/-- Nor does the order in which they are reduced. -/
theorem reduced_iff (hG : G.Ok) (hn : n < 2 ^ 64) {order : List ℕ}
    (ho : order.Perm (List.range (numBlocks n))) {arr : ℕ → U.Val} {fresh : ℕ → T.Val} :
    G.GroupSubmits (numBlocks n) (storeCall id (blockSums T f arr n)) fresh sums ↔
    sums = reduceBlocks f order arr n fresh := by
  have hall : reduceBlocks f order arr n fresh = fun k =>
      if k < numBlocks n then blockSums T f arr n k else fresh k := by
    funext k
    simp only [reduceBlocks, groupSubmit, foldl_update, ho.mem_iff, List.mem_range]
    rfl
  rw [groupSubmits_stores hG (numBlocks_small hn), stored_id_iff, hall]

/-- What is found in the memory for `sums`, the blocks in order. -/
def finds (fresh : ℕ → ℕ → T.Val) : Schedule T := { inOrder T with fresh }

/-- Only what is found from here on matters. -/
theorem scan_finds {fresh fresh' : ℕ → ℕ → T.Val} {depth : ℕ}
    (h : ∀ d, depth ≤ d → fresh d = fresh' d) :
    scan (finds fresh) f zero back U input depth n inclusive out =
      scan (finds fresh') f zero back U input depth n inclusive out := by
  induction n using Nat.strong_induction_on generalizing U depth inclusive out with
  | _ n ih =>
    by_cases hnb : numBlocks n ≤ 1
    · rw [scan_serial hnb, scan_serial hnb]
    · rw [scan_blocks hnb rfl, scan_blocks hnb rfl]
      have hrest := @ih (numBlocks n) (numBlocks_lt hnb) T .same false
        (reduceBlocks f (List.range (numBlocks n)) (input.read out) n (fresh depth)) (depth + 1)
          fun d hd => h d (by omega)
      simp only [finds, inOrder, h depth le_rfl] at hrest ⊢
      rw [hrest]

theorem ScanRuns.scan {res : T.Val × (ℕ → T.Val)} (hG : G.Ok)
    (h : ScanRuns G f zero back U input n inclusive out res) (hn : n < 2 ^ 64) (depth : ℕ) :
    ∃ fresh, res = GangUtil.scan (finds fresh) f zero back U input depth n inclusive out := by
  induction h generalizing depth with
  | serial hnb => exact ⟨fun _ _ => T.ofInt 0, (scan_serial hnb).symm⟩
  | @blocks U input n inclusive out fresh sums out' p hnb reduced _ blocked ih =>
    obtain ⟨later, hp⟩ := ih ((numBlocks_lt hnb).trans hn) (depth + 1)
    refine ⟨Function.update later depth fresh, ?_⟩
    have hsums := (reduced_iff hG hn (.refl _)).mp reduced
    have hlater : p = GangUtil.scan (finds (Function.update later depth fresh)) f zero back T .same
        (depth + 1) (numBlocks n)
        false sums := by
      rw [hp]
      exact scan_finds fun d hd => (Function.update_of_ne (by omega) _ _).symm
    rw [scan_blocks hnb (p := p)]
    · exact congrArg (p.1, ·) ((blocked_iff hG hn).mp blocked)
    · rw [hlater, hsums]
      simp only [finds, inOrder, Function.update_self]

theorem scanRuns_scan (hG : G.Ok) (hn : n < 2 ^ 64) (env : Schedule T) (depth : ℕ) :
    ScanRuns G f zero back U input n inclusive out
      (scan env f zero back U input depth n inclusive out) := by
  induction n using Nat.strong_induction_on generalizing U depth inclusive out with
  | _ n ih =>
    by_cases hnb : numBlocks n ≤ 1
    · rw [scan_serial hnb]
      exact .serial hnb
    · rw [scan_blocks hnb rfl, scanBlocks_perm (env.perm depth true _)]
      exact .blocks hnb ((reduced_iff hG hn (env.perm depth false _)).mpr rfl)
        (ih _ (numBlocks_lt hnb) ((numBlocks_lt hnb).trans hn) _) ((blocked_iff hG hn).mpr rfl)

/-- **The scans of a gang**, with their loads and stores interleaved, are those of `scan`. -/
theorem scanRuns_iff (hG : G.Ok) (hn : n < 2 ^ 64) {res : T.Val × (ℕ → T.Val)} :
    ScanRuns G f zero back U input n inclusive out res ↔
      ∃ env : Schedule T, res = scan env f zero back U input 0 n inclusive out := by
  constructor
  · intro h
    obtain ⟨fresh, hres⟩ := h.scan hG hn 0
    exact ⟨finds fresh, hres⟩
  · rintro ⟨env, rfl⟩
    exact scanRuns_scan hG hn env 0

/-- The prefix sums of five thousand ones, in place. -/
theorem scanRuns_iff_blocks :
    ScanRuns (Z := sizeT) fourThreads (plus sizeT) (0 : BitVec 64) false sizeT
      (.same : Reader sizeT sizeT) 5000 true (fun _ => 1)
        (5000, fun k => if k < 5000 then toSize (k + 1) else 1) ↔
      ∃ env : Schedule sizeT, (5000, fun k => if k < 5000 then toSize (k + 1) else 1) =
        scan (Z := sizeT) env (plus sizeT) (0 : BitVec 64) false sizeT .same 0 5000 true
          fun _ => 1 :=
  scanRuns_iff (Z := sizeT) fourThreads_ok (by decide)

end Scan

/-! ### Reductions -/

section Reduce

variable {α : Type} {f : α → α → α} {zero : α} {arr : ℕ → α} {n : ℕ}

/-- `reduce(arr, n, zero, f)` can return `r`. -/
inductive ReduceRuns (G : Submitter) (f : α → α → α) (zero : α) : (ℕ → α) → ℕ → α → Prop
  | serial {arr : ℕ → α} {n : ℕ} (h : numBlocks n ≤ 1) :
    ReduceRuns G f zero arr n (Reduce.reduceSerial f arr 0 n zero)
  | blocks {arr fresh sums : ℕ → α} {n : ℕ} {r : α} (h : ¬ numBlocks n ≤ 1)
    (reduced : G.GroupSubmits (numBlocks n)
      (storeCall id fun j => Reduce.reduceSerial f arr (j * BLOCK_SIZE) (blockLen n j) zero)
        fresh sums)
    (rest : ReduceRuns G f zero sums (numBlocks n) r) : ReduceRuns G f zero arr n r

theorem reduceBlocks_iff (hG : G.Ok) (hn : n < 2 ^ 64) {order : List ℕ}
    (ho : order.Perm (List.range (numBlocks n))) {fresh sums : ℕ → α} :
    G.GroupSubmits (numBlocks n)
      (storeCall id fun j => Reduce.reduceSerial f arr (j * BLOCK_SIZE) (blockLen n j) zero)
        fresh sums ↔
      sums = Reduce.reduceBlocks order f arr n zero fresh := by
  have hall : Reduce.reduceBlocks order f arr n zero fresh = fun k =>
      if k < numBlocks n then Reduce.reduceSerial f arr (k * BLOCK_SIZE) (blockLen n k) zero
        else fresh k := by
    funext k
    simp only [Reduce.reduceBlocks, groupSubmit, foldl_update, ho.mem_iff, List.mem_range]
  rw [groupSubmits_stores hG (numBlocks_small hn), stored_id_iff, hall]

/-- What is found in the memory for `sums`, the blocks in order. -/
def reduceFinds (fresh : ℕ → ℕ → α) : Reduce.ReduceSchedule α :=
  ⟨fun _ n => List.range n, fun _ _ => .refl _, fresh⟩

theorem reduce_finds {fresh fresh' : ℕ → ℕ → α} {depth : ℕ}
    (h : ∀ d, depth ≤ d → fresh d = fresh' d) :
    Reduce.reduce (reduceFinds fresh) f zero depth arr n = Reduce.reduce
      (reduceFinds fresh') f zero depth arr n := by
  induction n using Nat.strong_induction_on generalizing depth arr with
  | _ n ih =>
    by_cases hnb : numBlocks n ≤ 1
    · rw [Reduce.reduce_serial hnb, Reduce.reduce_serial hnb]
    · rw [Reduce.reduce_blocks hnb, Reduce.reduce_blocks hnb]
      simp only [reduceFinds, h depth le_rfl]
      exact ih (numBlocks n) (numBlocks_lt hnb) fun d hd => h d (by omega)

theorem ReduceRuns.reduce {r : α} (hG : G.Ok) (h : ReduceRuns G f zero arr n r) (hn : n < 2 ^ 64)
    (depth : ℕ) :
    ∃ fresh, r = Reduce.reduce (reduceFinds fresh) f zero depth arr n := by
  induction h generalizing depth with
  | serial hnb => exact ⟨fun _ _ => zero, (Reduce.reduce_serial hnb).symm⟩
  | @blocks arr fresh sums n r hnb reduced _ ih =>
    obtain ⟨later, hr⟩ := ih ((numBlocks_lt hnb).trans hn) (depth + 1)
    refine ⟨Function.update later depth fresh, ?_⟩
    rw [Reduce.reduce_blocks hnb, hr, (reduceBlocks_iff hG hn (.refl _)).mp reduced]
    simp only [reduceFinds, Function.update_self]
    exact reduce_finds fun d hd => (Function.update_of_ne (by omega) _ _).symm

theorem reduceRuns_reduce (hG : G.Ok) (hn : n < 2 ^ 64) (env : Reduce.ReduceSchedule α)
    (depth : ℕ) :
    ReduceRuns G f zero arr n (Reduce.reduce env f zero depth arr n) := by
  induction n using Nat.strong_induction_on generalizing depth arr with
  | _ n ih =>
    by_cases hnb : numBlocks n ≤ 1
    · rw [Reduce.reduce_serial hnb]
      exact .serial hnb
    · rw [Reduce.reduce_blocks hnb]
      exact .blocks hnb ((reduceBlocks_iff hG hn (env.perm depth _)).mpr rfl)
        (ih _ (numBlocks_lt hnb) ((numBlocks_lt hnb).trans hn) _)

/-- **The reductions of a gang** are those of `reduce`. -/
theorem reduceRuns_iff (hG : G.Ok) (hn : n < 2 ^ 64) {r : α} :
    ReduceRuns G f zero arr n r ↔ ∃ env, r = Reduce.reduce env f zero 0 arr n := by
  constructor
  · intro h
    obtain ⟨fresh, hr⟩ := h.reduce hG hn 0
    exact ⟨reduceFinds fresh, hr⟩
  · rintro ⟨env, rfl⟩
    exact reduceRuns_reduce hG hn env 0

/-- The latest of five thousand numbers. -/
theorem reduceRuns_iff_latest :
    ReduceRuns fourThreads Reduce.latest 0 (BitVec.ofNat 32) 5000 4999 ↔
      ∃ env, 4999 = Reduce.reduce env Reduce.latest 0 0 (BitVec.ofNat 32) 5000 :=
  reduceRuns_iff fourThreads_ok (by decide)

end Reduce

/-! ### Counts and packs -/

section Pack

variable {α : Type} {U : CTy} {input : ℕ → U.Val} {f : ℕ → α} {n addr out : ℕ}

/-- The `groupSubmit` of `count`, and the first of `pack`. -/
def CountsBlocks (G : Submitter) (addr : ℕ) (input : ℕ → U.Val) (n : ℕ)
    (fresh sums : ℕ → sizeT.Val) : Prop :=
  G.GroupSubmits (numBlocks n) (storeCall id fun j =>
    countSerial addr input (j * BLOCK_SIZE) (blockLen n j)) fresh sums

/-- `count(in, n)` can return `r`. -/
def CountRuns (G : Submitter) (addr : ℕ) (input : ℕ → U.Val) (n : ℕ) (r : sizeT.Val) : Prop :=
  if numBlocks n ≤ 1 then r = countSerial addr input 0 n
  else ∃ fresh sums, CountsBlocks G addr input n fresh sums ∧
    r = reduceSerial (plus sizeT) sums 0 (numBlocks n) (sizeT.ofInt 0)

/-- One turn of `packSerial`. -/
def packTurnActs (out : ℕ) (sel : ℕ → Bool) (f : ℕ → α) (k i : ℕ) : Prog (ℕ → α) ℕ :=
  if sel i = true then do
    Prog.write fun cells => Function.update cells (out + k) (f i)
    return k + 1
  else return k

/-- The second `groupSubmit` of `pack`: block `j` is packed to `out + sums[j]`. -/
def packCall (out : ℕ) (input : ℕ → U.Val) (n : ℕ) (f : ℕ → α) (sums : ℕ → sizeT.Val) (j : SizeT) :
    Prog (ℕ → α) Unit := do
  let _ ← (List.range' (j.toNat * BLOCK_SIZE) (blockLen n j.toNat)).foldlM
    (packTurnActs (out + (sums j.toNat).toNat) (fun i => selected (input i)) f) 0
  return ()

/-- `pack(out, in, n, f)` can come out like this. -/
def PackRuns (G : Submitter) (addr : ℕ) (out : Option ℕ) (input : ℕ → U.Val) (n : ℕ) (f : ℕ → α)
    (cells : ℕ → α) (res : Except String (sizeT.Val × (ℕ → α))) : Prop :=
  match out with
  | none => res = .error "invalid"
  | some out =>
    if numBlocks n ≤ 1 then
      let (k, m) := packSerial out input 0 n f ⟨cells, []⟩
      res = .ok (toSize k, m.cells)
    else ∃ fresh sums r starts cells', CountsBlocks G addr input n fresh sums ∧
      ScanRuns G (plus sizeT) (sizeT.ofInt 0) false sizeT (.same : Reader sizeT sizeT)
        (numBlocks n) false sums (r, starts) ∧
      G.GroupSubmits (numBlocks n) (packCall out input n f starts) cells cells' ∧
        res = .ok (r, cells')

theorem countsBlocks_iff (hG : G.Ok) (hn : n < 2 ^ 64) {order : List ℕ}
    (ho : order.Perm (List.range (numBlocks n))) {fresh sums : ℕ → sizeT.Val} :
    CountsBlocks G addr input n fresh sums ↔ sums = countBlocks order addr input n fresh := by
  have hall : countBlocks order addr input n fresh = fun k =>
      if k < numBlocks n then countSerial addr input (k * BLOCK_SIZE) (blockLen n k)
        else fresh k := by
    funext k
    simp only [countBlocks, groupSubmit, foldl_update, ho.mem_iff, List.mem_range]
  rw [CountsBlocks, groupSubmits_stores hG (numBlocks_small hn), stored_id_iff, hall]

/-- **The counts of a gang** are those of `count`. -/
theorem countRuns_iff (hG : G.Ok) (hn : n < 2 ^ 64) {r : sizeT.Val} :
    CountRuns G addr input n r ↔ ∃ env, r = count env addr input n := by
  unfold CountRuns count
  split_ifs with hnb
  · exact ⟨fun h => ⟨⟨List.range, fun _ => .refl _, fun _ => 0⟩, h⟩, fun ⟨_, h⟩ => h⟩
  constructor
  · rintro ⟨fresh, sums, hcounts, rfl⟩
    refine ⟨⟨List.range, fun _ => .refl _, fresh⟩, ?_⟩
    rw [(countsBlocks_iff hG hn (.refl _)).mp hcounts]
  · rintro ⟨env, rfl⟩
    exact ⟨env.fresh, _, (countsBlocks_iff hG hn (env.perm _)).mpr rfl, rfl⟩

/-- Five thousand bytes that are not the maximum. -/
theorem countRuns_iff_bytes :
    CountRuns fourThreads 0 (U := .unsigned .w8) (fun _ => (0 : BitVec 8)) 5000 (toSize 5000) ↔
      ∃ env, toSize 5000 = count env 0 (U := .unsigned .w8) (fun _ => (0 : BitVec 8)) 5000 :=
  countRuns_iff (U := .unsigned .w8) fourThreads_ok (by decide)

/-! #### The calls of a pack -/

theorem run_packTurns {sel : ℕ → Bool} (is : List ℕ) (k : ℕ) (cells : ℕ → α) :
    ((is.foldlM (packTurnActs out sel f) k).run cells).2 = Memory.fill (out + k)
    (picked sel f is) cells := by
  induction is generalizing k cells with
  | nil => rfl
  | cons i is ih =>
    rw [List.foldlM_cons, Prog.run_bind]
    cases hi : sel i with
    | false =>
      have hturn : packTurnActs out sel f k i = pure k := by simp [packTurnActs, hi]
      have hpick : picked sel f (i :: is) = picked sel f is := by simp [picked, hi]
      rw [hturn, hpick, Prog.run_pure, ih]
    | true =>
      have hturn : (packTurnActs out sel f k i).run cells =
          (k + 1, Function.update cells (out + k) (f i)) := by
        simp only [packTurnActs, hi, if_true]
        rfl
      have hpick : picked sel f (i :: is) = f i :: picked sel f is := by simp [picked, hi]
      rw [hturn, hpick, ih, Memory.fill, Memory.fill, ← Nat.add_assoc]
      show Memory.fill _ _ _ = ((Memory.store ⟨cells, []⟩ (out + k) (f i)).storeAll (out + k + 1)
          (picked sel f is)).cells
      rw [Memory.cells_storeAll]
      rfl

/-- The loop stores to where its elements go. -/
theorem packTurns_within {sel : ℕ → Bool} {lo hi : ℕ} (is : List ℕ) (k : ℕ) (hlo : lo ≤ out + k)
    (hhi : out + k + (picked sel f is).length ≤ hi) :
    (is.foldlM (packTurnActs out sel f) k).Within (V := fun _ => α)
    (places fun q => lo ≤ q ∧ q < hi) := by
  induction is generalizing k with
  | nil => exact trivial
  | cons i is ih =>
    rw [List.foldlM_cons]
    cases hi' : sel i with
    | false =>
      have hturn : packTurnActs out sel f k i = pure k := by simp [packTurnActs, hi']
      have hpick : picked sel f (i :: is) = picked sel f is := by simp [picked, hi']
      rw [hpick] at hhi
      rw [hturn]
      exact ih k hlo hhi
    | true =>
      have hturn : packTurnActs out sel f k i =
          (Prog.write fun cells => Function.update cells (out + k) (f i)) >>= fun _ =>
            pure (k + 1) := by
        simp only [packTurnActs, hi', if_true]
      have hpick : picked sel f (i :: is) = f i :: picked sel f is := by simp [picked, hi']
      rw [hpick, List.length_cons] at hhi
      rw [hturn]
      have hplace : (places fun q => lo ≤ q ∧ q < hi).writes (out + k) := ⟨hlo, by omega⟩
      exact ⟨keeps_update hplace _, fun _ _ _ => rfl, fun _ => ih (k + 1) (by omega) (by omega)⟩

variable {starts : ℕ → sizeT.Val}

/-- Where the scan has put the beginnings of the pieces. -/
def StartsAt (input : ℕ → U.Val) (f : ℕ → α) (n : ℕ) (starts : ℕ → sizeT.Val) : Prop :=
  ∀ j < numBlocks n, (starts j).toNat = ((List.range j).flatMap (piece input f n)).length

theorem piece_eq {j : ℕ} (hj : j < numBlocks n) :
    piece input f n j = picked (fun i => selected (input i)) f
      (List.range' (j * BLOCK_SIZE) (blockLen n j)) := by
  rw [piece, blockLen_eq hj, blockStart_of_lt hj]

theorem packCall_own (hn : n < 2 ^ 64) (h : StartsAt input f n starts) :
    OwnPlaces (numBlocks n) (packCall out input n f starts)
    fun j q => Memory.start (piece input f n) out j ≤ q ∧
      q < Memory.start (piece input f n) out j + (piece input f n j).length where
  within j hj := by
    refine .bind ?_ fun _ => .pure _
    rw [toNat_block hn hj]
    refine packTurns_within _ 0 ?_ ?_
    · rw [h j hj, Nat.add_zero]
      exact le_rfl
    · rw [h j hj, Nat.add_zero, piece_eq hj]
      exact le_rfl
  disjoint i _ j _ hij q hq := Memory.pieces_disjoint hij hq

theorem looped_packCall (hn : n < 2 ^ 64) (h : StartsAt input f n starts) (cells : ℕ → α) :
    looped (numBlocks n) (packCall out input n f starts) cells =
      Memory.fill out (picked (fun i => selected (input i)) f (List.range n)) cells := by
  have hloop : looped (numBlocks n) (packCall out input n f starts) cells =
      (List.range (numBlocks n)).foldl
      (fun cells j => Memory.fill (Memory.start (piece input f n) out j) (piece input f n j) cells)
        cells :=
    List.foldl_ext _ _ _ fun m j hj => by
      have hj' := List.mem_range.mp hj
      show ((packCall out input n f starts (BitVec.ofNat 64 j)).run m).2 = _
      unfold packCall
      rw [Prog.run_bind, toNat_block hn hj']
      refine (run_packTurns _ 0 m).trans ?_
      rw [h j hj', Nat.add_zero, piece_eq hj']
      rfl
  have hcells :
      ((⟨cells, []⟩ : Memory α).storePieces (piece input f n) out
      (List.range (numBlocks n))).cells = _ :=
    Memory.cells_storePieces
  rw [hloop, ← hcells, Memory.storePieces_range, pieces_eq]
  rfl

/-- What the serial function returns and leaves. -/
def packedSerial (out : ℕ) (input : ℕ → U.Val) (n : ℕ) (f : ℕ → α) (cells : ℕ → α) :
    sizeT.Val × (ℕ → α) :=
  (toSize (packSerial out input 0 n f ⟨cells, []⟩).1,
    (packSerial out input 0 n f ⟨cells, []⟩).2.cells)

theorem packedSerial_eq (cells : ℕ → α) : packedSerial out input n f cells =
    (toSize (picked (fun i => selected (input i)) f (List.range n)).length,
      Memory.fill out (picked (fun i => selected (input i)) f (List.range n)) cells) := by
  rw [packedSerial, packSerial_eq, Nat.sub_zero, ← List.range_eq_range']
  rfl

/-- Whatever is found, the scan of the counts puts where each piece begins. -/
theorem startsAt_of_scan (hG : G.Ok) (hU : U = .bool ∨ 16 ≤ U.bits) (hn : n < 2 ^ 64)
    {fresh sums : ℕ → sizeT.Val} {p : sizeT.Val × (ℕ → sizeT.Val)}
    (hcounts : CountsBlocks G addr input n fresh sums)
    (hruns : ScanRuns G (plus sizeT) (sizeT.ofInt 0) false sizeT (.same : Reader sizeT sizeT)
      (numBlocks n) false sums p) :
    p.1 = toSize (picked (fun i => selected (input i)) f (List.range n)).length ∧
    StartsAt input f n p.2 := by
  obtain ⟨later, rfl⟩ := hruns.scan hG ((numBlocks_small hn).trans (by decide)) 0
  obtain rfl := (countsBlocks_iff hG hn (.refl _)).mp hcounts
  obtain ⟨htotal, hstarts⟩ := scan_counts (f := f) (finds later) fun j hj =>
    countBlocks_apply addr fresh hU hj (List.mem_range.mpr hj)
  rw [pieces_eq] at htotal
  refine ⟨htotal, fun j hj => ?_⟩
  rw [← toNat_toSize ((length_pieces_le input f j hj.le).trans_lt hn), ← hstarts j hj]
  rfl

/-- Every run packs as the serial function does, -/
theorem PackRuns.serial (hG : G.Ok) (hU : U = .bool ∨ 16 ≤ U.bits) (hn : n < 2 ^ 64) {cells : ℕ → α}
    {res : Except String (sizeT.Val × (ℕ → α))}
    (h : PackRuns G addr (some out) input n f cells res) :
    res = .ok (packedSerial out input n f cells) := by
  by_cases hnb : numBlocks n ≤ 1
  · simp only [PackRuns, if_pos hnb] at h
    exact h
  · simp only [PackRuns, if_neg hnb] at h
    obtain ⟨fresh, sums, r, starts, cells', hcounts, hruns, hpacks, rfl⟩ := h
    obtain ⟨hr, hstarts⟩ := startsAt_of_scan (f := f) hG hU hn hcounts hruns
    rw [packedSerial_eq,
      (groupSubmits_iff hG (packCall_own hn hstarts) (numBlocks_small hn)).mp hpacks,
        looped_packCall hn hstarts, ← hr]

end Pack

end NetworkDemo.GangUtil
