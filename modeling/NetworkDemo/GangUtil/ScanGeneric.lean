import NetworkDemo.GangUtil.Scan

/-!
# The scan with any function

The serial scan is right for any `f` and any start value. The blocked one starts the
reduction of every block from `(U)0`, so it is right for an associative and commutative
`f` with identity `e` when `e` is zero (`scan_eq_serial`), and when it is not, wrong for
every length that takes more than one block: the second block of an array of `e`s
starts from zero (`scan_ne_serial`).
-/

namespace NetworkDemo.GangUtil

open Foundations CTy

/-- `GangUtil::minf`. -/
def minf (τ : CTy) (x y : τ.Val) : τ.Val := if τ.toInt x < τ.toInt y then x else y

section Generic

variable {τ : CTy} {f : τ.Val → τ.Val → τ.Val} {e : τ.Val} {n : ℕ}

/-- `f` is associative and commutative, and `e` is its identity. -/
structure CommWithIdentity (f : τ.Val → τ.Val → τ.Val) (e : τ.Val) : Prop where
  assoc : ∀ x y z, f (f x y) z = f x (f y z)
  comm : ∀ x y, f x y = f y x
  identity : ∀ x, f e x = x

/-- The values under `f`. -/
abbrev CommWithIdentity.monoid (h : CommWithIdentity f e) : AddCommMonoid τ.Val where
  add := f
  add_assoc := h.assoc
  zero := e
  zero_add := h.identity
  add_zero x := (h.comm x e).trans (h.identity x)
  nsmul := @nsmulRec _ ⟨e⟩ ⟨f⟩
  add_comm := h.comm

/-- What a scan leaves and returns is settled by the sums. -/
theorem PrefixSums.unique [AddCommMonoid τ.Val] {x : ℕ → τ.Val} {zero : τ.Val}
    {inclusive back : Bool} {out : ℕ → τ.Val} {res res' : τ.Val × (ℕ → τ.Val)}
    (h : PrefixSums x zero n inclusive back out res)
    (h' : PrefixSums x zero n inclusive back out res') : res = res' := by
  refine Prod.ext (h.total.trans h'.total.symm) (funext fun i => ?_)
  rcases Nat.lt_or_ge i n with hi | hi
  · rw [h.sums i hi, h'.sums i hi]
  · rw [h.rest i hi, h'.rest i hi]

/-- With zero for its identity the scan agrees with the serial one. -/
theorem scan_eq_serial (h : CommWithIdentity f (τ.ofInt 0)) (env : Schedule τ) (input : Reader τ τ)
    (zero : τ.Val) (inclusive back : Bool) (out : ℕ → τ.Val) :
    scan env f zero back τ input 0 n inclusive out =
      scanSerial f input 0 n zero inclusive back out := by
  let _ := h.monoid
  have hadds : Adds f τ τ τ := fun r x => by
    rw [call_self, conv_self, conv_self, conv_self]
    rfl
  have hscan : ScanAdds f τ τ τ := ⟨hadds, hadds, hadds, conv_self _⟩
  exact (scan_sums env hscan hscan input zero back 0 n inclusive out).unique
    (prefixSums_serial hadds)

/-- The fold of identities changes nothing. -/
theorem fold_identity (h : ∀ x, f x e = x) (r : τ.Val) (is : List ℕ) :
    fold f (fun _ => e) r is = r := by
  induction is with
  | nil => rfl
  | cons i is ih =>
    show fold f (fun _ => e) (call f r e) is = r
    rw [call_self, h, ih]

/-- A scan's first block is right whatever `f` is. -/
theorem scan_first (env : Schedule τ) (f : τ.Val → τ.Val → τ.Val) (zero : τ.Val)
    (input : Reader τ τ) (depth : ℕ) {n i : ℕ} (out : ℕ → τ.Val) (hi : i < n)
    (hb : i < BLOCK_SIZE) :
    (scan env f zero false τ input depth n false out).2 i = fold f (input.read out) zero
    (List.range i) := by
  induction n using Nat.strong_induction_on generalizing input depth i out with
  | _ n ih =>
    have hserial : ∀ (m : ℕ) (z : τ.Val), i < m → (scanSerial f input 0 m z false false out).2 i =
        fold f (input.read out) z (List.range i) := fun m z hm => by
      simpa using scanSerial_forward f input 0 out z hm
    by_cases hnb : numBlocks n ≤ 1
    · rw [scan_serial hnb, hserial n zero hi]
    obtain ⟨p, hp⟩ : ∃ p, p = scan env f zero false τ .same (depth + 1) (numBlocks n) false
      (reduceBlocks f (env.order depth false (numBlocks n)) (input.read out) n (env.fresh depth)) :=
        ⟨_, rfl⟩
    -- the first block starts from the start value
    have hstart : p.2 0 = zero := by
      rw [hp, ih (numBlocks n) (numBlocks_lt hnb) .same (depth + 1) _ (by omega) (by decide)]
      rfl
    have hlen : i < blockLen n 0 := by
      have h0 : 0 < numBlocks n := by omega
      rw [blockLen, if_neg (by omega)]
      exact hb
    rw [scan_blocks hnb hp]
    have happ := scanBlocks_apply f input false false out (env.perm depth true (numBlocks n)) p.2
      (j := 0) (by omega) hlen
    rw [Nat.zero_mul, Nat.zero_add, hstart, hserial _ zero hlen] at happ
    exact happ

/-- The second block of an array of identities starts from zero, and should from the identity. -/
theorem scan_ne_serial (h : CommWithIdentity f e) (hn : ¬ numBlocks n ≤ 1) :
    (scan (inOrder τ) f e false τ (.apart fun _ => e) 0 n false fun _ => e).2 BLOCK_SIZE =
      τ.ofInt 0 ∧
      (scanSerial f (.apart fun _ => e : Reader τ τ) 0 n e false false fun _ => e).2 BLOCK_SIZE =
        e := by
  have hright : ∀ x, f x e = x := fun x => (h.comm x e).trans (h.identity x)
  have hlt : BLOCK_SIZE < n := by
    have := (numBlocks_bounds n).2 1 (by omega)
    omega
  constructor
  · obtain ⟨p, hp'⟩ : ∃ p, p = scan (inOrder τ) f e false τ .same (0 + 1) (numBlocks n) false
      (reduceBlocks f ((inOrder τ).order 0 false (numBlocks n))
        (Reader.read (.apart fun _ => e) fun _ => e) n
        ((inOrder τ).fresh 0)) := ⟨_, rfl⟩
    have hp : p = scan (inOrder τ) f e false τ .same 1 (numBlocks n) false
        (reduceBlocks f (List.range (numBlocks n)) (fun _ => e) n fun _ => τ.ofInt 0) := hp'
    -- the sum of the first block, from zero
    have hsum : reduceBlocks f (List.range (numBlocks n)) (fun _ => e) n (fun _ => τ.ofInt 0) 0 =
        τ.ofInt 0 := by
      rw [reduceBlocks_apply _ _ (List.mem_range.mpr (by omega)), conv_self]
      show fold f (fun _ => e) (conv τ (τ.ofInt 0)) _ = _
      rw [fold_identity hright, conv_self]
    have hstart : p.2 1 = τ.ofInt 0 := by
      rw [hp, scan_first _ _ _ _ _ _ (by omega) (by decide)]
      show call f e (reduceBlocks f _ _ n _ 0) = _
      rw [hsum, call_self, h.identity]
    have hlen : 0 < blockLen n 1 := by
      unfold blockLen
      split_ifs
      · omega
      · decide
    rw [scan_blocks hn hp']
    have happ := scanBlocks_apply f (.apart fun _ => e) false false (fun _ => e)
      ((inOrder τ).perm 0 true (numBlocks n)) p.2 (j := 1) (by omega) hlen
    have hser := scanSerial_forward f (.apart fun _ => e : Reader τ τ) (1 * BLOCK_SIZE)
      (fun _ => e) (p.2 1) hlen
    rw [hser, hstart, Nat.one_mul, Nat.add_zero] at happ
    exact happ.trans (conv_self _)
  · have hser := scanSerial_forward f (.apart fun _ => e : Reader τ τ) 0 (fun _ => e) e hlt
    rw [Nat.zero_add] at hser
    rw [hser, conv_self]
    exact fold_identity hright e _

/-- The scan of `n` elements with `f`, from `e`, leaves and returns what the serial one does, in all
four modes. -/
def Agrees (f : τ.Val → τ.Val → τ.Val) (e : τ.Val) (n : ℕ) : Prop :=
  ∀ (env : Schedule τ) (input : Reader τ τ) (inclusive back : Bool) (out : ℕ → τ.Val),
    scan env f e back τ input 0 n inclusive out = scanSerial f input 0 n e inclusive back out

/-- **Exactly when** it does. -/
theorem agrees_iff (h : CommWithIdentity f e) (n : ℕ) :
    Agrees f e n ↔ numBlocks n ≤ 1 ∨ e = τ.ofInt 0 := by
  constructor
  · intro hall
    by_contra hno
    rw [not_or] at hno
    obtain ⟨h1, h2⟩ := scan_ne_serial h hno.1
    rw [hall] at h1
    exact hno.2 (h2.symm.trans h1)
  · rintro (hn | rfl) env input inclusive back out
    · exact scan_serial hn
    · exact scan_eq_serial h env input _ inclusive back out

end Generic

section Min

variable {τ : CTy}

theorem toInt_inj {x y : τ.Val} (h : τ.toInt x = τ.toInt y) : x = y := by
  rw [← ofInt_toInt x, h, ofInt_toInt]

/-- The minimum has the greatest value for its identity. -/
theorem minf_comm (e : τ.Val) (he : ∀ x, τ.toInt x ≤ τ.toInt e) : CommWithIdentity (minf τ) e where
  assoc x y z := by
    unfold minf
    split_ifs <;> first | rfl | omega
  comm x y := by
    unfold minf
    split_ifs
    · omega
    · rfl
    · rfl
    · exact toInt_inj (by omega)
  identity x := by
    unfold minf
    have := he x
    rw [if_neg (by omega)]

end Min

/-- The largest `unsigned char`. -/
theorem minf_uchar : CommWithIdentity (minf (.unsigned .w8)) 255 :=
  minf_comm _ fun x => by
    have : x.toNat < 2 ^ 8 := x.isLt
    show (x.toNat : ℤ) ≤ 255
    omega

/-- An array of one block. -/
theorem agrees_iff_uchar :
    Agrees (minf (.unsigned .w8)) 255 100 ↔ numBlocks 100 ≤ 1 ∨ 255 = (unsigned .w8).ofInt 0 :=
  agrees_iff minf_uchar 100

/-- **The minimum of bytes**, for an array of one more than a block. -/
theorem not_agrees_uchar :
    CommWithIdentity (minf (.unsigned .w8)) 255 ∧ ¬ Agrees (minf (.unsigned .w8)) 255 2049 := by
  refine ⟨minf_uchar, fun hall => ?_⟩
  obtain ⟨h1, h2⟩ := scan_ne_serial (n := 2049) minf_uchar (by decide)
  rw [hall] at h1
  exact absurd (h2.symm.trans h1) (by decide)

end NetworkDemo.GangUtil
