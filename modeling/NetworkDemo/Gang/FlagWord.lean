import NetworkDemo.Gang.Protocol
import Mathlib.Data.Finset.Range

/-!
# The flag word

`Gang::reinit(n)` packs the round's generation and `n` into one word, and `Gang::run`
takes it apart with other masks: `-BAR_INCR` for the generation, and for the count
`BAR_WAS_LAST - 1`, which has eight bits. Eight bits hold `n` up to `255`; a
constructor accepts any number of threads.

* `roundTrip_iff` — the two agree, and as many threads arrive at `abb2` as `reinit`
  made it wait for, exactly when `n < 256`.
* `takesPart_own`, `takesPart_stale` — what a thread reads off the flag of its own
  round, and off the next round's when it comes late.
-/

namespace NetworkDemo.Gang

open Foundations Sync

variable {g state : U32} {n num id : ℕ}

/-! ### Reading the flag -/

theorem toNat_and_count (x : U32) : (x &&& (BAR_WAS_LAST - 1)).toNat = x.toNat % 256 :=
  toNat_and_mask (j := 8) x _ (by decide)

theorem takesPart_iff {ret : U32} : takesPart state ret id = true ↔
    (ret &&& -BAR_INCR).toNat ≤ (state &&& -BAR_INCR).toNat ∧ id < ret.toNat % 256 := by
  simp only [takesPart, skips, Bool.not_or, Bool.and_eq_true, Bool.not_eq_true',
    decide_eq_false_iff_not, BitVec.lt_def, not_lt, not_le, toNat_and_count]

/-- The flag's high bits hold at least the next generation. -/
theorem toNat_reinitFlag_high :
    ((g + BAR_INCR) &&& -BAR_INCR).toNat ≤ (reinitFlag g n &&& -BAR_INCR).toNat := by
  have hand : reinitFlag g n &&& -BAR_INCR =
      (g + BAR_INCR) &&& -BAR_INCR ||| (BitVec.ofNat 32 n &&& -BAR_INCR) := by
    apply BitVec.eq_of_getLsbD_eq
    intro i _
    simp only [reinitFlag, BitVec.getLsbD_and, BitVec.getLsbD_or]
    cases (g + BAR_INCR).getLsbD i <;> cases (-BAR_INCR).getLsbD i
      <;> cases (BitVec.ofNat 32 n).getLsbD i <;> rfl
  rw [hand, BitVec.toNat_or]
  exact Nat.left_le_or

/-- The flag's eight count bits hold `n` modulo `256`. -/
theorem toNat_reinitFlag_count : (reinitFlag g n).toNat % 256 = n % 256 := by
  have hg := toNat_and_neg_incr (g + BAR_INCR)
  have h9 : ((g + BAR_INCR) &&& -BAR_INCR).toNat % 2 ^ 8 = 0 := by rw [hg]; omega
  have hor : (reinitFlag g n).toNat % 2 ^ 8 = n % 2 ^ 8 := by
    rw [reinitFlag, BitVec.toNat_or, Nat.or_mod_two_pow, h9, Nat.zero_or, BitVec.toNat_ofNat]
    omega
  exact hor

/-- A count of eight bits leaves the generation alone. -/
theorem reinitFlag_high (hn : n < 256) : (reinitFlag g n &&& -BAR_INCR).toNat =
    ((g + BAR_INCR) &&& -BAR_INCR).toNat := by
  have hg := toNat_and_neg_incr (g + BAR_INCR)
  have hn' : (BitVec.ofNat 32 n).toNat = n := by rw [BitVec.toNat_ofNat]; omega
  have hor : (reinitFlag g n).toNat = ((g + BAR_INCR) &&& -BAR_INCR).toNat + n := by
    rw [reinitFlag, toNat_or_field (k := 9) _ _ (by rw [hg]; omega) (by rw [hn']; omega), hn']
  rw [toNat_and_neg_incr, hor]
  omega

/-- A thread that reads the flag of its own round takes part when its number is below the count. -/
theorem takesPart_own (hn : n < 256) :
    takesPart (g + BAR_INCR) (reinitFlag g n) id = true ↔ id < n := by
  rw [takesPart_iff, reinitFlag_high hn, toNat_reinitFlag_count, Nat.mod_eq_of_lt hn]
  simp

/-- Whatever the count, no thread with a larger number takes part in its place. -/
theorem lt_of_takesPart (h : takesPart state (reinitFlag g n) id = true) : id < n := by
  rw [takesPart_iff, toNat_reinitFlag_count] at h
  exact lt_of_lt_of_le h.2 (Nat.mod_le n 256)

/-- If a thread takes part, so do those with smaller numbers. -/
theorem takesPart_of_le {ret : U32} {id' : ℕ} (h : takesPart state ret id = true) (hle : id' ≤ id) :
    takesPart state ret id' = true := by
  rw [takesPart_iff] at h ⊢
  exact ⟨h.1, lt_of_le_of_lt hle h.2⟩

/-- A thread that is one round behind and reads the next flag does not take part, unless the
generation has wrapped in between. -/
theorem takesPart_stale (hg : Aligned g) (hw : g.toNat + 512 < 4294967296) :
    takesPart g (reinitFlag g n) id = false := by
  rw [Bool.eq_false_iff, Ne, takesPart_iff, not_and_or, not_le]
  left
  have h1 := toNat_reinitFlag_high (g := g) (n := n)
  rw [hg.add_incr.and_neg_incr, toNat_add_incr] at h1
  rw [hg.and_neg_incr]
  omega

/-- When it has wrapped, the flag is no later than the thread, and the count decides. -/
theorem takesPart_wrapped (hn : n < 256) (hg : Aligned g) (hw : 4294967296 ≤ g.toNat + 512) :
    takesPart g (reinitFlag g n) id = true ↔ id < n := by
  rw [takesPart_iff, reinitFlag_high hn, toNat_reinitFlag_count, Nat.mod_eq_of_lt hn,
    hg.add_incr.and_neg_incr, hg.and_neg_incr, toNat_add_incr]
  have := g.isLt
  omega

/-! ### The round trip -/

/-- The threads that take part in the round of generation `gen` with flag `ret`. -/
def participants (num : ℕ) (gen ret : U32) : Finset ℕ :=
  (Finset.range num).filter fun id => takesPart gen ret id

/-- `Gang::run` decodes what `reinit(n)` published, from generation `g`: the threads that take part
in the round that follows are those below `n`, and they are as many as `abb2` waits for. -/
def RoundTrip (num n : ℕ) (g : U32) : Prop :=
  (∀ id < num, takesPart (g + BAR_INCR) (reinitFlag g n) id = true ↔ id < n) ∧
    (participants num (g + BAR_INCR) (reinitFlag g n)).card = (reinitCount n).toNat

theorem participants_own (hn : n < 256) (hle : n ≤ num) :
    participants num (g + BAR_INCR) (reinitFlag g n) = Finset.range n := by
  ext id
  simp only [participants, Finset.mem_filter, Finset.mem_range, takesPart_own hn]
  omega

/-- **The flag word holds the round exactly when the count has eight bits.** From `256` threads on
the thread numbered `n mod 256` does not take part although it should. -/
theorem roundTrip_iff (hn : 2 ≤ n) (hle : n ≤ num) : RoundTrip num n g ↔ n < 256 := by
  constructor
  · rintro ⟨h, -⟩
    by_contra hge
    have hmod : n % 256 < n := lt_of_lt_of_le (Nat.mod_lt n (by decide)) (by omega)
    have hp := (h (n % 256) (by omega)).mpr hmod
    rw [takesPart_iff, toNat_reinitFlag_count] at hp
    omega
  · intro hn'
    refine ⟨fun id _ => takesPart_own hn', ?_⟩
    rw [participants_own hn' hle, Finset.card_range, reinitCount, BitVec.toNat_ofNat]
    omega

/-- A gang of four threads, all in the round. -/
theorem roundTrip_iff_four : RoundTrip 4 4 0 ↔ 4 < 256 := roundTrip_iff (by decide) (by decide)

/-- On `256` threads nobody takes part, although `abb2` waits for all of them. -/
theorem not_roundTrip_256 : ¬ RoundTrip 256 256 0 := by
  rintro ⟨h, -⟩
  exact absurd ((h 0 (by decide)).mpr (by decide)) (by decide)

end NetworkDemo.Gang
