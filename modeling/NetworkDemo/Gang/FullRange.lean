import NetworkDemo.Gang.Wrapping

/-!
# Submitting at the full range of 64 bits

`submit` rounds the number of chunks up by adding `granular - 1` to the number of indices
first, and with work stealing the lower ends of the ranges go on growing by `granular` for
every worker that finds them used up. Both are modulo `2⁶⁴`.

* `partsOf_of_lt` — if the sum wraps, `submit` returns without doing anything.
* `unwrapped_iff` — the greatest value that is read off a lower end is read off that of the
  last range.
* `submit_iff` — exactly when `submit` does what it is for.
-/

namespace NetworkDemo.Gang

open Foundations

/-! ### What submit is for -/

/-- The ranges follow each other from `b` to `e`. -/
def LinedUp (b : SizeT) : List Range → SizeT → Prop
  | [], e => b = e
  | r :: ranges, e => r.b = b ∧ r.b ≤ r.e ∧ LinedUp r.e ranges e

/-- No range is longer than another by more than one. -/
def Balanced (ranges : List Range) : Prop :=
  ∀ r ∈ ranges, ∀ r' ∈ ranges, (r.e - r.b).toNat ≤ (r'.e - r'.b).toNat + 1

/-- **No work is dropped** by `submit(start, stop)`, nor by `submit(stop)` if `start` is zero, and
none is done twice. -/
structure SubmitRight (start stop granular num : SizeT) : Prop where
  parts : start < stop → 1 ≤ (partsOf (stop - start) granular num).toNat ∧
    (partsOf (stop - start) granular num).toNat =
      min ((stop.toNat - start.toNat) ⌈/⌉ granular.toNat) num.toNat
  ranges : ∃ ranges, submitRanges start stop granular num = some ranges ∧
    ranges.length = (partsOf (stop - start) granular num).toNat ∧ LinedUp start ranges stop ∧
      Balanced ranges ∧
    (start = 0 → submitEndRanges stop granular num = some ranges) ∧
    ∀ worksteal, Does ⟨ranges, granular, worksteal⟩ (Finset.range ranges.length)
      (List.range' start.toNat (stop.toNat - start.toNat))

/-- The greatest value that `n` workers read off a lower end: the last range has `q` indices, and
each worker finds it used up once. -/
def lastTicket (start stop granular n : ℕ) : ℕ :=
  let q := (stop - start) / n
  stop - q + granular * (q ⌈/⌉ granular + n - 1)

/-- There is nothing to do, or neither the sum that is rounded up nor a value read off a lower end
wraps. -/
def NoWrap (start stop granular num : ℕ) : Prop :=
  start = stop ∨ (stop - start + granular ≤ 2 ^ 64 ∧
  lastTicket start stop granular (min ((stop - start) ⌈/⌉ granular) num) < 2 ^ 64)

/-! ### The tickets of a cut -/

section Cut

variable {T : TasksImpl} {b len g : ℕ}

theorem CutAt.numChunks_eq {c : ℕ → ℕ} (h : CutAt T c) {v : ℕ} (hv : v < T.size) :
    T.numChunks v = (c (v + 1) - c v) ⌈/⌉ T.chunkSize.toNat := by
  obtain ⟨h1, h2⟩ := h.range v hv
  rw [TasksImpl.numChunks, h1, h2]

theorem CutAt.indices_eq {c : ℕ → ℕ} (h : CutAt T c) :
    T.indices (Finset.range T.size) = (List.range' (c 0) (c T.size - c 0) : Multiset ℕ) := by
  rw [← sum_cuts h.mono]
  refine Finset.sum_congr rfl fun v hv => ?_
  obtain ⟨h1, h2⟩ := h.range v (Finset.mem_range.mp hv)
  rw [h1, h2]

theorem cutPoint_last_size {n : ℕ} (hn : 0 < n) :
    cutPoint b len n (n - 1 + 1) - cutPoint b len n (n - 1) = len / n := by
  have hlt := Nat.mod_lt len hn
  rw [cutPoint_succ, if_neg (by omega), add_zero, Nat.add_sub_cancel_left]

/-- The last range has the greatest tickets. -/
theorem ticket_le_last (hg : 0 < g) {n v : ℕ} (hq : 1 ≤ len / n) (hv : v < n) :
    cutPoint b len n v + g * ((cutPoint b len n (v + 1) - cutPoint b len n v) ⌈/⌉ g) ≤
      cutPoint b len n (n - 1) + g * ((len / n) ⌈/⌉ g) := by
  have hsucc := cutPoint_succ b len n v
  have hmod := Nat.mod_lt len (Nat.zero_lt_of_lt hv)
  by_cases hr : v < len % n
  · -- it has one index more, but begins a range earlier
    rw [if_pos hr] at hsucc
    have hle : cutPoint b len n (v + 1) ≤ cutPoint b len n (n - 1) :=
      cutPoint_mono b len n (by omega)
    have hup := mul_ceilDiv_lt (len / n + 1) hg
    have hone : 0 < (len / n) ⌈/⌉ g := (lt_ceilDiv_iff hg).mpr (by omega)
    have hlow : g * 1 ≤ g * ((len / n) ⌈/⌉ g) := Nat.mul_le_mul_left g hone
    rw [hsucc, Nat.add_sub_cancel_left]
    omega
  · rw [if_neg hr, add_zero] at hsucc
    have hle : cutPoint b len n v ≤ cutPoint b len n (n - 1) := cutPoint_mono b len n (by omega)
    rw [hsucc, Nat.add_sub_cancel_left]
    omega

/-- **The greatest value that is read** is that of the last range. -/
theorem unwrapped_iff {n : ℕ} (hcut : CutAt T (cutPoint b len n)) (hg : 0 < T.chunkSize.toNat)
    (hn : T.size = n) (hpos : 0 < n) (hq : 1 ≤ len / n) :
    T.Unwrapped (Finset.range n) ↔ lastTicket b (b + len) T.chunkSize.toNat n < 2 ^ 64 := by
  have hsize : cutPoint b len n (n - 1 + 1) - cutPoint b len n (n - 1) = len / n :=
    cutPoint_last_size hpos
  have hend := cutPoint_last b len hpos
  have hb := fun v hv => (hcut.range v hv).1
  rw [Nat.sub_add_cancel hpos, hend] at hsize
  have hle : cutPoint b len n (n - 1) ≤ cutPoint b len n n := cutPoint_mono b len n (Nat.sub_le _ _)
  have hbegin : b + len - len / n = cutPoint b len n (n - 1) := by omega
  unfold TasksImpl.Unwrapped TasksImpl.ticket lastTicket
  dsimp only
  rw [Nat.add_sub_cancel_left, hbegin, hn, Finset.card_range]
  constructor
  · intro h
    have hv : n - 1 < T.size := by omega
    have hlast := h (n - 1) (by omega) (T.numChunks (n - 1) + n - 1) (by omega)
    rwa [hb _ hv, hcut.numChunks_eq hv, cutPoint_last_size hpos] at hlast
  · intro h v hv k hk
    have hv' : v < T.size := by omega
    have hlast := ticket_le_last (b := b) hg hq hv
    rw [hcut.numChunks_eq hv'] at hk
    rw [hb v hv']
    have hmul : T.chunkSize.toNat * k ≤
        T.chunkSize.toNat * ((cutPoint b len n (v + 1) - cutPoint b len n v) ⌈/⌉ T.chunkSize.toNat +
          (n - 1)) :=
      Nat.mul_le_mul_left _ (by omega)
    rw [Nat.mul_add] at hmul
    rw [Nat.add_sub_assoc (show 1 ≤ n from hpos), Nat.mul_add] at h
    omega

end Cut

/-! ### The number of ranges -/

section Parts

variable {start stop granular num len : SizeT}

/-- If the sum wraps, there are no ranges. -/
theorem partsOf_of_lt (hg : 0 < granular.toNat) (hwrap : 2 ^ 64 < len.toNat + granular.toNat) :
    (partsOf len granular num).toNat = 0 := by
  have hsub : (len + granular - 1).toNat = len.toNat + granular.toNat - 1 - 2 ^ 64 := by bv_omega
  have hdiv : ((len + granular - 1) / granular).toNat = 0 := by
    rw [BitVec.toNat_udiv, hsub]
    exact Nat.div_eq_of_lt (by bv_omega)
  unfold partsOf stdMin
  split_ifs with h
  · rw [BitVec.lt_def, hdiv] at h
    omega
  · exact hdiv

end Parts

/-! ### The ranges -/

section Ranges

variable {start stop : SizeT} {c : ℕ → ℕ} {n : ℕ}

/-- The ranges between cut points. -/
def cutList (c : ℕ → ℕ) (n : ℕ) : List Range :=
  (List.range n).map fun t => ⟨BitVec.ofNat 64 (c t), BitVec.ofNat 64 (c (t + 1))⟩

theorem length_cutList (c : ℕ → ℕ) (n : ℕ) : (cutList c n).length = n := by
  rw [cutList, List.length_map, List.length_range]

theorem cutAt_cutList (hc : Monotone c) (hn : c n < 2 ^ 64) (chunkSize : SizeT) (worksteal : Bool) :
    CutAt ⟨cutList c n, chunkSize, worksteal⟩ c where
  mono := hc
  range v hv := by
    have hsize : TasksImpl.size ⟨cutList c n, chunkSize, worksteal⟩ = n := length_cutList c n
    refine toNat_range_cut hc ?_ (by rwa [hsize]) hv
    rw [hsize]
    rfl

theorem linedUp_append {b m e : SizeT} {l₁ l₂ : List Range} (h₁ : LinedUp b l₁ m)
    (h₂ : LinedUp m l₂ e) : LinedUp b (l₁ ++ l₂) e := by
  induction l₁ generalizing b with
  | nil =>
    obtain rfl : b = m := h₁
    exact h₂
  | cons r l₁ ih => exact ⟨h₁.1, h₁.2.1, ih h₁.2.2⟩

theorem linedUp_cutList (hc : Monotone c) (hn : c n < 2 ^ 64) :
    LinedUp (BitVec.ofNat 64 (c 0)) (cutList c n) (BitVec.ofNat 64 (c n)) := by
  have hall : ∀ m ≤ n, LinedUp (BitVec.ofNat 64 (c 0)) (cutList c m) (BitVec.ofNat 64 (c m)) := by
    intro m hm
    induction m with
    | zero => rfl
    | succ m ih =>
      have hle : c m ≤ c (m + 1) := hc m.le_succ
      have hsplit : cutList c (m + 1) = cutList c m ++ [⟨BitVec.ofNat 64 (c m),
          BitVec.ofNat 64 (c (m + 1))⟩] := by
        unfold cutList
        rw [List.range_succ, List.map_append]
        rfl
      rw [hsplit]
      refine linedUp_append (ih (by omega)) ⟨rfl, ?_, rfl⟩
      rw [BitVec.le_def, toNat_cut hc hn (by omega), toNat_cut hc hn hm]
      exact hle
  exact hall n le_rfl

theorem balanced_cutList (b len : ℕ) (hlt : cutPoint b len n n < 2 ^ 64) :
    Balanced (cutList (cutPoint b len n) n) := by
  have hsize : ∀ r ∈ cutList (cutPoint b len n) n, len / n ≤ (r.e - r.b).toNat ∧
      (r.e - r.b).toNat ≤ len / n + 1 := by
    intro r hr
    obtain ⟨t, ht, rfl⟩ := List.mem_map.mp hr
    have ht' := List.mem_range.mp ht
    have hsucc := cutPoint_succ b len n t
    have h1 := toNat_cut (cutPoint_mono b len n) hlt ht'.le
    have h2 := toNat_cut (cutPoint_mono b len n) hlt ht'
    have hle : cutPoint b len n t ≤ cutPoint b len n (t + 1) := cutPoint_mono b len n t.le_succ
    have hsub :
        (BitVec.ofNat 64 (cutPoint b len n (t + 1)) - BitVec.ofNat 64 (cutPoint b len n t)).toNat =
        cutPoint b len n (t + 1) - cutPoint b len n t := by
      rw [BitVec.toNat_sub_of_le (by rw [BitVec.le_def, h1, h2]; exact hle), h1, h2]
    dsimp only
    rw [hsub, hsucc, Nat.add_sub_cancel_left]
    split_ifs <;> omega
  intro r hr r' hr'
  have h1 := hsize r hr
  have h2 := hsize r' hr'
  omega

theorem does_empty (T : TasksImpl) : Does T ∅ 0 := by
  have hno : ∀ s t s', T.teamStep ∅ s t ≠ some s' := fun s t s' h =>
    absurd (TasksImpl.teamStep_eq_some.mp h).1 (Finset.notMem_empty t)
  have hstart : ∀ s, (T.team ∅).Reachable s → s.log = [] := fun s hs => by
    cases hs with
    | init hi =>
      obtain rfl : s = T.start := hi
      rfl
    | step _ _ h => exact absurd h (hno _ _ _)
  refine ⟨fun s hs => ?_, fun s hs _ => ?_, 0, fun as s hs => ?_⟩
  · rw [hstart s hs]
    exact le_rfl
  · rw [hstart s hs]
    rfl
  · cases as with
    | nil => exact le_rfl
    | cons t as =>
      obtain ⟨s₁, h₁, -⟩ := Option.bind_eq_some_iff.mp hs
      exact absurd h₁ (hno _ _ _)

/-- The first value that wraps is below the upper end of its range. -/
theorem wrapsLow_cut {T : TasksImpl} {b len : ℕ} (hcut : CutAt T (cutPoint b len n))
    (hg : 0 < T.chunkSize.toNat) (hn : n ≤ len ⌈/⌉ T.chunkSize.toNat) (hq : 1 ≤ len / n)
    (hroom : len + T.chunkSize.toNat ≤ 2 ^ 64) : WrapsLow T n := by
  intro v hv k hk hlt
  obtain ⟨hb, he⟩ := hcut.range v hv
  have hsucc := cutPoint_succ b len n v
  rw [← hb, ← he] at hsucc
  by_cases hge : T.chunkSize.toNat ≤ (T.range v).e.toNat
  · omega
  · -- the range is one chunk, and it is read once for each worker
    have hone : T.numChunks v ≤ 1 := (ceilDiv_le_iff_le_mul hg).mpr (by omega)
    have hall : T.chunkSize.toNat * n ≤ T.chunkSize.toNat * (len ⌈/⌉ T.chunkSize.toNat) :=
      Nat.mul_le_mul_left _ hn
    have hup := mul_ceilDiv_lt len hg
    have hmul : T.chunkSize.toNat * k ≤ T.chunkSize.toNat * n := Nat.mul_le_mul_left _ (by omega)
    unfold TasksImpl.ticket
    omega

end Ranges

/-! ### When submit is right -/

section Submit

variable {start stop granular num : SizeT}

/-- Nothing is submitted. -/
theorem submitRight_empty (hg : 0 < granular.toNat) (b num : SizeT) :
    SubmitRight b b granular num := by
  have hsub : b - b = 0 := BitVec.sub_self b
  have hn : (partsOf (b - b) granular num).toNat = 0 := by
    rw [hsub, toNat_partsOf hg (by simpa using granular.isLt.le)]
    simp [hg]
  have hnil : ∀ x : SizeT, cutRanges x (b - b) granular num = some [] :=
    fun x => if_pos (BitVec.eq_of_toNat_eq hn)
  have hbal : Balanced [] := fun _ hr => absurd hr List.not_mem_nil
  refine ⟨fun hlt => absurd hlt (BitVec.lt_irrefl b), [], hnil b, hn.symm, rfl, hbal, ?_,
    fun worksteal => ?_⟩
  · rintro rfl
    exact hnil 0
  · rw [Nat.sub_self]
    exact does_empty _

/-- The ranges are right if they are those between the cut points and no value that is read has
wrapped. -/
theorem submitRight_cut (hg : 0 < granular.toNat) (hle : start.toNat ≤ stop.toNat) {n : ℕ}
    (hparts : (partsOf (stop - start) granular num).toNat = n) (hpos : 0 < n)
    (hn : (partsOf (stop - start) granular num).toNat =
      min ((stop.toNat - start.toNat) ⌈/⌉ granular.toNat) num.toNat)
    (hcut : cutRanges start (stop - start) granular num =
      some (cutList (cutPoint start.toNat (stop.toNat - start.toNat) n) n))
    (hU : TasksImpl.Unwrapped ⟨cutList (cutPoint start.toNat (stop.toNat - start.toNat) n) n,
      granular, true⟩ (Finset.range n)) :
    SubmitRight start stop granular num := by
  have hmono := cutPoint_mono start.toNat (stop.toNat - start.toNat) n
  have hlast : cutPoint start.toNat (stop.toNat - start.toNat) n n = stop.toNat :=
    cutPoint_stop hle hpos
  have hlt : cutPoint start.toNat (stop.toNat - start.toNat) n n < 2 ^ 64 := by
    rw [hlast]
    exact stop.isLt
  have hsize := length_cutList (cutPoint start.toNat (stop.toNat - start.toNat) n) n
  refine ⟨fun _ => ⟨by omega, hn⟩, _, hcut, by rw [hsize, hparts], ?_, balanced_cutList _ _ hlt,
    fun h0 => ?_, fun worksteal => ?_⟩
  · have hlined := linedUp_cutList hmono hlt
    rwa [cutPoint_zero, hlast, BitVec.ofNat_toNat, BitVec.setWidth_eq, BitVec.ofNat_toNat,
      BitVec.setWidth_eq] at hlined
  · subst h0
    have hsub : stop - 0 = stop := BitVec.sub_zero stop
    rw [hsub] at hcut
    exact hcut
  · have hindices := (cutAt_cutList hmono hlt granular worksteal).indices_eq
    rw [TasksImpl.size, hsize, cutPoint_zero, hlast] at hindices
    rw [hsize, ← hindices]
    cases worksteal with
    | false => exact does_plain rfl _
    | true =>
      have hstolen := hU.stolen hg rfl (Finset.range_subset_range.mpr hsize.ge)
        (Finset.nonempty_range_iff.mpr (by omega))
      rwa [TasksImpl.size, hsize] at hstolen

/-- **When `submit` drops no work** and does none twice: if and only if nothing wraps. -/
theorem submit_iff (hle : start ≤ stop) (hg : 1 ≤ granular) (hnum : 1 ≤ num)
    (hlt : num.toNat < 2 ^ 32) :
    SubmitRight start stop granular num ↔
    NoWrap start.toNat stop.toNat granular.toNat num.toNat := by
  have hg' : 0 < granular.toNat := by bv_omega
  have hnum' : 0 < num.toNat := by bv_omega
  have hlen : (stop - start).toNat = stop.toNat - start.toNat := by bv_omega
  have hle' : start.toNat ≤ stop.toNat := hle
  by_cases heq : start = stop
  · subst heq
    exact iff_of_true (submitRight_empty hg' start num) (.inl rfl)
  have hpos : start.toNat < stop.toNat := lt_of_le_of_ne hle' fun h => heq (BitVec.eq_of_toNat_eq h)
  have hne : start.toNat ≠ stop.toNat := hpos.ne
  by_cases hroom : stop.toNat - start.toNat + granular.toNat ≤ 2 ^ 64
  · -- `n` ranges between the cut points
    have hn : (partsOf (stop - start) granular num).toNat =
        min ((stop.toNat - start.toNat) ⌈/⌉ granular.toNat) num.toNat := by
      rw [toNat_partsOf hg' (by omega), hlen]
      rfl
    have hceil : 0 < (stop.toNat - start.toNat) ⌈/⌉ granular.toNat :=
      (lt_ceilDiv_iff hg').mpr (by omega)
    have hceil' : (stop.toNat - start.toNat) ⌈/⌉ granular.toNat ≤ stop.toNat - start.toNat :=
      (ceilDiv_le_iff_le_mul hg').mpr (Nat.le_mul_of_pos_left _ hg')
    have hcut : cutRanges start (stop - start) granular num = _ :=
      cutRanges_eq rfl (by omega) (by omega)
    unfold NoWrap
    rw [← hn, or_iff_right hne, and_iff_right hroom]
    generalize hparts : (partsOf (stop - start) granular num).toNat = n at *
    rw [hlen] at hcut
    have hmono := cutPoint_mono start.toNat (stop.toNat - start.toNat) n
    have hq : 1 ≤ (stop.toNat - start.toNat) / n :=
      (Nat.le_div_iff_mul_le (by omega)).mpr (by omega)
    have hlast : cutPoint start.toNat (stop.toNat - start.toNat) n n = stop.toNat :=
      cutPoint_stop hle' (by omega)
    have hsize := length_cutList (cutPoint start.toNat (stop.toNat - start.toNat) n) n
    change cutRanges start (stop - start) granular num =
      some (cutList (cutPoint start.toNat (stop.toNat - start.toNat) n) n) at hcut
    have hat := cutAt_cutList hmono (by rw [hlast]; exact stop.isLt) granular
    have hiff := unwrapped_iff (hat true) hg' hsize (by omega) hq
    rw [Nat.add_sub_cancel' hle'] at hiff
    refine Iff.trans ⟨fun h => ?_, fun hU => ?_⟩ hiff
    · obtain ⟨ranges, hranges, -, -, -, -, hdoes⟩ := h.ranges
      obtain rfl := Option.some.inj (hranges.symm.trans hcut)
      have hn' : n ≤ (stop.toNat - start.toNat) ⌈/⌉ granular.toNat := by omega
      refine unwrapped_of_atMostOnce stop.toNat hg' rfl (by omega) hsize.ge (hat true)
        (wrapsLow_cut (hat true) hg' hn' hq hroom) ?_
      have hmost := (hdoes true).at_most
      rw [hsize] at hmost
      rw [cutPoint_zero]
      exact hmost
    · have hparts' : (partsOf (stop - start) granular num).toNat =
          min ((stop.toNat - start.toNat) ⌈/⌉ granular.toNat) num.toNat :=
        hparts.trans hn
      exact submitRight_cut hg' hle' hparts (by omega) hparts' hcut hU
  · refine iff_of_false (fun h => ?_) fun h => ?_
    · have hparts := (h.parts (BitVec.lt_def.mpr hpos)).1
      rw [partsOf_of_lt hg' (by omega)] at hparts
      exact absurd hparts (by decide)
    · exact hroom (h.resolve_left hne).1

/-- The last two indices of all, in chunks of one. -/
theorem submit_iff_last : SubmitRight 18446744073709551612 18446744073709551614 1 2 ↔
    NoWrap (18446744073709551612 : SizeT).toNat (18446744073709551614 : SizeT).toNat
      (1 : SizeT).toNat (2 : SizeT).toNat :=
  submit_iff (by decide) (by decide) (by decide) (by decide)

/-- With the greatest `granular`, a submit of two indices returns without calling `f`; and a submit
of the index `1` with stealing calls it on `0`. -/
theorem not_submitRight :
    ¬ SubmitRight 0 2 18446744073709551615 1 ∧ ¬ SubmitRight 1 2 18446744073709551615 1 := by
  constructor
  · intro h
    exact absurd (h.parts (by decide)).1 (by decide)
  · intro h
    obtain ⟨ranges, hranges, -, -, -, -, hdoes⟩ := h.ranges
    have hcut : submitRanges 1 2 18446744073709551615 1 = some [⟨1, 2⟩] := by decide
    obtain rfl := Option.some.inj (hranges.symm.trans hcut)
    have hrun : (exec (TasksImpl.teamStep ⟨[⟨1, 2⟩], 18446744073709551615, true⟩ (Finset.range 1))
        (TasksImpl.start ⟨[⟨1, 2⟩], 18446744073709551615, true⟩) [0, 0, 0, 0, 0]).map
          TasksState.log = some [0] := by decide
    obtain ⟨s, hs, hlog⟩ := Option.map_eq_some_iff.mp hrun
    have hreach :=
      Lts.Reach.exec (L := TasksImpl.team ⟨[⟨1, 2⟩], 18446744073709551615, true⟩ (Finset.range 1))
      (fun _ _ _ h => h) (.init rfl) (fun _ _ _ => trivial) hs
    have hmem := Multiset.mem_of_le ((hdoes true).at_most s hreach) (a := 0) (by rw [hlog]; decide)
    exact absurd hmem (by decide)

end Submit

end NetworkDemo.Gang
