import NetworkDemo.Gang.Calls
import NetworkDemo.GangUtil.Pack

/-!
# The submits of `GangUtil`

`GangUtil` submits its loops to its gang, with the `granular` of its choice. Here a submit is what
`Gang.Calls` makes of it: the workers' fetch-and-adds and the acts of the calls, the loads and
stores of the arrays, in any order.

Most loops store one value for each index. `stored` is what is left by all of them.

* `submitted_loop` — a submit whose calls have places of their own leaves what the loop leaves.
* `stores_interleaved` — `assign`, `iota` and `touch`.
-/

namespace NetworkDemo.GangUtil

open Foundations Gang CTy

/-! ### Submits -/

/-- What a `GangUtil` knows about its submits. -/
structure Submitter where
  /-- `g->num`. -/
  num : SizeT
  worksteal : Bool
  SMALL_SIZE : SizeT

namespace Submitter

variable (G : Submitter) {α : Type}

/-- Loop counters of type `unsigned` do not wrap. -/
structure Ok : Prop where
  num_pos : 1 ≤ G.num
  num_lt : G.num.toNat < 2 ^ 32
  small_pos : 1 ≤ G.SMALL_SIZE

/-- `groupSubmit(end, f)` can leave `m'` where it finds `m`. -/
def GroupSubmits (stop : ℕ) (f : SizeT → Prog (ℕ → α) Unit) (m m' : ℕ → α) : Prop :=
  Submitted (V := fun _ : ℕ => α) (BitVec.ofNat 64 stop) 1 G.num G.worksteal f m m'

/-- `submit(end, f)`. -/
def Submits (stop : ℕ) (f : SizeT → Prog (ℕ → α) Unit) (m m' : ℕ → α) : Prop :=
  Submitted (V := fun _ : ℕ => α) (BitVec.ofNat 64 stop) G.SMALL_SIZE G.num G.worksteal f m m'

end Submitter

/-- Places that are changed, and nothing else is read. -/
def places (I : ℕ → Prop) : Footprint ℕ := ⟨fun _ => False, I⟩

/-- The calls have places of their own. -/
structure OwnPlaces {α : Type} (n : ℕ) (f : SizeT → Prog (ℕ → α) Unit) (I : ℕ → ℕ → Prop) :
    Prop where
  within : ∀ j < n, (f (BitVec.ofNat 64 j)).Within (V := fun _ => α) (places (I j))
  disjoint : ∀ i < n, ∀ j < n, i ≠ j → ∀ k, I i k → ¬ I j k

/-- What a loop leaves. -/
def looped {α : Type} (n : ℕ) (f : SizeT → Prog (ℕ → α) Unit) (m : ℕ → α) : ℕ → α :=
  groupSubmit (List.range n) (fun j m => ((f (BitVec.ofNat 64 j)).run m).2) m

section Submitted

variable {α : Type} {n : ℕ} {granular num : SizeT} {worksteal : Bool}
    {f : SizeT → Prog (ℕ → α) Unit} {I : ℕ → ℕ → Prop}
  {m m' : ℕ → α} {G : Submitter}

theorem uses_places {J : ℕ → Prop} {k : ℕ} : (places J).Uses k ↔ J k := or_iff_right id

theorem partsOf_le (len granular num : SizeT) : (partsOf len granular num).toNat ≤ num.toNat := by
  unfold partsOf stdMin
  split_ifs with h
  · exact le_rfl
  · exact BitVec.le_def.mp (BitVec.not_lt.mp h)

theorem toNat_ofNat_of_lt {j : ℕ} (h : j < 2 ^ 64) : (BitVec.ofNat 64 j).toNat = j := by
  rw [BitVec.toNat_ofNat]
  exact Nat.mod_eq_of_lt h

theorem indices_eq_map (hn : n < 2 ^ 64) :
    indices 0 (BitVec.ofNat 64 n) = (List.range n).map (BitVec.ofNat 64) := by
  have h0 : (0 : SizeT).toNat = 0 := rfl
  rw [indices, toNat_ofNat_of_lt hn, h0, Nat.sub_zero, List.range_eq_range']

theorem OwnPlaces.apartCalls (h : OwnPlaces n f I) (hn : n < 2 ^ 64) :
    ApartCalls (V := fun _ : ℕ => α) f (fun i => places (I i.toNat)) 0 (BitVec.ofNat 64 n) := by
  have hmem : ∀ i ∈ indices 0 (BitVec.ofNat 64 n), i.toNat < n := fun i hi => by
    have := (mem_indices.mp hi).2
    rwa [BitVec.lt_def, toNat_ofNat_of_lt hn] at this
  refine ⟨fun i hi => ?_, fun i hi j hj hij => ⟨fun k hk hk' => ?_, fun k hk hk' => ?_⟩⟩
  · have := h.within i.toNat (hmem i hi)
    rwa [BitVec.ofNat_toNat, BitVec.setWidth_eq] at this
  · have hne : i.toNat ≠ j.toNat := fun he => hij (BitVec.eq_of_toNat_eq he)
    exact h.disjoint _ (hmem i hi) _ (hmem j hj) hne k hk (uses_places.mp hk')
  · have hne : j.toNat ≠ i.toNat := fun he => hij (BitVec.eq_of_toNat_eq he.symm)
    exact h.disjoint _ (hmem j hj) _ (hmem i hi) hne k hk (uses_places.mp hk')

/-- **A submit whose calls have places of their own** leaves what the loop leaves, and it does leave
it. -/
theorem submitted_loop (h : OwnPlaces n f I) (hg : 1 ≤ granular) (hnum : 1 ≤ num)
    (hlt : num.toNat < 2 ^ 32) (hroom : n + (num.toNat + 1) * granular.toNat < 2 ^ 64) :
    Submitted (V := fun _ : ℕ => α) (BitVec.ofNat 64 n) granular num worksteal f m m' ↔
    m' = looped n f m := by
  have hn : n < 2 ^ 64 := by omega
  have hparts : ((partsOf (BitVec.ofNat 64 n) granular num).toNat + 1) * granular.toNat ≤
      (num.toNat + 1) * granular.toNat :=
    Nat.mul_le_mul_right _ (Nat.succ_le_succ (partsOf_le _ _ _))
  rw [submitted_iff hg hnum hlt (by rw [toNat_ofNat_of_lt hn]; omega) (h.apartCalls hn), callAll,
    indices_eq_map hn, List.foldl_map]
  rfl

theorem groupSubmits_iff (hG : G.Ok) (h : OwnPlaces n f I) (hn : n < 2 ^ 63) :
    G.GroupSubmits n f m m' ↔ m' = looped n f m := by
  have hlt := hG.num_lt
  have h1 : (1 : SizeT).toNat = 1 := rfl
  exact submitted_loop h (BitVec.le_refl 1) hG.num_pos hlt (by rw [h1]; omega)

theorem submits_iff (hG : G.Ok) (h : OwnPlaces n f I)
    (hroom : n + (G.num.toNat + 1) * G.SMALL_SIZE.toNat < 2 ^ 64) :
    G.Submits n f m m' ↔ m' = looped n f m :=
  submitted_loop h hG.small_pos hG.num_pos hG.num_lt hroom

end Submitted

/-- Four threads, which steal. -/
def fourThreads : Submitter := ⟨4, true, 2048⟩

theorem fourThreads_ok : fourThreads.Ok := ⟨by decide, by decide, by decide⟩

/-! ### Stores -/

section Stores

variable {α : Type} {n : ℕ} {place : ℕ → ℕ} {v : ℕ → α} {m m' : ℕ → α} {G : Submitter}

/-- A call that stores `v i` at `place i`. -/
def storeCall (place : ℕ → ℕ) (v : ℕ → α) (i : SizeT) : Prog (ℕ → α) Unit :=
  Prog.write fun m => Function.update m (place i.toNat) (v i.toNat)

/-- A store is a change of its place. -/
theorem keeps_update {F : Footprint ℕ} {p : ℕ} (hp : F.writes p) (x : α) :
    Keeps (V := fun _ => α) F fun m => Function.update m p x where
  frame m k hk := Function.update_of_ne (fun he => hk (by rw [he]; exact hp)) _ _
  reads m m' hm k hk := by
    by_cases hkp : k = p
    · rw [hkp, Function.update_self, Function.update_self]
    · rw [Function.update_of_ne hkp, Function.update_of_ne hkp]
      exact hm k (.inr hk)

theorem storeCall_own (hn : n < 2 ^ 64) (hplace : ∀ i < n, ∀ j < n, place i = place j → i = j) :
    OwnPlaces n (storeCall place v) fun j k => k = place j where
  within j hj := .write (keeps_update (by rw [toNat_ofNat_of_lt (hj.trans hn)]; rfl) _)
  disjoint i hi j hj hij k hk hk' := hij (hplace i hi j hj (hk.symm.trans hk'))

/-- Every value is where it belongs, and the rest is as it was. -/
structure Stored (n : ℕ) (place : ℕ → ℕ) (v : ℕ → α) (m m' : ℕ → α) : Prop where
  values : ∀ i < n, m' (place i) = v i
  rest : ∀ k, (∀ i < n, k ≠ place i) → m' k = m k

theorem Stored.unique {m₁ m₂ : ℕ → α} (h₁ : Stored n place v m m₁) (h₂ : Stored n place v m m₂) :
    m₁ = m₂ := by
  funext k
  by_cases hk : ∃ i < n, k = place i
  · obtain ⟨i, hi, rfl⟩ := hk
    rw [h₁.values i hi, h₂.values i hi]
  · push Not at hk
    rw [h₁.rest k hk, h₂.rest k hk]

theorem looped_storeCall (hn : n < 2 ^ 64) (hplace : ∀ i < n, ∀ j < n, place i = place j → i = j) :
    Stored n place v m (looped n (storeCall place v) m) := by
  have hrun : looped n (storeCall place v) m = (List.range n).foldl
      (fun m j => Function.update m (place j) (v j)) m :=
    List.foldl_ext _ _ _ fun m j hj => by
      show Function.update m (place (BitVec.ofNat 64 j).toNat) (v (BitVec.ofNat 64 j).toNat) = _
      rw [toNat_ofNat_of_lt ((List.mem_range.mp hj).trans hn)]
  rw [hrun]
  clear hrun
  induction n with
  | zero => exact ⟨fun _ h => absurd h (Nat.not_lt_zero _), fun _ _ => rfl⟩
  | succ n ih =>
    have ih := ih (by omega) fun i hi j hj => hplace i (by omega) j (by omega)
    rw [List.range_succ, List.foldl_append]
    refine ⟨fun i hi => ?_, fun k hk => ?_⟩
    · show Function.update (_ : ℕ → α) (place n) (v n) (place i) = v i
      by_cases hin : i = n
      · rw [hin, Function.update_self]
      · rw [Function.update_of_ne fun he => hin (hplace i hi n (Nat.lt_succ_self n) he)]
        exact ih.values i (by omega)
    · show Function.update (_ : ℕ → α) (place n) (v n) k = m k
      rw [Function.update_of_ne (hk n (Nat.lt_succ_self n))]
      exact ih.rest k fun i hi => hk i (by omega)

/-- A submit of stores. -/
theorem submits_stores (hG : G.Ok) (hplace : ∀ i < n, ∀ j < n, place i = place j → i = j)
    (hroom : n + (G.num.toNat + 1) * G.SMALL_SIZE.toNat < 2 ^ 64) :
    G.Submits n (storeCall place v) m m' ↔ Stored n place v m m' := by
  have hs := looped_storeCall (v := v) (m := m) (by omega) hplace
  rw [submits_iff hG (storeCall_own (by omega) hplace) hroom]
  exact ⟨fun h => h ▸ hs, fun h => h.unique hs⟩

/-- A `groupSubmit` that stores a value for each block. -/
theorem groupSubmits_stores (hG : G.Ok) (hn : n < 2 ^ 63) :
    G.GroupSubmits n (storeCall id v) m m' ↔ Stored n id v m m' := by
  have hplace : ∀ i < n, ∀ j < n, id i = id j → i = j := fun i _ j _ h => h
  have hs := looped_storeCall (v := v) (m := m) (by omega) hplace
  rw [groupSubmits_iff hG (storeCall_own (by omega) hplace) hn]
  exact ⟨fun h => h ▸ hs, fun h => h.unique hs⟩

theorem stored_id_iff : Stored n id v m m' ↔ m' = fun k => if k < n then v k else m k := by
  constructor
  · intro h
    funext k
    split_ifs with hk
    · exact h.values k hk
    · exact h.rest k fun i hi he => hk (by rw [he]; exact hi)
  · rintro rfl
    exact ⟨fun i hi => if_pos hi, fun k hk => if_neg fun h => hk k h rfl⟩

end Stores

/-! ### `assign`, `iota` and `touch` -/

/-- `PAGESIZE` of `touch`. -/
def PAGESIZE : ℕ := 2097152

namespace Submitter

variable (G : Submitter)

/-- `assign(arr, n, u)`. -/
def Assigns {T U : CTy} (n : ℕ) (u : U.Val) (arr arr' : ℕ → T.Val) : Prop :=
  G.Submits n (storeCall id fun _ => conv T u) arr arr'

/-- `iota(in, n)`. -/
def Iotas {T : CTy} (n : ℕ) (arr arr' : ℕ → T.Val) : Prop :=
  G.Submits n (storeCall id fun i => conv T (toSize i)) arr arr'

/-- `touch(data, size)`, of elements of `sizeofT` bytes: the bytes from `data` on. -/
def Touches (sizeofT size : ℕ) (bytes bytes' : ℕ → BitVec 8) : Prop :=
  G.Submits (size * sizeofT / PAGESIZE) (storeCall (· * PAGESIZE) fun _ => 0) bytes bytes'

end Submitter

/-- **`assign`, `iota` and `touch`**, whatever is interleaved with whatever: `assign` leaves the
value, converted, at every index, `iota` the index; `touch` zeroes the first byte of every page that
lies in the array whole. -/
theorem stores_interleaved {G : Submitter} (hG : G.Ok) {T U : CTy} {n sizeofT : ℕ} (u : U.Val)
    (arr arr' : ℕ → T.Val) (bytes bytes' : ℕ → BitVec 8)
    (hroom : n * sizeofT + n + (G.num.toNat + 1) * G.SMALL_SIZE.toNat < 2 ^ 64) :
    (G.Assigns n u arr arr' ↔ arr' = fun k => if k < n then conv T u else arr k) ∧
      (G.Iotas n arr arr' ↔ arr' = fun k => if k < n then conv T (toSize k) else arr k) ∧
      (G.Touches sizeofT n bytes bytes' ↔
        bytes' = fun k => if PAGESIZE ∣ k ∧ k + PAGESIZE ≤ n * sizeofT then 0 else bytes k) := by
  have hid : ∀ i < n, ∀ j < n, id i = id j → i = j := fun i _ j _ h => h
  have hpages : n * sizeofT / PAGESIZE ≤ n * sizeofT := Nat.div_le_self _ _
  have hpage : 0 < PAGESIZE := by decide
  refine ⟨?_, ?_, ?_⟩
  · rw [Submitter.Assigns, submits_stores hG hid (by omega), stored_id_iff]
  · rw [Submitter.Iotas, submits_stores hG hid (by omega), stored_id_iff]
  · rw [Submitter.Touches, submits_stores hG (fun i _ j _ h =>
      Nat.eq_of_mul_eq_mul_right hpage h) (by omega)]
    have hlt : ∀ i, i < n * sizeofT / PAGESIZE ↔ i * PAGESIZE + PAGESIZE ≤ n * sizeofT := by
      intro i
      rw [Nat.lt_iff_add_one_le, Nat.le_div_iff_mul_le hpage, Nat.add_mul, Nat.one_mul]
    have hstored : Stored (n * sizeofT / PAGESIZE) (· * PAGESIZE) (fun _ => 0) bytes
        fun k => if PAGESIZE ∣ k ∧ k + PAGESIZE ≤ n * sizeofT then 0 else bytes k := by
      refine ⟨fun i hi => if_pos ⟨Nat.dvd_mul_left _ _, (hlt i).mp hi⟩,
        fun k hk => if_neg fun h => ?_⟩
      obtain ⟨⟨i, rfl⟩, hle⟩ := h
      rw [Nat.mul_comm PAGESIZE i] at hk hle
      exact hk i ((hlt i).mpr hle) rfl
    exact ⟨fun h => h.unique hstored, fun h => h ▸ hstored⟩

/-- A million sevens, and a page of three million bytes. -/
theorem stores_interleaved_million :
    fourThreads.Assigns (T := sizeT) (U := sizeT) 1000000 (7 : BitVec 64) (fun _ => 0)
        (fun k => if k < 1000000 then conv (σ := sizeT) sizeT (7 : BitVec 64) else 0) ∧
      fourThreads.Touches 3 1000000 (fun _ => 1) fun k =>
        if PAGESIZE ∣ k ∧ k + PAGESIZE ≤ 1000000 * 3 then 0 else 1 := by
  have hroom : 1000000 * 3 + 1000000 + (fourThreads.num.toNat + 1) * fourThreads.SMALL_SIZE.toNat <
      2 ^ 64 := by decide
  have h := fun arr' bytes' =>
    stores_interleaved (T := sizeT) (U := sizeT) fourThreads_ok 7 (fun _ => 0) arr'
      (fun _ => 1) bytes' hroom
  exact ⟨(h _ fun _ => 0).1.mpr rfl, (h (fun _ => 0) _).2.2.mpr rfl⟩

end NetworkDemo.GangUtil
