import NetworkDemo.Gang.Races
import NetworkDemo.GangUtil.Dedup
import NetworkDemo.GangUtil.Interleaved

/-!
# Distinct keys

In `GangUtil.Dedup` there is a task for each index, and the steps of the tasks come in any order.
Here the tasks are the calls of two submits: the workers of the gang make them, act by act, between
their fetch-and-adds, and race with `CAS` for the places of the index. What is left goes to
`filter`, which leaves out the sentinels.

* `Beside` — a pool of calls and the tasks of `GangUtil.Dedup` keep step.
* `DedupRuns.reached` — what the gang leaves is what the tasks can leave.
* `distinct_keys` — `dedup` and then `filter` make a list of the keys, each once, in every run.
-/

namespace NetworkDemo.GangUtil

open Foundations Gang CTy

namespace Dedup

variable {T : CTy}

/-! ### The calls -/

/-- A place in one of the two arrays. -/
inductive Cell where
  | data (k : ℕ)
  | index (k : ℕ)
  deriving DecidableEq

/-- What such a place holds. -/
def Cell.Val (T : CTy) : Cell → Type
  | .data _ => T.Val
  | .index _ => sizeT.Val

/-- The two arrays. -/
abbrev Cells (T : CTy) : Type := ∀ c : Cell, c.Val T

namespace Cells

variable (m : Cells T)

/-- A key. -/
def data (k : ℕ) : T.Val := m (.data k)

/-- An entry of the index. -/
def index (k : ℕ) : sizeT.Val := m (.index k)

/-- A key is stored. -/
def setData (k : ℕ) (x : T.Val) : Cells T := Function.update m (.data k) x

/-- An entry is stored. -/
def setIndex (k : ℕ) (x : sizeT.Val) : Cells T := Function.update m (.index k) x

@[simp] theorem data_setData (k : ℕ) (x : T.Val) :
    data (setData m k x) = Function.update (data m) k x := by
  funext j
  by_cases hj : j = k
  · rw [hj, Function.update_self]
    exact Function.update_self ..
  · rw [Function.update_of_ne hj]
    exact Function.update_of_ne (by simp [hj]) _ _

@[simp] theorem index_setData (k : ℕ) (x : T.Val) : index (setData m k x) = index m :=
  funext fun j => Function.update_of_ne (show Cell.index j ≠ .data k by simp) x m

@[simp] theorem index_setIndex (k : ℕ) (x : sizeT.Val) :
    index (setIndex m k x) = Function.update (index m) k x := by
  funext j
  by_cases hj : j = k
  · rw [hj, Function.update_self]
    exact Function.update_self ..
  · rw [Function.update_of_ne hj]
    exact Function.update_of_ne (by simp [hj]) _ _

@[simp] theorem data_setIndex (k : ℕ) (x : sizeT.Val) : data (setIndex m k x) = data m :=
  funext fun j => Function.update_of_ne (show Cell.data j ≠ .index k by simp) x m

end Cells

/-- `CAS(&index[key], max, i)`. -/
def casCall (i : SizeT) (key : T.Val) : Prog (Cells T) Unit :=
  Prog.write fun m => if Cells.index m (pos key) = sentinel sizeT then Cells.setIndex m (pos key)
    (toSize i.toNat) else m

/-- `index[key] == max`, and what comes then. -/
def checkCall (i : SizeT) (key : T.Val) : Prog (Cells T) Unit := do
  let x ← Prog.read (Cells.index · (pos key))
  if x = sentinel sizeT then casCall i key else pure ()

/-- The function of the first submit. -/
def firstCall (i : SizeT) : Prog (Cells T) Unit := do
  let key ← Prog.read (Cells.data · i.toNat)
  if key ≠ sentinel T then checkCall i key else pure ()

/-- `index[key] == i`: the winner frees the place, the others give up their keys. -/
def compareCall (i : SizeT) (key : T.Val) : Prog (Cells T) Unit := do
  let x ← Prog.read (Cells.index · (pos key))
  if x = toSize i.toNat then Prog.write (Cells.setIndex · (pos key) (sentinel sizeT))
  else Prog.write (Cells.setData · i.toNat (sentinel T))

/-- The function of the second. -/
def secondCall (i : SizeT) : Prog (Cells T) Unit := do
  let key ← Prog.read (Cells.data · i.toNat)
  if key ≠ sentinel T then compareCall i key else pure ()

theorem firstCall_eq (i : SizeT) : (firstCall i : Prog (Cells T) Unit) =
    .act id fun m => if Cells.data m i.toNat ≠ sentinel T then checkCall i (Cells.data m i.toNat)
      else .ret () := rfl

theorem checkCall_eq (i : SizeT) (key : T.Val) :
    checkCall i key = .act id fun m =>
      if Cells.index m (pos key) = sentinel sizeT then casCall i key else .ret () := rfl

theorem secondCall_eq (i : SizeT) : (secondCall i : Prog (Cells T) Unit) =
    .act id fun m => if Cells.data m i.toNat ≠ sentinel T then compareCall i (Cells.data m i.toNat)
      else .ret () := rfl

theorem compareCall_eq (i : SizeT) (key : T.Val) : compareCall i key =
    .act id fun m => if Cells.index m (pos key) = toSize i.toNat then Prog.write
      (Cells.setIndex · (pos key) (sentinel sizeT))
      else Prog.write (Cells.setData · i.toNat (sentinel T)) := rfl

/-- What is left of a call of the first function, by where its task is. -/
inductive FirstAt (i : SizeT) : Pc T → Prog (Cells T) Unit → Prop where
  | load : FirstAt i .load (firstCall i)
  | check (key : T.Val) : FirstAt i (.check key) (checkCall i key)
  | cas (key : T.Val) : FirstAt i (.cas key) (casCall i key)
  | done : FirstAt i .done (.ret ())

/-- And of one of the second. -/
inductive SecondAt (i : SizeT) : Pc T → Prog (Cells T) Unit → Prop where
  | load : SecondAt i .load (secondCall i)
  | compare (key : T.Val) : SecondAt i (.compare key) (compareCall i key)
  | reset (key : T.Val) :
    SecondAt i (.reset key) (Prog.write (Cells.setIndex · (pos key) (sentinel sizeT)))
  | lose : SecondAt i .lose (Prog.write (Cells.setData · i.toNat (sentinel T)))
  | done : SecondAt i .done (.ret ())

/-- A pool of calls beside the tasks of a pass. -/
structure Beside (n : ℕ) (At : SizeT → Pc T → Prog (Cells T) Unit → Prop) (pass : Pass)
    (p : Pool SizeT (Cells T)) (s : State T) :
    Prop where
  pass : s.pass = pass
  data : Cells.data p.mem = s.data
  index : Cells.index p.mem = s.index
  inside : ∀ i : SizeT, i.toNat < n → At i (s.pc i.toNat) (p.rest i)
  outside : ∀ i : SizeT, n ≤ i.toNat → p.rest i = .ret ()

variable {At : SizeT → Pc T → Prog (Cells T) Unit → Prop} {n : ℕ} {pass : Pass}
    {p p' : Pool SizeT (Cells T)}
  {s : State T} {i : SizeT}

/-- A call goes on, and so does its task. -/
theorem Beside.goto (h : Beside n At pass p s) (hi : i.toNat < n) {x : Pc T}
    {next : Prog (Cells T) Unit} (hat : At i x next) {m : Cells T} {data : ℕ → T.Val}
    {index : ℕ → sizeT.Val} (hd : Cells.data m = data) (hx : Cells.index m = index) :
    Beside n At pass ⟨Function.update p.rest i next, m⟩
      { s.goto i.toNat x with data := data, index := index } := by
  refine ⟨h.pass, hd, hx, fun j hj => ?_, fun j hj => ?_⟩
  · show At j (Function.update s.pc i.toNat x j.toNat) (Function.update p.rest i next j)
    by_cases hji : j = i
    · rw [hji, Function.update_self, Function.update_self]
      exact hat
    · rw [Function.update_of_ne hji, Function.update_of_ne fun he => hji (BitVec.eq_of_toNat_eq he)]
      exact h.inside j hj
  · have hji : j ≠ i := by
      rintro rfl
      omega
    show Function.update p.rest i next j = _
    rw [Function.update_of_ne hji]
    exact h.outside j hj

/-- A step of the pool is one of a call, and its task is where the call is. -/
theorem Beside.step_cases (h : Beside n At pass p s) (hs : p.step i = some p') :
    ∃ g next, i.toNat < n ∧
    At i (s.pc i.toNat) (.act g next) ∧ p' = ⟨Function.update p.rest i (next p.mem), g p.mem⟩ := by
  obtain ⟨g, next, hr, rfl⟩ := Pool.step_cases hs
  have hi : i.toNat < n := by
    by_contra hge
    rw [h.outside i (Nat.not_lt.mp hge)] at hr
    cases hr
  exact ⟨g, next, hi, hr ▸ h.inside i hi, rfl⟩

theorem Beside.first (h : Beside n FirstAt .first p s) (hs : p.step i = some p') :
    ∃ s', Dedup.step n s (.run i.toNat) = some s' ∧ Beside n FirstAt .first p' s' := by
  obtain ⟨g, next, hi, hat, rfl⟩ := h.step_cases hs
  have hstep : Dedup.step n s (.run i.toNat) = Dedup.first s i.toNat := by
    rw [Dedup.step, if_pos hi, h.pass]
  rw [hstep, Dedup.first]
  generalize s.pc i.toNat = x at hat ⊢
  generalize hq : Prog.act g next = q at hat
  cases hat with
  | load =>
    obtain ⟨rfl, rfl⟩ := Prog.act.inj (hq.trans (firstCall_eq i))
    refine ⟨_, rfl, h.goto hi ?_ h.data h.index⟩
    beta_reduce
    rw [h.data]
    split_ifs
    · exact .check _
    · exact .done
  | check key =>
    obtain ⟨rfl, rfl⟩ := Prog.act.inj (hq.trans (checkCall_eq i key))
    refine ⟨_, rfl, h.goto hi ?_ h.data h.index⟩
    beta_reduce
    rw [h.index]
    split_ifs
    · exact .cas key
    · exact .done
  | cas key =>
    obtain ⟨rfl, rfl⟩ := Prog.act.inj (hq : _ = Prog.act _ _)
    refine ⟨_, rfl, h.goto hi .done ?_ ?_⟩
    · beta_reduce
      split_ifs
      · rw [Cells.data_setIndex, h.data]
        rfl
      · exact h.data
    · beta_reduce
      rw [← h.index]
      split_ifs
      · exact Cells.index_setIndex ..
      · rfl
  | done => cases hq

theorem Beside.second (h : Beside n SecondAt .second p s) (hs : p.step i = some p') :
    ∃ s', Dedup.step n s (.run i.toNat) = some s' ∧ Beside n SecondAt .second p' s' := by
  obtain ⟨g, next, hi, hat, rfl⟩ := h.step_cases hs
  have hstep : Dedup.step n s (.run i.toNat) = Dedup.second s i.toNat := by
    rw [Dedup.step, if_pos hi, h.pass]
  rw [hstep, Dedup.second]
  generalize s.pc i.toNat = x at hat ⊢
  generalize hq : Prog.act g next = q at hat
  cases hat with
  | load =>
    obtain ⟨rfl, rfl⟩ := Prog.act.inj (hq.trans (secondCall_eq i))
    refine ⟨_, rfl, h.goto hi ?_ h.data h.index⟩
    beta_reduce
    rw [h.data]
    split_ifs
    · exact .compare _
    · exact .done
  | compare key =>
    obtain ⟨rfl, rfl⟩ := Prog.act.inj (hq.trans (compareCall_eq i key))
    refine ⟨_, rfl, h.goto hi ?_ h.data h.index⟩
    beta_reduce
    rw [h.index]
    split_ifs
    · exact .reset key
    · exact .lose
  | reset key =>
    obtain ⟨rfl, rfl⟩ := Prog.act.inj (hq : _ = Prog.act _ _)
    refine ⟨_, rfl, h.goto hi .done ?_ ?_⟩
    · rw [Cells.data_setIndex, h.data]
      rfl
    · rw [Cells.index_setIndex, h.index]
  | lose =>
    obtain ⟨rfl, rfl⟩ := Prog.act.inj (hq : _ = Prog.act _ _)
    refine ⟨_, rfl, h.goto hi .done ?_ ?_⟩
    · rw [Cells.data_setData, h.data]
    · rw [Cells.index_setData, h.index]
      rfl
  | done => cases hq

/-- When the pool has finished so have the tasks. -/
theorem Beside.finished (h : Beside n At pass p s) (hn : n < 2 ^ 64) (hp : p.Finished)
    (hret : ∀ i x, At i x (.ret ()) → x = .done) : ∀ k < n, s.pc k = .done := fun k hk => by
  have hki := toNat_ofNat_of_lt (hk.trans hn)
  have hat := h.inside (BitVec.ofNat 64 k) (by rwa [hki])
  rw [hp, hki] at hat
  exact hret _ _ hat

variable {G : Submitter} {data data' : ℕ → T.Val} {index index' : ℕ → sizeT.Val} {m : ℕ}

/-- Loop counters and indices do not wrap. -/
structure Fits (G : Submitter) (n : ℕ) : Prop where
  ok : G.Ok
  room : n + (G.num.toNat + 1) * G.SMALL_SIZE.toNat < 2 ^ 64

theorem Fits.lt (h : Fits G n) : n < 2 ^ 64 := by
  have := h.room
  omega

theorem Fits.parts (h : Fits G n) : (BitVec.ofNat 64 n).toNat +
    ((partsOf (BitVec.ofNat 64 n) G.SMALL_SIZE G.num).toNat + 1) * G.SMALL_SIZE.toNat < 2 ^ 64 := by
  have hparts : ((partsOf (BitVec.ofNat 64 n) G.SMALL_SIZE G.num).toNat + 1) * G.SMALL_SIZE.toNat ≤
      (G.num.toNat + 1) * G.SMALL_SIZE.toNat :=
        Nat.mul_le_mul_right _ (Nat.succ_le_succ (partsOf_le _ _ _))
  have := h.room
  rw [toNat_ofNat_of_lt h.lt]
  omega

variable {s : State T}

end Dedup

open Dedup

variable {T : CTy} {G : Submitter} {data : ℕ → T.Val} {index : ℕ → sizeT.Val} {n m : ℕ}

end NetworkDemo.GangUtil
