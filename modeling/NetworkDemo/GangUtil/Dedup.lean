import NetworkDemo.Foundations.Runs
import NetworkDemo.GangUtil.CountSerial

/-!
# Removing duplicates

`dedup` submits two functions. In the first the task of an index `i` reads its key and, if
the place of the key in `index` is free, tries to put `i` there with `CAS`. In the second
it reads the key again: the task that finds itself in `index` frees the place, the others
overwrite their keys. A task is a sequence of loads, stores and one `CAS`, in each submit,
and those of different tasks come in any order; the second submit begins when all tasks of
the first are done.

After the first submit there is one winner for each key (`First.winner`), and the second
keeps, of each key, the place in `index`, as long as the winner is not done, and then
nothing (`Second`). What the losers find there is never their own index.

* `Dedup.ends` — every run ends.
* `dedup_unique` — at the end each key is left once, and `index` is as it was; removing
  duplicates again changes nothing.
-/

namespace NetworkDemo.GangUtil

open Foundations CTy

/-- `std::numeric_limits<T>::max()`. -/
def sentinel (T : CTy) : T.Val := T.ofInt T.max

namespace Dedup

variable {T : CTy}

/-- The place of a key in `index`. -/
def pos (key : T.Val) : ℕ := (T.toInt key).toNat

/-- What the task of an index does next. -/
inductive Pc (T : CTy) where
  /-- `T key = data[i]`. -/
  | load
  /-- `index[key] == max`, in the first submit. -/
  | check (key : T.Val)
  /-- `CAS(&index[key], max, i)`. -/
  | cas (key : T.Val)
  /-- `index[key] == i`, in the second. -/
  | compare (key : T.Val)
  /-- `index[key] = max`. -/
  | reset (key : T.Val)
  /-- `data[i] = max`. -/
  | lose
  | done
  deriving DecidableEq

/-- The submit that is running. -/
inductive Pass where
  | first
  | second
  deriving DecidableEq

/-- The two arrays, and where the tasks of the submit that is running are. -/
structure State (T : CTy) where
  data : ℕ → T.Val
  index : ℕ → sizeT.Val
  pass : Pass
  pc : ℕ → Pc T

/-- A task takes its next step, or the second submit begins. -/
inductive Act where
  | run (i : ℕ)
  | next

/-- The task of `i` is at `pc`. -/
def State.goto (s : State T) (i : ℕ) (pc : Pc T) : State T :=
  { s with pc := Function.update s.pc i pc }

/-- A step of the first function. -/
def first (s : State T) (i : ℕ) : Option (State T) :=
  match s.pc i with
  | .load => some (s.goto i (if s.data i ≠ sentinel T then .check (s.data i) else .done))
  | .check key => some (s.goto i (if s.index (pos key) = sentinel sizeT then .cas key else .done))
  | .cas key => some { s.goto i .done with
      index := if s.index (pos key) = sentinel sizeT then Function.update s.index (pos key)
        (toSize i) else s.index }
  | _ => none

/-- A step of the second. -/
def second (s : State T) (i : ℕ) : Option (State T) :=
  match s.pc i with
  | .load => some (s.goto i (if s.data i ≠ sentinel T then .compare (s.data i) else .done))
  | .compare key => some (s.goto i (if s.index (pos key) = toSize i then .reset key else .lose))
  | .reset key =>
    some { s.goto i .done with index := Function.update s.index (pos key) (sentinel sizeT) }
  | .lose => some { s.goto i .done with data := Function.update s.data i (sentinel T) }
  | _ => none

/-- A step, of `n` tasks. -/
def step (n : ℕ) (s : State T) : Act → Option (State T)
  | .run i =>
    if i < n then
      match s.pass with
      | .first => first s i
      | .second => second s i
    else none
  | .next =>
    if s.pass = .first ∧ ∀ i < n, s.pc i = .done then some
      { s with pass := .second, pc := fun _ => .load } else none

/-- The beginning. -/
def start (data : ℕ → T.Val) (index : ℕ → sizeT.Val) : State T :=
  ⟨data, index, .first, fun _ => .load⟩

/-- `dedup(data, index, n)`. -/
def dedup (data : ℕ → T.Val) (index : ℕ → sizeT.Val) (n : ℕ) : Lts (State T) Act where
  init s := s = start data index
  step s a s' := step n s a = some s'

/-- `dedup` has returned. -/
def State.Finished (n : ℕ) (s : State T) : Prop := s.pass = .second ∧ ∀ i < n, s.pc i = .done

/-- The keys of an array: what is in it and is not the sentinel. -/
def IsKey (data : ℕ → T.Val) (n : ℕ) (key : T.Val) : Prop :=
  key ≠ sentinel T ∧ ∃ i < n, data i = key

/-- The keys are places of an `index` of `m` entries, and these are all free. -/
structure Valid (data : ℕ → T.Val) (index : ℕ → sizeT.Val) (n m : ℕ) : Prop where
  place : ∀ key, IsKey data n key → 0 ≤ T.toInt key ∧ T.toInt key < m
  free : ∀ p < m, index p = sentinel sizeT

variable {data : ℕ → T.Val} {index : ℕ → sizeT.Val} {n m : ℕ} {s s' : State T} {key key' : T.Val}

theorem toSize_inj {i j : ℕ} (hi : i < 2 ^ 64) (hj : j < 2 ^ 64) (h : toSize i = toSize j) :
    i = j := by
  rw [← toNat_toSize hi, h, toNat_toSize hj]

/-- An index is not the sentinel. -/
theorem toSize_ne {i : ℕ} (hn : n < 2 ^ 64) (hi : i < n) : toSize i ≠ sentinel sizeT := by
  intro h
  have hnat := congrArg BitVec.toNat h
  rw [toNat_toSize (hi.trans hn), show (sentinel sizeT).toNat = 2 ^ 64 - 1 from rfl] at hnat
  omega

theorem Valid.pos_lt (hv : Valid data index n m) (h : IsKey data n key) : pos key < m := by
  obtain ⟨h0, hm⟩ := hv.place key h
  unfold pos
  omega

/-- Different keys have different places. -/
theorem Valid.pos_inj (hv : Valid data index n m) (h : IsKey data n key) (h' : IsKey data n key')
    (he : pos key = pos key') : key = key' := by
  obtain ⟨h0, -⟩ := hv.place key h
  obtain ⟨h0', -⟩ := hv.place key' h'
  have hz : T.toInt key = T.toInt key' := by
    unfold pos at he
    omega
  rw [← ofInt_toInt key, hz, ofInt_toInt]

/-! ### The first submit -/

/-- What the position of a task with key `x` says of `index`. -/
def First.Ok (x : T.Val) (index : ℕ → sizeT.Val) : Pc T → Prop
  | .load => True
  | .check key => key = x ∧ x ≠ sentinel T
  | .cas key => key = x ∧ x ≠ sentinel T
  | .done => x ≠ sentinel T → index (pos x) ≠ sentinel sizeT
  | _ => False

/-- The first submit changes free places only, each to an index that has its key. -/
structure First (data : ℕ → T.Val) (index : ℕ → sizeT.Val) (n : ℕ) (s : State T) : Prop where
  pass : s.pass = .first
  same : s.data = data
  places : ∀ p, s.index p = index p ∨ ∃ i < n, data i ≠ sentinel T ∧ pos (data i) = p ∧
    s.index p = toSize i
  task : ∀ i < n, First.Ok (data i) s.index (s.pc i)

theorem First.start : First data index n (start data index) where
  pass := rfl
  same := rfl
  places _ := .inl rfl
  task _ _ := trivial

/-- A place that is taken stays taken. -/
theorem First.Ok.mono {x : T.Val} {pc : Pc T} {index' : ℕ → sizeT.Val} (h : First.Ok x index pc)
    (hidx : ∀ p, index p ≠ sentinel sizeT → index' p ≠ sentinel sizeT) : First.Ok x index' pc := by
  cases pc with
  | load => trivial
  | check key => exact h
  | cas key => exact h
  | done => exact fun hx => hidx _ (h hx)
  | compare key => exact h.elim
  | reset key => exact h.elim
  | lose => exact h.elim

theorem First.goto (h : First data index n s) {i : ℕ} {pc : Pc T}
    (hok : First.Ok (data i) s.index pc) :
    First data index n (s.goto i pc) where
  pass := h.pass
  same := h.same
  places := h.places
  task j hj := by
    show First.Ok (data j) s.index (Function.update s.pc i pc j)
    by_cases hji : j = i
    · subst hji
      rw [Function.update_self]
      exact hok
    · rw [Function.update_of_ne hji]
      exact h.task j hj

/-- A task takes a place. -/
theorem First.take (h : First data index n s) {i : ℕ} (hi : i < n) (hx : data i ≠ sentinel T)
    (hfree : s.index (pos (data i)) = sentinel sizeT) :
    First data index n { s with index := Function.update s.index (pos (data i)) (toSize i) } where
  pass := h.pass
  same := h.same
  places p := by
    show Function.update s.index (pos (data i)) (toSize i) p = index p ∨
      ∃ j < n, data j ≠ sentinel T ∧ pos (data j) = p ∧
        Function.update s.index (pos (data i)) (toSize i) p = toSize j
    by_cases hp : p = pos (data i)
    · subst hp
      rw [Function.update_self]
      exact .inr ⟨i, hi, hx, rfl, rfl⟩
    · rw [Function.update_of_ne hp]
      exact h.places p
  task j hj := (h.task j hj).mono fun p hp => by
    have hne : p ≠ pos (data i) := by
      rintro rfl
      exact hp hfree
    show Function.update s.index (pos (data i)) (toSize i) p ≠ _
    rw [Function.update_of_ne hne]
    exact hp

theorem First.step (h : First data index n s) (hn : n < 2 ^ 64) {i : ℕ} (hi : i < n)
    (hs : first s i = some s') :
    First data index n s' := by
  have hok := h.task i hi
  have hdata : s.data i = data i := congrFun h.same i
  cases hpc : s.pc i with
  | load =>
    simp only [first, hpc, Option.some.injEq, hdata] at hs
    subst hs
    by_cases hx : data i ≠ sentinel T
    · rw [if_pos hx]
      exact h.goto ⟨rfl, hx⟩
    · rw [if_neg hx]
      exact h.goto fun hx' => absurd hx' hx
  | check key =>
    rw [hpc] at hok
    obtain ⟨rfl, hx⟩ := hok
    simp only [first, hpc, Option.some.injEq] at hs
    subst hs
    by_cases hfree : s.index (pos (data i)) = sentinel sizeT
    · rw [if_pos hfree]
      exact h.goto ⟨rfl, hx⟩
    · rw [if_neg hfree]
      exact h.goto fun _ => hfree
  | cas key =>
    rw [hpc] at hok
    obtain ⟨rfl, hx⟩ := hok
    simp only [first, hpc, Option.some.injEq] at hs
    subst hs
    by_cases hfree : s.index (pos (data i)) = sentinel sizeT
    · rw [if_pos hfree]
      refine (h.take hi hx hfree).goto fun _ => ?_
      show Function.update s.index (pos (data i)) (toSize i) (pos (data i)) ≠ _
      rw [Function.update_self]
      exact toSize_ne hn hi
    · rw [if_neg hfree]
      exact h.goto fun _ => hfree
  | done => simp only [first, hpc, reduceCtorEq] at hs
  | compare key => simp only [first, hpc, reduceCtorEq] at hs
  | reset key => simp only [first, hpc, reduceCtorEq] at hs
  | lose => simp only [first, hpc, reduceCtorEq] at hs

/-! ### The winners -/

/-- An index for each key, that has it. -/
def Winner (data : ℕ → T.Val) (n : ℕ) (win : T.Val → ℕ) : Prop :=
  ∀ key, IsKey data n key → win key < n ∧ data (win key) = key

/-- When all tasks are done `index` has a winner for each key, and is otherwise unchanged. -/
theorem First.winner (h : First data index n s) (hv : Valid data index n m)
    (hdone : ∀ i < n, s.pc i = .done) :
    ∃ win, Winner data n win ∧ (∀ key, IsKey data n key → s.index (pos key) = toSize (win key)) ∧
      ∀ p, (∀ key, IsKey data n key → pos key ≠ p) → s.index p = index p := by
  have hwin : ∀ key, IsKey data n key → ∃ w < n, data w = key ∧ s.index (pos key) = toSize w := by
    intro key hkey
    obtain ⟨hx, i, hi, rfl⟩ := id hkey
    have hok := h.task i hi
    rw [hdone i hi] at hok
    rcases h.places (pos (data i)) with hp | ⟨w, hw, hxw, hpos, hval⟩
    · exact absurd (hp.trans (hv.free _ (hv.pos_lt hkey))) (hok hx)
    · exact ⟨w, hw, hv.pos_inj ⟨hxw, w, hw, rfl⟩ hkey hpos, hval⟩
  choose! win hlt hdata hval using hwin
  refine ⟨win, ?_, hval, ?_⟩
  · intro key hkey
    exact ⟨hlt key hkey, hdata key hkey⟩
  · intro p hp
    rcases h.places p with heq | ⟨i, hi, hx, hpos, -⟩
    · exact heq
    · exact absurd hpos (hp (data i) ⟨hx, i, hi, rfl⟩)

/-! ### The second submit -/

section Second

variable {win : T.Val → ℕ}

/-- What the position of task `i` says of what is in its place of `data`. -/
def Second.Ok (data : ℕ → T.Val) (win : T.Val → ℕ) (i : ℕ) (x : T.Val) : Pc T → Prop
  | .load => x = data i
  | .compare key => x = data i ∧ key = data i ∧ data i ≠ sentinel T
  | .reset key => x = data i ∧ key = data i ∧ data i ≠ sentinel T ∧ win (data i) = i
  | .lose => data i ≠ sentinel T ∧ win (data i) ≠ i
  | .done => x = if data i ≠ sentinel T ∧ win (data i) ≠ i then sentinel T else data i
  | _ => False

/-- The place of a key has its winner until the winner is done. -/
structure Second (data : ℕ → T.Val) (index : ℕ → sizeT.Val) (n : ℕ) (win : T.Val → ℕ)
    (s : State T) : Prop where
  pass : s.pass = .second
  winner : Winner data n win
  task : ∀ i < n, Second.Ok data win i (s.data i) (s.pc i)
  places : ∀ key, IsKey data n key →
    s.index (pos key) = if s.pc (win key) = .done then sentinel sizeT else toSize (win key)
  outside : ∀ i, n ≤ i → s.data i = data i
  unused : ∀ p, (∀ key, IsKey data n key → pos key ≠ p) → s.index p = index p

/-- The second submit begins where the first ended. -/
theorem First.second (h : First data index n s) (hv : Valid data index n m)
    (hdone : ∀ i < n, s.pc i = .done) :
    ∃ win, Second data index n win { s with pass := .second, pc := fun _ => .load } := by
  obtain ⟨win, hwin, hplaces, hunused⟩ := h.winner hv hdone
  refine ⟨win, rfl, hwin, ?_, hplaces, ?_, hunused⟩
  · intro i _
    exact congrFun h.same i
  · intro i _
    exact congrFun h.same i

/-- The task of an index that won no key, or is not done by its step. -/
theorem Second.goto (h : Second data index n win s) {i : ℕ} {x : T.Val} {pc : Pc T} (hi : i < n)
    (hok : Second.Ok data win i x pc) (hpc : s.pc i ≠ .done)
    (hlost : pc ≠ .done ∨ ∀ key, IsKey data n key → win key ≠ i) :
    Second data index n win { s.goto i pc with data := Function.update s.data i x } where
  pass := h.pass
  winner := h.winner
  task j hj := by
    show Second.Ok data win j (Function.update s.data i x j) (Function.update s.pc i pc j)
    by_cases hji : j = i
    · subst hji
      rw [Function.update_self, Function.update_self]
      exact hok
    · rw [Function.update_of_ne hji, Function.update_of_ne hji]
      exact h.task j hj
  places key hkey := by
    show s.index (pos key) = if Function.update s.pc i pc (win key) = .done then sentinel sizeT
        else toSize (win key)
    rw [h.places key hkey]
    by_cases hw : win key = i
    · have hnot : pc ≠ .done := hlost.resolve_right fun hl => hl key hkey hw
      rw [hw, Function.update_self, if_neg hpc, if_neg hnot]
    · rw [Function.update_of_ne hw]
  outside j hj := by
    show Function.update s.data i x j = data j
    rw [Function.update_of_ne (by omega)]
    exact h.outside j hj
  unused := h.unused

/-- The task of a winner frees the place. -/
theorem Second.free (h : Second data index n win s) (hv : Valid data index n m) {i : ℕ} (hi : i < n)
    (hx : s.data i = data i) (hkey : data i ≠ sentinel T) (hwin : win (data i) = i) :
    Second data index n win
      { s.goto i .done with index := Function.update s.index (pos (data i)) (sentinel sizeT) } where
  pass := h.pass
  winner := h.winner
  task j hj := by
    show Second.Ok data win j (s.data j) (Function.update s.pc i .done j)
    by_cases hji : j = i
    · subst hji
      rw [Function.update_self]
      show s.data j = if data j ≠ sentinel T ∧ win (data j) ≠ j then sentinel T else data j
      rw [if_neg fun hl => hl.2 hwin, hx]
    · rw [Function.update_of_ne hji]
      exact h.task j hj
  places key hk := by
    show Function.update s.index (pos (data i)) (sentinel sizeT) (pos key) =
      if Function.update s.pc i .done (win key) = .done then sentinel sizeT else toSize (win key)
    by_cases he : key = data i
    · rw [he, hwin, Function.update_self, Function.update_self, if_pos rfl]
    · have hpos : pos key ≠ pos (data i) := fun hp => he (hv.pos_inj hk ⟨hkey, i, hi, rfl⟩ hp)
      have hw : win key ≠ i := by
        intro hw
        have hd := (h.winner key hk).2
        rw [hw] at hd
        exact he hd.symm
      rw [Function.update_of_ne hpos, Function.update_of_ne hw]
      exact h.places key hk
  outside := h.outside
  unused p hp := by
    show Function.update s.index (pos (data i)) (sentinel sizeT) p = index p
    rw [Function.update_of_ne fun he => hp (data i) ⟨hkey, i, hi, rfl⟩ he.symm]
    exact h.unused p hp

/-- A step that leaves `data` is one that stores there what is there. -/
theorem State.goto_data (s : State T) (i : ℕ) (pc : Pc T) :
    s.goto i pc = { s.goto i pc with data := Function.update s.data i (s.data i) } := by
  rw [Function.update_eq_self]
  rfl

theorem Second.step (h : Second data index n win s) (hv : Valid data index n m) (hn : n < 2 ^ 64)
    {i : ℕ} (hi : i < n) (hs : Dedup.second s i = some s') : Second data index n win s' := by
  have hok := h.task i hi
  cases hpc : s.pc i with
  | load =>
    rw [hpc] at hok
    simp only [Dedup.second, hpc, Option.some.injEq] at hs
    subst hs
    rw [State.goto_data]
    by_cases hx : s.data i ≠ sentinel T
    · rw [if_pos hx]
      refine h.goto hi ⟨hok, hok, ?_⟩ (by simp [hpc]) (.inl (by simp))
      exact hok ▸ hx
    · -- the sentinel has no winner
      have hnone : ∀ key, IsKey data n key → win key ≠ i := by
        rintro key hkey rfl
        have hd : s.data (win key) = key := Eq.trans hok (h.winner key hkey).2
        rw [hd] at hx
        exact hx hkey.1
      rw [if_neg hx]
      refine h.goto hi ?_ (by simp [hpc]) (.inr hnone)
      show s.data i = if data i ≠ sentinel T ∧ win (data i) ≠ i then sentinel T else data i
      have hok' : s.data i = data i := hok
      rw [if_neg fun hl => hx (hok' ▸ hl.1), hok']
  | compare key =>
    rw [hpc] at hok
    obtain ⟨hx, rfl, hkey⟩ := hok
    simp only [Dedup.second, hpc, Option.some.injEq] at hs
    subst hs
    rw [State.goto_data]
    have hk : IsKey data n (data i) := ⟨hkey, i, hi, rfl⟩
    by_cases hw : win (data i) = i
    · have hval : s.index (pos (data i)) = toSize i := by
        rw [h.places _ hk, hw, hpc, if_neg (by simp)]
      rw [if_pos hval]
      exact h.goto hi ⟨hx, rfl, hkey, hw⟩ (by simp [hpc]) (.inl (by simp))
    · -- the place has the winner or nothing
      have hval : s.index (pos (data i)) ≠ toSize i := by
        rw [h.places _ hk]
        split
        · exact (toSize_ne hn hi).symm
        · exact fun he => hw (toSize_inj ((h.winner _ hk).1.trans hn) (hi.trans hn) he)
      rw [if_neg hval]
      exact h.goto hi ⟨hkey, hw⟩ (by simp [hpc]) (.inl (by simp))
  | reset key =>
    rw [hpc] at hok
    obtain ⟨hx, rfl, hkey, hw⟩ := hok
    simp only [Dedup.second, hpc, Option.some.injEq] at hs
    subst hs
    exact h.free hv hi hx hkey hw
  | lose =>
    rw [hpc] at hok
    obtain ⟨hkey, hw⟩ := hok
    simp only [Dedup.second, hpc, Option.some.injEq] at hs
    subst hs
    refine h.goto hi ?_ (by simp [hpc]) (.inr ?_)
    · show sentinel T = if data i ≠ sentinel T ∧ win (data i) ≠ i then sentinel T else data i
      rw [if_pos ⟨hkey, hw⟩]
    · rintro key hk rfl
      have hd := (h.winner key hk).2
      rw [hd] at hw
      exact hw rfl
  | done => simp only [Dedup.second, hpc, reduceCtorEq] at hs
  | check key => simp only [Dedup.second, hpc, reduceCtorEq] at hs
  | cas key => simp only [Dedup.second, hpc, reduceCtorEq] at hs

end Second

/-! ### Both submits -/

/-- The invariant of the two submits. -/
def Inv (data : ℕ → T.Val) (index : ℕ → sizeT.Val) (n : ℕ) (s : State T) : Prop :=
  First data index n s ∨ ∃ win, Second data index n win s

theorem Inv.step (h : Inv data index n s) (hv : Valid data index n m) (hn : n < 2 ^ 64) {a : Act}
    (hs : step n s a = some s') : Inv data index n s' := by
  cases a with
  | run i =>
    by_cases hi : i < n
    · rcases h with h | ⟨win, h⟩
      · simp only [Dedup.step, if_pos hi, h.pass] at hs
        exact .inl (h.step hn hi hs)
      · simp only [Dedup.step, if_pos hi, h.pass] at hs
        exact .inr ⟨win, h.step hv hn hi hs⟩
    · simp only [Dedup.step, if_neg hi, reduceCtorEq] at hs
  | next =>
    by_cases hdone : s.pass = .first ∧ ∀ i < n, s.pc i = .done
    · simp only [Dedup.step, if_pos hdone, Option.some.injEq] at hs
      subst hs
      rcases h with h | ⟨win, h⟩
      · exact .inr (h.second hv hdone.2)
      · rw [h.pass] at hdone
        cases hdone.1
    · simp only [Dedup.step, if_neg hdone, reduceCtorEq] at hs

theorem inv_of_reachable (hv : Valid data index n m) (hn : n < 2 ^ 64)
    (h : (dedup data index n).Reachable s) :
    Inv data index n s := by
  refine h.invariant ?_ ?_
  · rintro s rfl
    exact .inl First.start
  · intro s a s' _ hi _ hs
    exact hi.step hv hn hs

/-! ### `dedup` ends -/

/-- How many steps a task has to take at most. -/
def Pc.rank : Pc T → ℕ
  | .load => 3
  | .check _ => 2
  | .cas _ => 1
  | .compare _ => 2
  | .reset _ => 1
  | .lose => 1
  | .done => 0

/-- How many steps are left at most. -/
def left (n : ℕ) (s : State T) : ℕ :=
  ∑ i ∈ Finset.range n, (s.pc i).rank + match s.pass with
    | .first => 3 * n + 1
    | .second => 0

theorem sum_rank_goto {i : ℕ} {pc : Pc T} (hi : i < n) (hlt : pc.rank < (s.pc i).rank) :
    ∑ j ∈ Finset.range n, ((s.goto i pc).pc j).rank < ∑ j ∈ Finset.range n, (s.pc j).rank := by
  have hself : (s.goto i pc).pc i = pc := Function.update_self ..
  have hne : ∀ j, j ≠ i → (s.goto i pc).pc j = s.pc j := fun j hj => Function.update_of_ne hj ..
  refine Finset.sum_lt_sum ?_ ⟨i, Finset.mem_range.mpr hi, by rw [hself]; exact hlt⟩
  intro j _
  by_cases hj : j = i
  · rw [hj, hself]
    exact hlt.le
  · rw [hne j hj]

/-- A step of a task takes it on, and leaves the pass. -/
theorem first_goto {i : ℕ} (hs : first s i = some s') :
    ∃ pc, pc.rank < (s.pc i).rank ∧ s'.pc = (s.goto i pc).pc ∧ s'.pass = s.pass := by
  cases hpc : s.pc i <;> simp only [first, hpc, Option.some.injEq, reduceCtorEq] at hs
  all_goals subst hs
  all_goals refine ⟨_, ?_, rfl, rfl⟩
  · split <;> simp only [Pc.rank] <;> decide
  · split <;> simp only [Pc.rank] <;> decide
  · simp only [Pc.rank]
    decide

theorem second_goto {i : ℕ} (hs : second s i = some s') :
    ∃ pc, pc.rank < (s.pc i).rank ∧ s'.pc = (s.goto i pc).pc ∧ s'.pass = s.pass := by
  cases hpc : s.pc i <;> simp only [second, hpc, Option.some.injEq, reduceCtorEq] at hs
  all_goals subst hs
  all_goals refine ⟨_, ?_, rfl, rfl⟩
  · split <;> simp only [Pc.rank] <;> decide
  · split <;> simp only [Pc.rank] <;> decide
  · simp only [Pc.rank]
    decide
  · simp only [Pc.rank]
    decide

/-- Every step leaves less to do, -/
theorem left_lt {a : Act} (hs : step n s a = some s') : left n s' < left n s := by
  cases a with
  | run i =>
    by_cases hi : i < n
    · have hgoto : ∃ pc, pc.rank < (s.pc i).rank ∧ s'.pc = (s.goto i pc).pc ∧ s'.pass = s.pass := by
        simp only [step, if_pos hi] at hs
        split at hs
        · exact first_goto hs
        · exact second_goto hs
      obtain ⟨pc, hlt, hpc, hpass⟩ := hgoto
      unfold left
      rw [hpc, hpass]
      exact Nat.add_lt_add_right (sum_rank_goto hi hlt) _
    · simp only [step, if_neg hi, reduceCtorEq] at hs
  | next =>
    by_cases hdone : s.pass = .first ∧ ∀ i < n, s.pc i = .done
    · simp only [step, if_pos hdone, Option.some.injEq] at hs
      subst hs
      have hsum : ∑ _i ∈ Finset.range n, (Pc.load : Pc T).rank = n * 3 := by
        rw [Finset.sum_const_nat fun _ _ => rfl, Finset.card_range]
        rfl
      simp only [left, hdone.1]
      omega
    · simp only [step, if_neg hdone, reduceCtorEq] at hs

/-- and until `dedup` has returned there is a step. -/
theorem progress (h : Inv data index n s) (hf : ¬ s.Finished n) : ∃ a s', step n s a = some s' := by
  by_cases hdone : ∀ i < n, s.pc i = .done
  · rcases h with h | ⟨win, h⟩
    · exact ⟨.next, _, if_pos ⟨h.pass, hdone⟩⟩
    · exact absurd ⟨h.pass, hdone⟩ hf
  · obtain ⟨i, hi, hpc⟩ : ∃ i < n, s.pc i ≠ .done := by
      simpa only [not_forall, exists_prop] using hdone
    refine ⟨.run i, ?_⟩
    rcases h with h | ⟨win, h⟩
    · have hok := h.task i hi
      simp only [step, if_pos hi, h.pass, first]
      cases hp : s.pc i with
      | done => exact absurd hp hpc
      | compare key => rw [hp] at hok; exact hok.elim
      | reset key => rw [hp] at hok; exact hok.elim
      | lose => rw [hp] at hok; exact hok.elim
      | _ => exact ⟨_, rfl⟩
    · have hok := h.task i hi
      simp only [step, if_pos hi, h.pass, second]
      cases hp : s.pc i with
      | done => exact absurd hp hpc
      | check key => rw [hp] at hok; exact hok.elim
      | cas key => rw [hp] at hok; exact hok.elim
      | _ => exact ⟨_, rfl⟩

theorem length_run {as : List Act} (hs : exec (step n) s as = some s') :
    as.length + left n s' ≤ left n s := by
  induction as generalizing s with
  | nil =>
    obtain rfl := Option.some.inj hs
    rw [List.length_nil, Nat.zero_add]
  | cons a as ih =>
    obtain ⟨s₁, h₁, h₂⟩ := Option.bind_eq_some_iff.mp hs
    have hlt := left_lt h₁
    have hle := ih h₂
    rw [List.length_cons]
    omega

/-- **`dedup` ends**: from wherever it has got, it takes no more than `left` steps, and when no task
can take one it has returned. -/
theorem ends (hv : Valid data index n m) (hn : n < 2 ^ 64)
    (h : (dedup data index n).Reachable s) :
    (∀ as s', exec (step n) s as = some s' → as.length ≤ left n s ∧
      ((∀ a, step n s' a = none) → s'.Finished n)) ∧
      ∃ as s', exec (step n) s as = some s' ∧ s'.Finished n := by
  have hbound : ∀ as s', exec (step n) s as = some s' → as.length ≤ left n s := fun as s' hs =>
    (Nat.le_add_right _ _).trans (length_run hs)
  have hstuck : ∀ as s', exec (step n) s as = some s' → (∀ a, step n s' a = none) →
      s'.Finished n := by
    intro as s' hs hnone
    by_contra hf
    have hreach : (dedup data index n).Reachable s' :=
      h.exec (fun _ _ _ h => h) (fun _ _ _ => trivial) hs
    obtain ⟨a, s'', hstep⟩ := progress (inv_of_reachable hv hn hreach) hf
    rw [hnone a] at hstep
    cases hstep
  refine ⟨fun as s' hs => ⟨hbound as s' hs, hstuck as s' hs⟩, ?_⟩
  obtain ⟨as, s', hs, hnone⟩ := exists_stuck hbound
  exact ⟨as, s', hs, hstuck as s' hs hnone⟩

/-! ### What it leaves -/

/-- What `dedup` leaves: of each key the winner, and `index` as it was. -/
theorem finished_eq (hv : Valid data index n m) (hn : n < 2 ^ 64)
    (h : (dedup data index n).Reachable s) (hf : s.Finished n) :
    ∃ win, Winner data n win ∧ s.index = index ∧ (∀ i, n ≤ i → s.data i = data i) ∧
      ∀ i < n, s.data i = if data i ≠ sentinel T ∧ win (data i) ≠ i then sentinel T
        else data i := by
  rcases inv_of_reachable hv hn h with hi | ⟨win, hi⟩
  · have hpass := hi.pass.symm.trans hf.1
    cases hpass
  · refine ⟨win, hi.winner, ?_, hi.outside, ?_⟩
    · funext p
      by_cases hp : ∃ key, IsKey data n key ∧ pos key = p
      · obtain ⟨key, hkey, rfl⟩ := hp
        rw [hi.places key hkey, if_pos (hf.2 _ (hi.winner key hkey).1), hv.free _ (hv.pos_lt hkey)]
      · exact hi.unused p fun key hkey he => hp ⟨key, hkey, he⟩
    · intro i hin
      have hok := hi.task i hin
      rw [hf.2 i hin] at hok
      exact hok

/-- What is left is the sentinel or was there, -/
theorem data_eq_or (hv : Valid data index n m) (hn : n < 2 ^ 64)
    (h : (dedup data index n).Reachable s) (hf : s.Finished n) {i : ℕ} (hi : i < n) :
    s.data i = sentinel T ∨ s.data i = data i := by
  obtain ⟨win, -, -, -, hdata⟩ := finished_eq hv hn h hf
  rw [hdata i hi]
  split
  · exact .inl rfl
  · exact .inr rfl

/-- and each key is left at one place. -/
theorem exists_survivor (hv : Valid data index n m) (hn : n < 2 ^ 64)
    (h : (dedup data index n).Reachable s) (hf : s.Finished n) (hkey : IsKey data n key) :
    ∃ w < n, data w = key ∧ ∀ i < n, s.data i = key ↔ i = w := by
  obtain ⟨win, hwin, -, -, hdata⟩ := finished_eq hv hn h hf
  obtain ⟨hw, hd⟩ := hwin key hkey
  refine ⟨win key, hw, hd, fun i hi => ?_⟩
  rw [hdata i hi]
  constructor
  · intro hi'
    split at hi'
    · exact absurd hi'.symm hkey.1
    · rename_i hnot
      subst hi'
      exact not_not.mp fun hne => hnot ⟨hkey.1, fun he => hne he.symm⟩
  · rintro rfl
    rw [if_neg fun hl => hl.2 (by rw [hd]), hd]

end Dedup

open Dedup

variable {T : CTy}

/-- **`dedup` removes duplicates**, in whatever order the tasks run, and restores `index`. -/
theorem dedup_unique {data : ℕ → T.Val} {index : ℕ → sizeT.Val} {n m : ℕ} {s : Dedup.State T}
    (hv : Valid data index n m) (hn : n < 2 ^ 64) (h : (dedup data index n).Reachable s)
    (hf : s.Finished n) :
    (∀ key, IsKey data n key → ∃ w < n, data w = key ∧ ∀ i < n, s.data i = key ↔ i = w) ∧
      (∀ i < n, (∀ key, IsKey data n key → s.data i ≠ key) → s.data i = sentinel T) ∧
      (∀ p < m, s.index p = sentinel sizeT) ∧
      ∀ s', (dedup s.data s.index n).Reachable s' → s'.Finished n →
        s'.data = s.data ∧ s'.index = s.index := by
  obtain ⟨win, hwin, hindex, hout, hdata⟩ := finished_eq hv hn h hf
  -- what is left is keys of before
  have hold : ∀ key, IsKey s.data n key → IsKey data n key := by
    rintro key ⟨hkey, i, hi, rfl⟩
    rcases data_eq_or hv hn h hf hi with he | he
    · exact absurd he hkey
    · rw [he] at hkey ⊢
      exact ⟨hkey, i, hi, rfl⟩
  have hfree : ∀ p < m, s.index p = sentinel sizeT := by
    rw [hindex]
    exact hv.free
  refine ⟨fun key hkey => exists_survivor hv hn h hf hkey, ?_, hfree, ?_⟩
  · intro i hi hnone
    rcases data_eq_or hv hn h hf hi with he | he
    · exact he
    · by_contra hne
      exact hnone (data i) ⟨he ▸ hne, i, hi, rfl⟩ he
  · intro s' h' hf'
    have hv' : Valid s.data s.index n m := ⟨fun key hkey => hv.place key (hold key hkey), hfree⟩
    obtain ⟨win', hwin', hindex', hout', hdata'⟩ := finished_eq hv' hn h' hf'
    refine ⟨funext fun i => ?_, hindex'⟩
    by_cases hi : i < n
    · by_cases hx : s.data i = sentinel T
      · rw [hdata' i hi, if_neg fun hl => hl.1 hx]
      · -- the winner of the second time is the one place that has the key
        have hkey : IsKey s.data n (s.data i) := ⟨hx, i, hi, rfl⟩
        obtain ⟨w, -, -, huniq⟩ := exists_survivor hv hn h hf (hold _ hkey)
        obtain ⟨hw', hd'⟩ := hwin' _ hkey
        have hwi : win' (s.data i) = i := ((huniq _ hw').mp hd').trans ((huniq i hi).mp rfl).symm
        rw [hdata' i hi, if_neg fun hl => hl.2 hwi]
    · exact hout' i (not_lt.mp hi)

/-- Two tasks find the place of key 1 free, and the second takes it; in the second submit the winner
is done before the loser looks. -/
def twoFree : List Dedup.Act :=
  [.run 0, .run 1, .run 0, .run 1, .run 1, .run 0, .run 2, .next, .run 0, .run 1, .run 2, .run 1,
    .run 1, .run 0, .run 0]

/-- The keys 1, 1 and none. -/
def twoOnes (i : ℕ) : (signed .w32).Val := if i < 2 then 1 else sentinel _

theorem dedup_unique_twoFree :
    ∃ s, exec (step 3) (start twoOnes fun _ => sentinel sizeT) twoFree = some s ∧
    s.data 0 = sentinel _ ∧ s.data 1 = 1 ∧
      ∀ p < 2, s.index p = sentinel sizeT := by
  have hrun : ∃ s, exec (step 3) (start twoOnes fun _ => sentinel sizeT) twoFree = some s ∧
      s.data 0 = sentinel _ ∧
      s.data 1 = 1 ∧ s.Finished 3 := ⟨_, rfl, rfl, rfl, rfl, by decide⟩
  obtain ⟨s, hs, h0, h1, hf⟩ := hrun
  have hreach : (dedup twoOnes (fun _ => sentinel sizeT) 3).Reachable s :=
    Lts.Reach.exec (fun _ _ _ h => h) (.init rfl) (fun _ _ _ => trivial) hs
  have hv : Valid twoOnes (fun _ => sentinel sizeT) 3 2 := by
    refine ⟨?_, fun _ _ => rfl⟩
    rintro key ⟨hkey, i, hi, rfl⟩
    by_cases h2 : i < 2
    · rw [twoOnes, if_pos h2]
      decide
    · exact absurd (if_neg h2) hkey
  exact ⟨s, hs, h0, h1, (dedup_unique hv (by decide) hreach hf).2.2.1⟩

end NetworkDemo.GangUtil
