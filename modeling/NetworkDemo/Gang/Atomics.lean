import NetworkDemo.Foundations.CasLoops
import NetworkDemo.GangUtil.Integers
import Mathlib.Algebra.BigOperators.Group.List.Basic
import Mathlib.Order.Bounds.Basic

/-!
# The atomic operations

`write`, `writeMin`, `writeMax`, `writeAdd` and `fetchAdd` read a cell, and try to swap
in the value they have for it until `CAS` succeeds; the first three are `writeCond`,
which gives up when its condition does not hold. They are a `CasLoop` (`atomics`), and
each is, in one step, what it is for (`seq`, `apply_eq`): a minimum, a maximum, a sum, or
the value written.

Every history of calls on one cell is linearizable (`atomics_linearizable`). When no call
is under way, a cell that was only added to has all that was added, and one that only
`writeMin` was called on has the least of its first value and the arguments. Of the
additions `bool` is the exception: a sum of `bool`s is converted back to `true`
(`bool_addition_lost`).

`CAS` is of 1, 4 or 8 bytes; nothing here depends on how many.
-/

namespace NetworkDemo.Gang

open Foundations GangUtil CTy

variable {T : CTy}

/-- A call, with its argument. -/
inductive Op (T : CTy) where
  | write (b : T.Val)
  | writeMin (b : T.Val)
  | writeMax (b : T.Val)
  | writeAdd (b : T.Val)
  | fetchAdd (b : T.Val)

/-- What a call returns: a `bool`, nothing, or a `T`. -/
inductive Ret (T : CTy) where
  | bool (r : Bool)
  | void
  | val (v : T.Val)

/-- `std::greater<T>`. -/
def greater (x y : T.Val) : Bool := decide (T.toInt y < T.toInt x)

/-- `std::less<T>`. -/
def less (x y : T.Val) : Bool := decide (T.toInt x < T.toInt y)

/-! ### The loops

Each is the value for `CAS`, from the value read: `none` is where the loop is left
without one.
-/

/-- `writeCond`. -/
def writeCond (newv : T.Val) (f : T.Val → T.Val → Bool) (oldv : T.Val) : Option T.Val :=
  if f oldv newv = true then some newv else none

/-- `write`. -/
def write (b : T.Val) : T.Val → Option T.Val := writeCond b fun _ _ => true

/-- `writeMin`. -/
def writeMin (b : T.Val) : T.Val → Option T.Val := writeCond b greater

/-- `writeMax`. -/
def writeMax (b : T.Val) : T.Val → Option T.Val := writeCond b less

/-- `writeAdd`, whose loop has the sum for a new value. -/
def writeAdd (b oldv : T.Val) : Option T.Val := some (plus T oldv b)

/-- `fetchAdd`, likewise; it returns the value read. -/
def fetchAdd (b oldv : T.Val) : Option T.Val := some (plus T oldv b)

/-- The operations as loops. `writeCond` returns `r`, which is what the last `CAS` returned, or
0. -/
def atomics (T : CTy) : CasLoop T.Val (Op T) (Ret T) where
  next
    | .write b => write b
    | .writeMin b => writeMin b
    | .writeMax b => writeMax b
    | .writeAdd b => writeAdd b
    | .fetchAdd b => fetchAdd b
  stored
    | .write _, _ => .bool true
    | .writeMin _, _ => .bool true
    | .writeMax _, _ => .bool true
    | .writeAdd _, _ => .void
    | .fetchAdd _, oldv => .val oldv
  refused _ _ := .bool false

/-! ### What they are for -/

/-- The value of the cell after a call alone, and what the call returns. -/
def seq : Op T → T.Val → T.Val × Ret T
  | .write b, _ => (b, .bool true)
  | .writeMin b, a =>
    (T.ofInt (min (T.toInt a) (T.toInt b)), .bool (decide (T.toInt b < T.toInt a)))
  | .writeMax b, a =>
    (T.ofInt (max (T.toInt a) (T.toInt b)), .bool (decide (T.toInt a < T.toInt b)))
  | .writeAdd b, a => (T.ofInt (T.toInt a + T.toInt b), .void)
  | .fetchAdd b, a => (T.ofInt (T.toInt a + T.toInt b), .val a)

theorem apply_eq (op : Op T) (a : T.Val) : (atomics T).apply op a = seq op a := by
  cases op with
  | write b => rfl
  | writeAdd b => rfl
  | fetchAdd b => rfl
  | writeMin b =>
    by_cases h : T.toInt b < T.toInt a
    · have hn : (atomics T).next (.writeMin b) a = some b := if_pos (decide_eq_true h)
      simp only [CasLoop.apply, hn, seq, min_eq_right h.le, ofInt_toInt, decide_eq_true h]
      rfl
    · have hn : (atomics T).next (.writeMin b) a = none :=
        if_neg (by simp only [greater, h, decide_false]; decide)
      simp only [CasLoop.apply, hn, seq, min_eq_left (not_lt.mp h), ofInt_toInt, decide_eq_false h]
      rfl
  | writeMax b =>
    by_cases h : T.toInt a < T.toInt b
    · have hn : (atomics T).next (.writeMax b) a = some b := if_pos (decide_eq_true h)
      simp only [CasLoop.apply, hn, seq, max_eq_right h.le, ofInt_toInt, decide_eq_true h]
      rfl
    · have hn : (atomics T).next (.writeMax b) a = none :=
        if_neg (by simp only [less, h, decide_false]; decide)
      simp only [CasLoop.apply, hn, seq, max_eq_left (not_lt.mp h), ofInt_toInt, decide_eq_false h]
      rfl

/-! ### Sums and minima -/

section Outcome

open CasLoop (Call Explains Linearizes)

/-- The argument of a call. -/
def Op.arg : Op T → T.Val
  | .write b => b
  | .writeMin b => b
  | .writeMax b => b
  | .writeAdd b => b
  | .fetchAdd b => b

/-- The operation adds. -/
def Op.Adds (op : Op T) : Prop := ∃ b, op = .writeAdd b ∨ op = .fetchAdd b

/-- The number call `k` adds. -/
def addend (calls : ℕ → Option (Call (Op T) (Ret T))) (k : ℕ) : ℤ :=
  (calls k).elim 0 fun c => T.toInt c.op.arg

variable {calls : ℕ → Option (Call (Op T) (Ret T))} {lin : List ℕ} {a a' : T.Val}

theorem Op.Adds.seq_eq {op : Op T} (h : op.Adds) :
    (seq op a).1 = T.ofInt (T.toInt a + T.toInt op.arg) := by
  obtain ⟨b, rfl | rfl⟩ := h
  · rfl
  · rfl

/-- A sum in steps that each wrap around is the sum, wrapped around once. -/
theorem ofInt_toInt_add (hT : T ≠ .bool) (x y : ℤ) :
    T.ofInt (T.toInt (T.ofInt x) + y) = T.ofInt (x + y) := by
  apply ofInt_congr hT
  rw [add_sub_add_right_eq_sub]
  exact dvd_toInt_ofInt hT

theorem explains_adds (hT : T ≠ .bool) (h : Explains seq calls a lin a')
    (hadd : ∀ k c, calls k = some c → c.op.Adds) :
    a' = T.ofInt (T.toInt a + (lin.map (addend calls)).sum) := by
  induction lin generalizing a with
  | nil =>
    obtain rfl : a' = a := h
    rw [List.map_nil, List.sum_nil, add_zero, ofInt_toInt]
  | cons k ks ih =>
    obtain ⟨c, hc, -, hrest⟩ := h
    have hk : addend calls k = T.toInt c.op.arg := by rw [addend, hc]; rfl
    rw [ih hrest, (hadd k c hc).seq_eq, ofInt_toInt_add hT, List.map_cons, List.sum_cons,
      hk, add_assoc]

theorem toInt_min (b : T.Val) : T.toInt (seq (.writeMin b) a).1 = min (T.toInt a) (T.toInt b) := by
  show T.toInt (T.ofInt (min (T.toInt a) (T.toInt b))) = _
  rcases min_choice (T.toInt a) (T.toInt b) with h | h
  · rw [h, ofInt_toInt]
  · rw [h, ofInt_toInt]

theorem explains_min (h : Explains seq calls a lin a')
    (hmin : ∀ k c, calls k = some c → ∃ b, c.op = .writeMin b) :
    IsLeast {z | z = T.toInt a ∨ ∃ k ∈ lin, ∃ c, calls k = some c ∧ z = T.toInt c.op.arg}
      (T.toInt a') := by
  induction lin generalizing a with
  | nil =>
    obtain rfl : a' = a := h
    refine ⟨.inl rfl, ?_⟩
    rintro z (rfl | ⟨k, hk, -⟩)
    · exact le_rfl
    · exact absurd hk List.not_mem_nil
  | cons k ks ih =>
    obtain ⟨c, hc, -, hrest⟩ := h
    obtain ⟨b, hb⟩ := hmin k c hc
    have hval : T.toInt (seq c.op a).1 = min (T.toInt a) (T.toInt c.op.arg) := by
      rw [hb]
      exact toInt_min b
    obtain ⟨hmem, hlow⟩ := ih hrest
    rw [hval] at hmem hlow
    have hle := hlow (.inl rfl)
    constructor
    · rcases hmem with hm | ⟨j, hj, d, hd, hm⟩
      · rcases min_choice (T.toInt a) (T.toInt c.op.arg) with hw | hw
        · exact .inl (hm.trans hw)
        · exact .inr ⟨k, List.mem_cons_self, c, hc, hm.trans hw⟩
      · exact .inr ⟨j, List.mem_cons_of_mem k hj, d, hd, hm⟩
    · rintro z (rfl | ⟨j, hj, d, hd, rfl⟩)
      · exact hle.trans (min_le_left _ _)
      · rcases List.mem_cons.mp hj with rfl | hj
        · obtain rfl := Option.some.inj (hc.symm.trans hd)
          exact hle.trans (min_le_right _ _)
        · exact hlow (.inr ⟨j, hj, d, hd, rfl⟩)

/-- **The operations are linearizable**, and when no call is under way all calls are in the
sequence: no addition is lost, and `writeMin` alone leaves the least. -/
theorem atomics_linearizable (init : T.Val) {s : CasLoop.State T.Val (Op T) (Ret T)}
    (h : ((atomics T).system init).Reachable s) :
    (∃ lin, Linearizes seq init s lin ∧ ((∀ t, s.pc t = .idle) → lin.Perm (List.range s.made))) ∧
      ((∀ t, s.pc t = .idle) → T ≠ .bool → (∀ k c, s.calls k = some c → c.op.Adds) →
        s.cell = T.ofInt (T.toInt init + ((List.range s.made).map (addend s.calls)).sum)) ∧
      ((∀ t, s.pc t = .idle) → (∀ k c, s.calls k = some c → ∃ b, c.op = .writeMin b) →
        IsLeast {z | z = T.toInt init ∨ ∃ k c, s.calls k = some c ∧ z = T.toInt c.op.arg}
          (T.toInt s.cell)) := by
  obtain ⟨lin, hlin⟩ := CasLoop.casLoop_linearizable h
  rw [show (atomics T).apply = seq from funext₂ apply_eq] at hlin
  have hperm : (∀ t, s.pc t = .idle) → lin.Perm (List.range s.made) := fun hidle =>
    hlin.perm fun k hk => CasLoop.ended_of_idle h hidle hk
  refine ⟨⟨lin, hlin, hperm⟩, ?_, ?_⟩
  · intro hidle hT hadd
    rw [explains_adds hT hlin.explains hadd, ((hperm hidle).map _).sum_eq]
  · intro hidle hmin
    have hmem : ∀ k c, s.calls k = some c → k ∈ lin := by
      intro k c hc
      exact (hperm hidle).mem_iff.mpr (List.mem_range.mpr (CasLoop.lt_made h hc))
    convert explains_min hlin.explains hmin using 3
    apply or_congr Iff.rfl
    constructor
    · rintro ⟨k, c, hc, hz⟩
      exact ⟨k, hmem k c hc, c, hc, hz⟩
    · rintro ⟨k, -, c, hc, hz⟩
      exact ⟨k, c, hc, hz⟩

/-- Thread 0 reads the cell, thread 1 lowers it to 3, the `CAS` of thread 0 fails, and it adds 2 to
the 3. -/
def lateCas : List (CasLoop.Act (Op (.signed .w32))) :=
  [.call 0 (.fetchAdd 2), .access 0, .call 1 (.writeMin 3), .access 1, .access 1, .access 0,
    .ret 1, .access 0,
    .access 0, .ret 0]

theorem atomics_linearizable_lateCas :
    ∃ s, exec (atomics _).step (CasLoop.start 5) lateCas = some s ∧ s.cell = 5 ∧ ∃ lin,
      Linearizes seq 5 s lin := by
  obtain ⟨s, hs, hcell⟩ : ∃ s, exec (atomics _).step (CasLoop.start 5) lateCas = some s ∧
      s.cell = 5 := ⟨_, rfl, rfl⟩
  have hreach : ((atomics _).system 5).Reachable s :=
    Lts.Reach.exec (fun _ _ _ h => h) (.init rfl) (fun _ _ _ => trivial) hs
  obtain ⟨⟨lin, hlin, -⟩, -⟩ := atomics_linearizable 5 hreach
  exact ⟨s, hs, hcell, lin, hlin⟩

/-- Two threads add `true` to a cell, one after the other. -/
def addTwice : List (CasLoop.Act (Op .bool)) :=
  [.call 0 (.fetchAdd true), .access 0, .access 0, .ret 0,
    .call 1 (.fetchAdd true), .access 1, .access 1, .ret 1]

/-- In a cell of type `bool` an addition is lost: the sum of two is converted to `true`, which
is 1. -/
theorem bool_addition_lost :
    ∃ s, ((atomics .bool).system false).Reachable s ∧ (∀ t, s.pc t = .idle) ∧ s.made = 2 ∧
      (∀ k c, s.calls k = some c → c.op.Adds) ∧
      CTy.toInt .bool s.cell ≠
        (CTy.toInt .bool false + ((List.range s.made).map (addend s.calls)).sum) % 2 ^ 8 := by
  obtain ⟨s, hs⟩ : ∃ s, exec (atomics .bool).step (CasLoop.start false) addTwice = some s :=
    ⟨_, rfl⟩
  have hreach : ((atomics .bool).system false).Reachable s :=
    Lts.Reach.exec (fun _ _ _ h => h) (.init rfl) (fun _ _ _ => trivial) hs
  obtain rfl := Option.some.inj hs
  refine ⟨_, hreach, fun t => ?_, rfl, fun k c hc => ?_, by decide⟩
  · match t with
    | 0 => rfl
    | 1 => rfl
    | _ + 2 => rfl
  · match k with
    | 0 => cases hc; exact ⟨true, .inr rfl⟩
    | 1 => cases hc; exact ⟨true, .inr rfl⟩
    | _ + 2 => cases hc

end Outcome

end NetworkDemo.Gang
