import NetworkDemo.Foundations.Runs
import Mathlib.Data.List.Nodup

/-!
# Loops around compare-and-swap

An operation on a shared cell reads it and decides: it refuses, and returns, or it has
a new value for the cell, which it swaps in if the cell still has the value it read, and
otherwise it begins again. Any number of threads call operations; each reading and each
swap is one step.

A *history* is the record of the calls, with the times they began and ended, by a clock
that every step advances. It is linearizable if the calls can be put in one sequence
that keeps the order of calls of which one ended before the other began, and explains
what they returned and what is in the cell (`Linearizes`). Calls still under way may or
may not be in it.

* `casLoop_linearizable` — every history is.
* `Linearizes.perm` — when no call is under way the sequence is of all the calls.
-/

namespace NetworkDemo.Foundations

universe u v w

/-- The operations of a cell of type `σ`, by what they do with the value they read. -/
structure CasLoop (σ : Type u) (ω : Type v) (ρ : Type w) where
  /-- The value to swap in, or a refusal. -/
  next : ω → σ → Option σ
  /-- What a call returns whose swap succeeded. -/
  stored : ω → σ → ρ
  /-- What a call returns that refused. -/
  refused : ω → σ → ρ

namespace CasLoop

variable {σ : Type u} {ω : Type v} {ρ : Type w}

/-- An operation in one step. -/
def apply (o : CasLoop σ ω ρ) (op : ω) (s : σ) : σ × ρ :=
  match o.next op s with
  | some s' => (s', o.stored op s)
  | none => (s, o.refused op s)

/-- What is recorded of a call. -/
structure Call (ω : Type v) (ρ : Type w) where
  thread : ℕ
  op : ω
  began : ℕ
  /-- What it is to return, when that is settled. -/
  result : Option ρ
  ended : Option ℕ

/-- Where a thread is in its call of number `k`. -/
inductive Pc (σ : Type u) (ω : Type v) where
  | idle
  | load (k : ℕ) (op : ω)
  | swap (k : ℕ) (op : ω) (old new : σ)
  | ret (k : ℕ)

/-- The call a thread is in. -/
def Pc.call? : Pc σ ω → Option ℕ
  | .idle => none
  | .load k _ => some k
  | .swap k _ _ _ => some k
  | .ret k => some k

/-- The cell and the clock, the calls that have been made, and where the threads are. -/
structure State (σ : Type u) (ω : Type v) (ρ : Type w) where
  cell : σ
  clock : ℕ
  made : ℕ
  calls : ℕ → Option (Call ω ρ)
  pc : ℕ → Pc σ ω

/-- A thread calls an operation, takes its next step, or returns. -/
inductive Act (ω : Type v) where
  | call (t : ℕ) (op : ω)
  | access (t : ℕ)
  | ret (t : ℕ)

/-- The result of call `k` is settled. -/
def settle (calls : ℕ → Option (Call ω ρ)) (k : ℕ) (r : ρ) : ℕ → Option (Call ω ρ) :=
  Function.update calls k ((calls k).map fun c => { c with result := some r })

/-- Call `k` ends. -/
def close (calls : ℕ → Option (Call ω ρ)) (k time : ℕ) : ℕ → Option (Call ω ρ) :=
  Function.update calls k ((calls k).map fun c => { c with ended := some time })

/-- The state with thread `t` at `pc`, one step later. -/
def State.goto (s : State σ ω ρ) (t : ℕ) (pc : Pc σ ω) : State σ ω ρ :=
  { s with clock := s.clock + 1, pc := Function.update s.pc t pc }

variable [DecidableEq σ] (o : CasLoop σ ω ρ)

/-- One step. -/
def step (s : State σ ω ρ) : Act ω → Option (State σ ω ρ)
  | .call t op =>
    match s.pc t with
    | .idle => some { s.goto t (.load s.made op) with
        made := s.made + 1,
        calls := Function.update s.calls s.made (some ⟨t, op, s.clock, none, none⟩) }
    | _ => none
  | .access t =>
    match s.pc t with
    | .load k op =>
      match o.next op s.cell with
      | none => some { s.goto t (.ret k) with calls := settle s.calls k (o.refused op s.cell) }
      | some new => some (s.goto t (.swap k op s.cell new))
    | .swap k op old new =>
      if s.cell = old then
        some { s.goto t (.ret k) with cell := new, calls := settle s.calls k (o.stored op old) }
      else some (s.goto t (.load k op))
    | _ => none
  | .ret t =>
    match s.pc t with
    | .ret k => some { s.goto t .idle with calls := close s.calls k s.clock }
    | _ => none

/-- Before the first call. -/
def start (init : σ) : State σ ω ρ := ⟨init, 0, 0, fun _ => none, fun _ => .idle⟩

/-- The system, from a value of the cell. -/
def system (init : σ) : Lts (State σ ω ρ) (Act ω) where
  init s := s = start init
  step s a s' := o.step s a = some s'

/-! ### Linearizations -/

omit [DecidableEq σ]

/-- One call ended before the other began. -/
def Call.Precedes (a b : Call ω ρ) : Prop := ∃ e, a.ended = some e ∧ e < b.began

/-- The calls of a sequence, one after the other by `apply`, from `s` to `s'`, return what they
returned. -/
def Explains (apply : ω → σ → σ × ρ) (calls : ℕ → Option (Call ω ρ)) : σ → List ℕ → σ → Prop
  | s, [], s' => s' = s
  | s, k :: ks, s' => ∃ c, calls k = some c ∧ c.result = some (apply c.op s).2 ∧
      Explains apply calls (apply c.op s).1 ks s'

/-- A sequence of calls that a state's history and cell are explained by. -/
structure Linearizes (apply : ω → σ → σ × ρ) (init : σ) (s : State σ ω ρ) (lin : List ℕ) :
    Prop where
  nodup : lin.Nodup
  /-- It has no calls but those made, -/
  made : ∀ k ∈ lin, k < s.made
  /-- and all those that ended. -/
  ended : ∀ k c, s.calls k = some c → c.ended ≠ none → k ∈ lin
  /-- The order in time is kept. -/
  order : lin.Pairwise fun a b => ∀ ca cb, s.calls a = some ca → s.calls b = some cb →
    ¬ cb.Precedes ca
  explains : Explains apply s.calls init lin s.cell

/-! ### The invariant -/

variable {o} {init : σ} {s : State σ ω ρ} {lin : List ℕ}
    {calls calls' : ℕ → Option (Call ω ρ)} {k t : ℕ}

/-- What a thread's position says of the record of its call. -/
def PcOk (o : CasLoop σ ω ρ) (c : Call ω ρ) : Pc σ ω → Prop
  | .idle => False
  | .load _ op => c.op = op ∧ c.result = none
  | .swap _ op old new => c.op = op ∧ c.result = none ∧ o.next op old = some new
  | .ret _ => c.result ≠ none

/-- The calls in the order their results were settled explain the state. -/
structure Inv (o : CasLoop σ ω ρ) (init : σ) (s : State σ ω ρ) (lin : List ℕ) : Prop where
  nodup : lin.Nodup
  settled : ∀ k, k ∈ lin ↔ ∃ c, s.calls k = some c ∧ c.result ≠ none
  made : ∀ k, k < s.made ↔ ∃ c, s.calls k = some c
  began : ∀ k c, s.calls k = some c → c.began < s.clock
  ended : ∀ k c, s.calls k = some c → c.ended ≠ none → c.result ≠ none
  inside : ∀ k c, s.calls k = some c → c.ended = none → (s.pc c.thread).call? = some k
  within : ∀ t k, (s.pc t).call? = some k → ∃ c, s.calls k = some c ∧ c.thread = t ∧
    c.ended = none ∧ PcOk o c (s.pc t)
  order : lin.Pairwise fun a b => ∀ ca cb, s.calls a = some ca → s.calls b = some cb →
    ¬ cb.Precedes ca
  explains : Explains o.apply s.calls init lin s.cell

/-- Only the operations and the results of the calls matter. -/
theorem Explains.congr {apply : ω → σ → σ × ρ} {x y : σ} (h : Explains apply calls x lin y)
    (hc : ∀ k ∈ lin, ∀ c, calls k = some c → ∃ c', calls' k = some c' ∧ c'.op = c.op ∧
      c'.result = c.result) :
    Explains apply calls' x lin y := by
  induction lin generalizing x with
  | nil => exact h
  | cons k ks ih =>
    obtain ⟨c, hk, hr, hrest⟩ := h
    obtain ⟨c', hk', hop, hres⟩ := hc k List.mem_cons_self c hk
    refine ⟨c', hk', ?_, ?_⟩
    · rw [hres, hop, hr]
    · rw [hop]
      exact ih hrest fun j hj => hc j (List.mem_cons_of_mem k hj)

theorem Explains.snoc {apply : ω → σ → σ × ρ} {x y : σ} (h : Explains apply calls x lin y)
    {c : Call ω ρ} (hk : calls k = some c) (hr : c.result = some (apply c.op y).2) :
    Explains apply calls x (lin ++ [k]) (apply c.op y).1 := by
  induction lin generalizing x with
  | nil =>
    obtain rfl : y = x := h
    exact ⟨c, hk, hr, rfl⟩
  | cons j ks ih =>
    obtain ⟨d, hj, hd, hrest⟩ := h
    exact ⟨d, hj, hd, ih hrest⟩

theorem settle_eq {c : Call ω ρ} (r : ρ) (h : calls k = some c) :
    settle calls k r = Function.update calls k (some { c with result := some r }) := by
  rw [settle, h]
  rfl

theorem close_eq {c : Call ω ρ} (time : ℕ) (h : calls k = some c) :
    close calls k time = Function.update calls k (some { c with ended := some time }) := by
  rw [close, h]
  rfl

/-- What is recorded of a call was, or is recorded now. -/
theorem update_eq_some {c d : Call ω ρ} {j : ℕ} (hd : Function.update calls k (some c) j = some d) :
    j ≠ k ∧ calls j = some d ∨ j = k ∧ d = c := by
  by_cases hj : j = k
  · subst hj
    rw [Function.update_self] at hd
    exact .inr ⟨rfl, (Option.some.inj hd).symm⟩
  · rw [Function.update_of_ne hj] at hd
    exact .inl ⟨hj, hd⟩

/-- Something is recorded of call `k`. -/
theorem Inv.made_update (h : Inv o init s lin) {c c' : Call ω ρ} (hc : s.calls k = some c) (j : ℕ) :
    j < s.made ↔ ∃ d, Function.update s.calls k (some c') j = some d := by
  by_cases hj : j = k
  · subst hj
    rw [Function.update_self]
    exact iff_of_true ((h.made _).mpr ⟨c, hc⟩) ⟨c', rfl⟩
  · rw [Function.update_of_ne hj]
    exact h.made j

theorem Inv.began_update (h : Inv o init s lin) {c : Call ω ρ} (hc : c.began ≤ s.clock) {j : ℕ}
    {d : Call ω ρ} (hd : Function.update s.calls k (some c) j = some d) :
    d.began < s.clock + 1 := by
  rcases update_eq_some hd with ⟨-, hd⟩ | ⟨-, rfl⟩
  · exact (h.began j d hd).trans (Nat.lt_succ_self _)
  · exact Nat.lt_succ_of_le hc

/-- A thread moves that is not in call `j`. -/
theorem Inv.inside_update (h : Inv o init s lin) {x : Pc σ ω} {j : ℕ} {d : Call ω ρ}
    (hd : s.calls j = some d) (he : d.ended = none) (hne : (s.pc t).call? ≠ some j) :
    (Function.update s.pc t x d.thread).call? = some j := by
  have hin := h.inside j d hd he
  have hdt : d.thread ≠ t := by
    rintro hdt
    rw [hdt] at hin
    exact hne hin
  rw [Function.update_of_ne hdt, hin]

/-- A thread is in no other's call. -/
theorem Inv.call_ne (h : Inv o init s lin) {u j : ℕ} (hk : (s.pc t).call? = some k)
    (hj : (s.pc u).call? = some j) (hu : u ≠ t) : j ≠ k := by
  rintro rfl
  obtain ⟨c, hc, ht, -⟩ := h.within t j hk
  obtain ⟨d, hd, hu', -⟩ := h.within u j hj
  rw [hc] at hd
  obtain rfl := Option.some.inj hd
  exact hu (hu'.symm.trans ht)

/-- A step that settles nothing. -/
theorem Inv.goto (h : Inv o init s lin) {pc : Pc σ ω} (hk : (s.pc t).call? = some k)
    (hpc : pc.call? = some k) (hok : ∀ c, s.calls k = some c → PcOk o c (s.pc t) → PcOk o c pc) :
    Inv o init (s.goto t pc) lin where
  nodup := h.nodup
  settled := h.settled
  made := h.made
  began j c hc := (h.began j c hc).trans (Nat.lt_succ_self _)
  ended := h.ended
  inside j c hc he := by
    show (Function.update s.pc t pc c.thread).call? = some j
    have hj := h.inside j c hc he
    by_cases ht : c.thread = t
    · rw [ht] at hj ⊢
      rw [Function.update_self, hpc, ← hk, hj]
    · rw [Function.update_of_ne ht, hj]
  within u j hj := by
    change (Function.update s.pc t pc u).call? = some j at hj
    show ∃ c, s.calls j = some c ∧ c.thread = u ∧ c.ended = none ∧
        PcOk o c (Function.update s.pc t pc u)
    by_cases hu : u = t
    · subst hu
      rw [Function.update_self, hpc] at hj
      obtain rfl := Option.some.inj hj
      obtain ⟨c, hc, hth, he, hp⟩ := h.within u k hk
      rw [Function.update_self]
      exact ⟨c, hc, hth, he, hok c hc hp⟩
    · rw [Function.update_of_ne hu] at hj ⊢
      exact h.within u j hj
  order := h.order
  explains := h.explains

/-- **A call takes effect**: its result is settled, as `apply` has it. -/
theorem Inv.settle (h : Inv o init s lin) {c : Call ω ρ} (hk : (s.pc t).call? = some k)
    (hc : s.calls k = some c) (hr : c.result = none) {r : ρ} {cell : σ}
    (ha : o.apply c.op s.cell = (cell, r)) :
    Inv o init { s.goto t (.ret k) with cell := cell, calls := CasLoop.settle s.calls k r }
      (lin ++ [k]) := by
  have hnot : k ∉ lin := fun hm => by
    obtain ⟨d, hd, hres⟩ := (h.settled k).mp hm
    rw [hc] at hd
    obtain rfl := Option.some.inj hd
    exact hres hr
  obtain ⟨c', hc', hth, hend, -⟩ := h.within t k hk
  rw [hc] at hc'
  obtain rfl := Option.some.inj hc'
  have hmem : ∀ j ∈ lin, j ≠ k := fun j hj he => hnot (he ▸ hj)
  rw [settle_eq r hc]
  have hself : Function.update s.calls k (some { c with result := some r }) k =
      some { c with result := some r } :=
    Function.update_self ..
  have hkeep : ∀ j, j ≠ k → Function.update s.calls k (some { c with result := some r }) j =
      s.calls j :=
    fun j hj => Function.update_of_ne hj _ _
  constructor
  · exact List.nodup_append.mpr ⟨h.nodup, List.nodup_singleton k, fun a ha b hb =>
      List.mem_singleton.mp hb ▸ hmem a ha⟩
  · intro j
    rw [List.mem_append, List.mem_singleton]
    constructor
    · rintro (hj | rfl)
      · obtain ⟨d, hd, hres⟩ := (h.settled j).mp hj
        exact ⟨d, (hkeep j (hmem j hj)).trans hd, hres⟩
      · exact ⟨_, hself, Option.some_ne_none _⟩
    · rintro ⟨d, hd, hres⟩
      rcases update_eq_some hd with ⟨-, hd⟩ | ⟨rfl, -⟩
      · exact .inl ((h.settled j).mpr ⟨d, hd, hres⟩)
      · exact .inr rfl
  · exact h.made_update hc
  · intro j d hd
    refine h.began_update ?_ hd
    exact (h.began k c hc).le
  · intro j d hd he
    rcases update_eq_some hd with ⟨-, hd⟩ | ⟨rfl, rfl⟩
    · exact h.ended j d hd he
    · exact Option.some_ne_none _
  · intro j d hd he
    rcases update_eq_some hd with ⟨hj, hd⟩ | ⟨rfl, rfl⟩
    · exact h.inside_update hd he (by rw [hk]; exact fun e => hj (Option.some.inj e).symm)
    · show (Function.update s.pc t (.ret j) c.thread).call? = some j
      rw [hth, Function.update_self]
      rfl
  · intro u j hj
    change (Function.update s.pc t (.ret k) u).call? = some j at hj
    show ∃ d, Function.update s.calls k (some { c with result := some r }) j = some d ∧
        d.thread = u ∧ d.ended = none ∧
      PcOk o d (Function.update s.pc t (.ret k) u)
    by_cases hu : u = t
    · subst hu
      rw [Function.update_self] at hj ⊢
      obtain rfl : k = j := Option.some.inj hj
      exact ⟨_, hself, hth, hend, Option.some_ne_none _⟩
    · rw [Function.update_of_ne hu] at hj ⊢
      rw [hkeep j (h.call_ne hk hj hu)]
      exact h.within u j hj
  · refine List.pairwise_append.mpr ⟨?_, List.pairwise_singleton _ _, ?_⟩
    · refine h.order.imp_of_mem fun {a b} ha hb hab ca cb hca hcb => ?_
      exact hab ca cb ((hkeep a (hmem a ha)).symm.trans hca) ((hkeep b (hmem b hb)).symm.trans hcb)
    · -- the call has not ended, so it precedes none
      intro a _ b hb ca cb _ hcb
      obtain rfl := List.mem_singleton.mp hb
      obtain rfl := Option.some.inj (hself.symm.trans hcb)
      rintro ⟨e, he, -⟩
      exact Option.some_ne_none e (he.symm.trans hend)
  · have hex : Explains o.apply (Function.update s.calls k (some { c with result := some r }))
        init lin s.cell :=
      h.explains.congr fun j hj d hd => ⟨d, (hkeep j (hmem j hj)).trans hd, rfl, rfl⟩
    have hsnoc := hex.snoc hself (by rw [ha])
    rw [show ({ c with result := some r } : Call ω ρ).op = c.op from rfl, ha] at hsnoc
    exact hsnoc

/-- A thread calls. -/
theorem Inv.call (h : Inv o init s lin) (hidle : s.pc t = .idle) (op : ω) :
    Inv o init { s.goto t (.load s.made op) with
      made := s.made + 1,
      calls := Function.update s.calls s.made (some ⟨t, op, s.clock, none, none⟩) } lin := by
  have hnone : s.calls s.made = none := by
    cases hc : s.calls s.made with
    | none => rfl
    | some c => exact absurd ((h.made _).mpr ⟨c, hc⟩) (lt_irrefl _)
  have hold : ∀ j d, s.calls j = some d → j ≠ s.made := by
    rintro j d hd rfl
    rw [hnone] at hd
    cases hd
  have hkeep : ∀ j d, s.calls j = some d →
      Function.update s.calls s.made (some ⟨t, op, s.clock, none, none⟩) j = some d := fun j d hd =>
    (Function.update_of_ne (hold j d hd) _ _).trans hd
  constructor
  · exact h.nodup
  · intro j
    rw [h.settled j]
    constructor
    · rintro ⟨d, hd, hres⟩
      exact ⟨d, hkeep j d hd, hres⟩
    · rintro ⟨d, hd, hres⟩
      rcases update_eq_some hd with ⟨-, hd⟩ | ⟨-, rfl⟩
      · exact ⟨d, hd, hres⟩
      · exact absurd rfl hres
  · intro j
    show j < s.made + 1 ↔ _
    rw [Nat.lt_succ_iff_lt_or_eq, h.made j]
    constructor
    · rintro (⟨d, hd⟩ | rfl)
      · exact ⟨d, hkeep j d hd⟩
      · exact ⟨_, Function.update_self ..⟩
    · rintro ⟨d, hd⟩
      rcases update_eq_some hd with ⟨-, hd⟩ | ⟨rfl, -⟩
      · exact .inl ⟨d, hd⟩
      · exact .inr rfl
  · exact fun j d hd => h.began_update le_rfl hd
  · intro j d hd he
    rcases update_eq_some hd with ⟨-, hd⟩ | ⟨-, rfl⟩
    · exact h.ended j d hd he
    · exact absurd rfl he
  · intro j d hd he
    rcases update_eq_some hd with ⟨-, hd⟩ | ⟨rfl, rfl⟩
    · exact h.inside_update hd he (by rw [hidle]; exact fun e => Option.some_ne_none j e.symm)
    · show (Function.update s.pc t (.load s.made op) t).call? = _
      rw [Function.update_self]
      rfl
  · intro u j hj
    change (Function.update s.pc t (.load s.made op) u).call? = some j at hj
    show ∃ d, Function.update s.calls s.made (some ⟨t, op, s.clock, none, none⟩) j = some d ∧
        d.thread = u ∧
      d.ended = none ∧ PcOk o d (Function.update s.pc t (.load s.made op) u)
    by_cases hu : u = t
    · subst hu
      rw [Function.update_self] at hj ⊢
      obtain rfl : s.made = j := Option.some.inj hj
      exact ⟨_, Function.update_self .., rfl, rfl, rfl, rfl⟩
    · rw [Function.update_of_ne hu] at hj ⊢
      obtain ⟨d, hd, hrest⟩ := h.within u j hj
      exact ⟨d, hkeep j d hd, hrest⟩
  · refine h.order.imp_of_mem fun {a b} ha hb hab ca cb hca hcb => ?_
    obtain ⟨da, hda, -⟩ := (h.settled a).mp ha
    obtain ⟨db, hdb, -⟩ := (h.settled b).mp hb
    obtain rfl := Option.some.inj ((hkeep a da hda).symm.trans hca)
    obtain rfl := Option.some.inj ((hkeep b db hdb).symm.trans hcb)
    exact hab _ _ hda hdb
  · exact h.explains.congr fun j _ d hd => ⟨d, hkeep j d hd, rfl, rfl⟩

/-- A thread returns. -/
theorem Inv.ret (h : Inv o init s lin) (hret : s.pc t = .ret k) :
    Inv o init { s.goto t .idle with calls := close s.calls k s.clock } lin := by
  have hk : (s.pc t).call? = some k := by rw [hret]; rfl
  obtain ⟨c, hc, hth, hend, hok⟩ := h.within t k hk
  have hres : c.result ≠ none := by
    rw [hret] at hok
    exact hok
  rw [close_eq s.clock hc]
  have hsame : ∀ j d, s.calls j = some d → ∃ d', Function.update s.calls k
      (some { c with ended := some s.clock }) j = some d' ∧
      d'.op = d.op ∧ d'.result = d.result := by
    intro j d hd
    by_cases hj : j = k
    · subst hj
      rw [hc] at hd
      obtain rfl := Option.some.inj hd
      exact ⟨_, Function.update_self .., rfl, rfl⟩
    · exact ⟨d, (Function.update_of_ne hj _ _).trans hd, rfl, rfl⟩
  constructor
  · exact h.nodup
  · intro j
    rw [h.settled j]
    constructor
    · rintro ⟨d, hd, hr⟩
      obtain ⟨d', hd', -, hr'⟩ := hsame j d hd
      exact ⟨d', hd', hr' ▸ hr⟩
    · rintro ⟨d, hd, hr⟩
      rcases update_eq_some hd with ⟨-, hd⟩ | ⟨rfl, rfl⟩
      · exact ⟨d, hd, hr⟩
      · exact ⟨c, hc, hr⟩
  · exact h.made_update hc
  · intro j d hd
    refine h.began_update ?_ hd
    exact (h.began k c hc).le
  · intro j d hd he
    rcases update_eq_some hd with ⟨-, hd⟩ | ⟨rfl, rfl⟩
    · exact h.ended j d hd he
    · exact hres
  · intro j d hd he
    rcases update_eq_some hd with ⟨hj, hd⟩ | ⟨-, rfl⟩
    · exact h.inside_update hd he (by rw [hk]; exact fun e => hj (Option.some.inj e).symm)
    · cases he
  · intro u j hj
    change (Function.update s.pc t .idle u).call? = some j at hj
    show ∃ d, Function.update s.calls k (some { c with ended := some s.clock }) j = some d ∧
        d.thread = u ∧ d.ended = none ∧
      PcOk o d (Function.update s.pc t .idle u)
    by_cases hu : u = t
    · subst hu
      rw [Function.update_self] at hj
      cases hj
    · rw [Function.update_of_ne hu] at hj ⊢
      rw [Function.update_of_ne (h.call_ne hk hj hu)]
      exact h.within u j hj
  · -- all the calls began before now
    refine h.order.imp fun {a b} hab ca cb hca hcb => ?_
    rintro ⟨e, he, hlt⟩
    have hbegan : ca.began < s.clock ∧ ∃ da, s.calls a = some da ∧ da.began = ca.began := by
      rcases update_eq_some hca with ⟨-, hda⟩ | ⟨rfl, rfl⟩
      · exact ⟨h.began a ca hda, ca, hda, rfl⟩
      · exact ⟨h.began a c hc, c, hc, rfl⟩
    obtain ⟨hnow, da, hda, hsta⟩ := hbegan
    rcases update_eq_some hcb with ⟨-, hdb⟩ | ⟨rfl, rfl⟩
    · exact hab da cb hda hdb ⟨e, he, hsta ▸ hlt⟩
    · obtain rfl := Option.some.inj he
      omega
  · exact h.explains.congr fun j _ d hd => hsame j d hd

/-- **A step keeps it**, with the call that takes effect in it, if one does, last. -/
theorem Inv.step [DecidableEq σ] (h : Inv o init s lin) {a : Act ω} {s' : State σ ω ρ}
    (hs : o.step s a = some s') :
    ∃ lin', Inv o init s' lin' := by
  cases a with
  | call t op =>
    cases hpc : s.pc t <;> simp only [CasLoop.step, hpc, Option.some.injEq, reduceCtorEq] at hs
    subst hs
    exact ⟨lin, h.call hpc op⟩
  | ret t =>
    cases hpc : s.pc t <;> simp only [CasLoop.step, hpc, Option.some.injEq, reduceCtorEq] at hs
    subst hs
    exact ⟨lin, h.ret hpc⟩
  | access t =>
    cases hpc : s.pc t with
    | idle => simp only [CasLoop.step, hpc, reduceCtorEq] at hs
    | ret k => simp only [CasLoop.step, hpc, reduceCtorEq] at hs
    | load k op =>
      have hk : (s.pc t).call? = some k := by rw [hpc]; rfl
      obtain ⟨c, hc, -, -, hok⟩ := h.within t k hk
      rw [hpc] at hok
      obtain ⟨rfl, hres⟩ := hok
      cases hn : o.next c.op s.cell with
      | none =>
        simp only [CasLoop.step, hpc, hn, Option.some.injEq] at hs
        subst hs
        exact ⟨lin ++ [k], h.settle hk hc hres (by simp only [apply, hn]; rfl)⟩
      | some new =>
        simp only [CasLoop.step, hpc, hn, Option.some.injEq] at hs
        subst hs
        refine ⟨lin, h.goto hk rfl fun d hd hp => ?_⟩
        obtain rfl := Option.some.inj (hc.symm.trans hd)
        exact ⟨rfl, hres, hn⟩
    | swap k op old new =>
      have hk : (s.pc t).call? = some k := by rw [hpc]; rfl
      obtain ⟨c, hc, -, -, hok⟩ := h.within t k hk
      rw [hpc] at hok
      obtain ⟨rfl, hres, hn⟩ := hok
      by_cases hcell : s.cell = old
      · -- what was read may have been there twice: only the value counts
        simp only [CasLoop.step, hpc, if_pos hcell, Option.some.injEq] at hs
        subst hs hcell
        exact ⟨lin ++ [k], h.settle hk hc hres (by simp only [apply, hn])⟩
      · simp only [CasLoop.step, hpc, if_neg hcell, Option.some.injEq] at hs
        subst hs
        refine ⟨lin, h.goto hk rfl fun d hd hp => ?_⟩
        obtain rfl := Option.some.inj (hc.symm.trans hd)
        exact ⟨rfl, hres⟩

theorem Inv.initial : Inv o init (start init) [] where
  nodup := List.nodup_nil
  settled k := ⟨fun h => absurd h List.not_mem_nil, fun ⟨_, h, _⟩ => by cases h⟩
  made k := ⟨fun h => absurd h (Nat.not_lt_zero k), fun ⟨_, h⟩ => by cases h⟩
  began _ _ h := by cases h
  ended _ _ h := by cases h
  inside _ _ h := by cases h
  within _ _ h := by cases h
  order := List.Pairwise.nil
  explains := rfl

theorem Inv.linearizes (h : Inv o init s lin) : Linearizes o.apply init s lin where
  nodup := h.nodup
  made k hk := by
    obtain ⟨c, hc, -⟩ := (h.settled k).mp hk
    exact (h.made k).mpr ⟨c, hc⟩
  ended k c hc he := (h.settled k).mpr ⟨c, hc, h.ended k c hc he⟩
  order := h.order
  explains := h.explains

theorem exists_inv [DecidableEq σ] (h : (o.system init).Reachable s) : ∃ lin, Inv o init s lin := by
  refine h.invariant (I := fun s => ∃ lin, Inv o init s lin) ?_ ?_
  · rintro s rfl
    exact ⟨[], Inv.initial⟩
  · rintro s a s' - ⟨lin, h⟩ - hs
    exact h.step hs

/-- **Every history is linearizable.** -/
theorem casLoop_linearizable [DecidableEq σ] (h : (o.system init).Reachable s) :
    ∃ lin, Linearizes o.apply init s lin := by
  obtain ⟨lin, h⟩ := exists_inv h
  exact ⟨lin, h.linearizes⟩

theorem lt_made [DecidableEq σ] (h : (o.system init).Reachable s) {c : Call ω ρ}
    (hc : s.calls k = some c) :
    k < s.made := by
  obtain ⟨lin, h⟩ := exists_inv h
  exact (h.made k).mpr ⟨c, hc⟩

/-- When no call is under way every call has ended, -/
theorem ended_of_idle [DecidableEq σ] (h : (o.system init).Reachable s)
    (hidle : ∀ t, s.pc t = .idle) (hk : k < s.made) :
    ∃ c, s.calls k = some c ∧ c.ended ≠ none := by
  obtain ⟨lin, h⟩ := exists_inv h
  obtain ⟨c, hc⟩ := (h.made k).mp hk
  refine ⟨c, hc, fun he => ?_⟩
  have hin := h.inside k c hc he
  rw [hidle] at hin
  cases hin

/-- and the sequence is of all of them. -/
theorem Linearizes.perm {apply : ω → σ → σ × ρ} (h : Linearizes apply init s lin)
    (hall : ∀ k < s.made, ∃ c, s.calls k = some c ∧ c.ended ≠ none) :
    lin.Perm (List.range s.made) := by
  refine (List.perm_ext_iff_of_nodup h.nodup List.nodup_range).mpr fun k => ?_
  rw [List.mem_range]
  refine ⟨h.made k, fun hk => ?_⟩
  obtain ⟨c, hc, he⟩ := hall k hk
  exact h.ended k c hc he

end CasLoop

end NetworkDemo.Foundations
