import NetworkDemo.Rpc.Concurrent

/-!
# Runs of the concurrent client

The calls under way are told apart by their sequence ids (`Calls`), and the stream is what the
server has answered less what has been read of it, a header at most being ahead of the rest of
its message (`Wire`). So a header is always followed by the rest of its own message, whichever
thread has read it, and the thread with its sequence id is the one that asked.

* `concurrent_calls` — in every run the calls end in the order in which the server has
  answered them, each with its own answer, and the client stays usable.
* `concurrent_delivers` — the answers that have come in can always be taken to their calls, by
  steps of the threads under way only. For this the threads that wait are to come back from it
  (`Wakeful`): whenever the read mutex is free there is a header to be taken, or somebody has
  been woken up, or nobody waits.
-/

namespace NetworkDemo.Rpc.Concurrent

open Foundations Foundations.Reader

variable {β γ : Type} {P : TProtocol β} {S : SyncInfo γ} {V : γ → SyncView}

/-! ### What a thread has -/

namespace Pc

/-- Its call. -/
def issue? : Pc → Option Issue
  | .idle => none
  | .generated i | .sent i | .top i | .header i _ | .waiting i => some i

/-- Its call, if the request is written. -/
def flying? : Pc → Option Issue
  | .idle | .generated _ => none
  | .sent i | .top i | .header i _ | .waiting i => some i

/-- The read mutex. -/
def locks : Pc → Bool
  | .top _ | .header _ _ => true
  | _ => false

/-- A header. -/
def head? : Pc → Option Head
  | .header _ hd => some hd
  | _ => none

theorem issue?_of_flying? {pc : Pc} {i : Issue} (h : pc.flying? = some i) : pc.issue? = some i := by
  cases pc <;> first | exact h | cases h

theorem locks_of_head? {pc : Pc} {hd : Head} (h : pc.head? = some hd) : pc.locks = true := by
  cases pc <;> first | rfl | cases h

end Pc

/-! ### No call ends twice -/

/-- The calls are told apart by their numbers. -/
structure Serials (st : State β γ) : Prop where
  lt : ∀ t i, (st.pc t).issue? = some i → i.serial < st.issued
  unique : ∀ t u i j, (st.pc t).issue? = some i → (st.pc u).issue? = some j →
    i.serial = j.serial → t = u
  ended_lt : ∀ e ∈ st.ended, e.1.serial < st.issued
  fresh : ∀ e ∈ st.ended, ∀ t i, (st.pc t).issue? = some i → e.1.serial ≠ i.serial
  nodup : (st.ended.map fun e => e.1.serial).Nodup

variable {st st' : State β γ} {t : ℕ} {i : Issue}

/-- A thread goes on with its call. -/
theorem Serials.goto (h : Serials st) {pc : Pc} (hpc : pc.issue? = (st.pc t).issue?)
    (hst : st'.pc = Function.update st.pc t pc) (hi : st'.issued = st.issued)
    (he : st'.ended = st.ended) : Serials st' := by
  have hall : ∀ u, (st'.pc u).issue? = (st.pc u).issue? := by
    intro u
    rw [hst]
    by_cases hu : u = t
    · rw [hu, Function.update_self, hpc]
    · rw [Function.update_of_ne hu]
  constructor <;> simp only [hall, hi, he]
  · exact h.lt
  · exact h.unique
  · exact h.ended_lt
  · exact h.fresh
  · exact h.nodup

/-- A call ends. -/
theorem Serials.finish (h : Serials st) (hi : (st.pc t).issue? = some i)
    (res : Except TException Value) (commit : Bool) (input : List β) :
    Serials (st.finish S t i res commit input) := by
  have hpc : ∀ u, ((st.finish S t i res commit input).pc u).issue? = if u = t then none
      else (st.pc u).issue? := by
    intro u
    by_cases hu : u = t
    · rw [if_pos hu, hu]
      simp [State.finish, State.goto, Pc.issue?]
    · rw [if_neg hu]
      simp [State.finish, State.goto, hu]
  have hback : ∀ u j, ((st.finish S t i res commit input).pc u).issue? = some j →
      u ≠ t ∧ (st.pc u).issue? = some j := by
    intro u j hj
    rw [hpc] at hj
    split_ifs at hj with hu
    exact ⟨hu, hj⟩
  have hended : (st.finish S t i res commit input).ended = st.ended ++ [(i, res)] := rfl
  refine ⟨fun u j hj => h.lt u j (hback u j hj).2, fun u v j k hj hk => ?_, fun e he => ?_,
    fun e he u j hj => ?_, ?_⟩
  · exact h.unique u v j k (hback u j hj).2 (hback v k hk).2
  · rcases List.mem_append.mp he with he | he
    · exact h.ended_lt e he
    · rw [List.mem_singleton.mp he]
      exact h.lt t i hi
  · obtain ⟨hu, hj⟩ := hback u j hj
    rcases List.mem_append.mp he with he | he
    · exact h.fresh e he u j hj
    · rw [List.mem_singleton.mp he]
      exact fun heq => hu (h.unique t u i j hi hj heq).symm
  · rw [hended, List.map_append, List.nodup_append]
    refine ⟨h.nodup, List.nodup_singleton _, fun a ha b hb hab => ?_⟩
    obtain ⟨e, he, rfl⟩ := List.mem_map.mp ha
    rw [List.map_singleton, List.mem_singleton] at hb
    exact h.fresh e he t i hi (hab.trans hb)

theorem Serials.sync (h : Serials st) (g : γ) : Serials { st with sync := g } :=
  ⟨h.lt, h.unique, h.ended_lt, h.fresh, h.nodup⟩

theorem Serials.step (h : Serials st) {a : Act} (hs : Moves P S st a st') : Serials st' := by
  cases hs with
  | @begin t c id g hidle =>
    have hpc : ∀ u j, ((Function.update st.pc t (.generated ⟨st.issued, id, c⟩)) u).issue? =
        some j →
        u = t ∧ j = ⟨st.issued, id, c⟩ ∨ u ≠ t ∧ (st.pc u).issue? = some j := by
      intro u j hj
      by_cases hu : u = t
      · rw [hu, Function.update_self] at hj
        exact .inl ⟨hu, (Option.some.inj hj).symm⟩
      · rw [Function.update_of_ne hu] at hj
        exact .inr ⟨hu, hj⟩
    refine ⟨fun u j hj => ?_, fun u v j k hj hk hjk => ?_,
      fun e he => Nat.lt_succ_of_lt (h.ended_lt e he), fun e he u j hj => ?_,
      h.nodup⟩
    · rcases hpc u j hj with ⟨-, rfl⟩ | ⟨-, hj⟩
      · exact Nat.lt_succ_self _
      · exact Nat.lt_succ_of_lt (h.lt u j hj)
    · rcases hpc u j hj with ⟨hu, rfl⟩ | ⟨-, hj'⟩ <;> rcases hpc v k hk with ⟨hv, rfl⟩ | ⟨-, hk'⟩
      · exact hu.trans hv.symm
      · exact absurd hjk (h.lt v k hk').ne'
      · exact absurd hjk (h.lt u j hj').ne
      · exact h.unique u v j k hj' hk' hjk
    · rcases hpc u j hj with ⟨-, rfl⟩ | ⟨-, hj⟩
      · exact (h.ended_lt e he).ne
      · exact h.fresh e he u j hj
  | send ht => exact h.goto (by rw [ht]; rfl) rfl rfl rfl
  | lock ht => exact h.goto (by rw [ht]; rfl) rfl rfl rfl
  | refuse => exact ⟨h.lt, h.unique, h.ended_lt, h.fresh, h.nodup⟩
  | dead ht => exact (h.sync _).finish (by dsimp only; rw [ht]; rfl) _ _ _
  | take ht => exact h.goto (by rw [ht]; rfl) rfl rfl rfl
  | read ht => exact h.goto (by rw [ht]; rfl) rfl rfl rfl
  | broken ht => exact (h.sync _).finish (by dsimp only; rw [ht]; rfl) _ _ _
  | own ht => exact h.finish (by rw [ht]; rfl) _ _ _
  | failed ht => exact h.finish (by rw [ht]; rfl) _ _ _
  | pass ht => exact h.goto (by rw [ht]; rfl) rfl rfl rfl
  | bad ht => exact (h.sync _).finish (by dsimp only; rw [ht]; rfl) _ _ _
  | wake ht => exact h.goto (by rw [ht]; rfl) rfl rfl rfl
  | answer => exact ⟨h.lt, h.unique, h.ended_lt, h.fresh, h.nodup⟩

/-! ### The invariant -/

namespace State

variable (st : State β γ)

/-- The answers that no call has read to the end. -/
def due : List (Issue × Answer) := st.given.drop st.ended.length

/-- The calls whose requests are written. -/
def out : List Issue := st.asked ++ st.due.map Prod.fst

/-- A header that has been read, and what comes after it has not. -/
def inHand (V : γ → SyncView) (st : State β γ) : Option Head :=
  match (V st.sync).pending with
  | some hd => some hd
  | none => st.reader.bind fun t => (st.pc t).head?

end State

/-- An answer, as it is sent. -/
def message (P : TProtocol β) (g : Issue × Answer) : List β := g.2.write P g.1.call.name g.1.id

/-- Its header. -/
def headOf (g : Issue × Answer) : Head := ⟨g.1.call.name, mtype g.2, g.1.id⟩

/-- The answers that are due are on the stream, without a header that has been read. -/
def Stream (P : TProtocol β) (due : List (Issue × Answer)) (input : List β) : Option Head → Prop
  | none => input = due.flatMap (message P)
  | some hd =>
    ∃ g rest, due = g :: rest ∧ hd = headOf g ∧ input = body P g.2 ++ rest.flatMap (message P)

/-- Who is under way: the calls asked for or answered are those of the threads, and no two have the
same id. -/
structure Calls (V : γ → SyncView) (st : State β γ) : Prop where
  ids : ∀ t u i j, (st.pc t).issue? = some i → (st.pc u).issue? = some j → i.id = j.id → t = u
  registered : ∀ id, (V st.sync).registered id = true ↔
    ∃ t i, (st.pc t).issue? = some i ∧ i.id = id
  out_iff : ∀ i, i ∈ st.out ↔ ∃ t, (st.pc t).flying? = some i
  nodup : st.out.Nodup

/-- What is on the wire, and who reads it. -/
structure Wire (P : TProtocol β) (V : γ → SyncView) (st : State β γ) : Prop where
  usable : (V st.sync).stop = false
  ended : st.ended = (st.given.take st.ended.length).map fun g => (g.1, outcome g.2)
  ended_le : st.ended.length ≤ st.given.length
  stream : Stream P st.due st.input (st.inHand V)
  lock : ∀ t, (st.pc t).locks = true ↔ st.reader = some t
  excl : (V st.sync).pending ≠ none → ∀ t, (st.pc t).head? = none
  fits : ∀ g ∈ st.due, Fits P g.1.call g.2

theorem Calls.congr (h : Calls V st) (hissue : ∀ u, (st'.pc u).issue? = (st.pc u).issue?)
    (hflying : ∀ u, (st'.pc u).flying? = (st.pc u).flying?)
    (hr : (V st'.sync).registered = (V st.sync).registered)
    (ho : st'.out.Perm st.out) : Calls V st' where
  ids := by simpa only [hissue] using h.ids
  registered := by simpa only [hissue, hr] using h.registered
  out_iff i := by simp only [hflying, ho.mem_iff, h.out_iff]
  nodup := ho.nodup_iff.mpr h.nodup

/-- A thread goes on with its call. -/
theorem Calls.goto (h : Calls V st) {pc : Pc} (hissue : pc.issue? = (st.pc t).issue?)
    (hflying : pc.flying? = (st.pc t).flying?) (hst : st'.pc = Function.update st.pc t pc)
    (hr : (V st'.sync).registered = (V st.sync).registered) (ho : st'.out = st.out) :
    Calls V st' := by
  refine h.congr (fun u => ?_) (fun u => ?_) hr (.of_eq ho)
  · rw [hst]
    by_cases hu : u = t
    · rw [hu, Function.update_self, hissue]
    · rw [Function.update_of_ne hu]
  · rw [hst]
    by_cases hu : u = t
    · rw [hu, Function.update_self, hflying]
    · rw [Function.update_of_ne hu]

theorem Calls.begin (h : Calls V st) (hidle : st.pc t = .idle) {i : Issue}
    (hid : (V st.sync).registered i.id = false)
    (hst : st'.pc = Function.update st.pc t (.generated i))
    (hr : (V st'.sync).registered = Function.update (V st.sync).registered i.id true)
    (ho : st'.out = st.out) : Calls V st' := by
  have hpc : ∀ u j, (st'.pc u).issue? = some j ↔ u = t ∧ j = i ∨
      u ≠ t ∧ (st.pc u).issue? = some j := by
    intro u j
    rw [hst]
    by_cases hu : u = t
    · subst hu
      simp [Pc.issue?, eq_comm]
    · simp [hu]
  have hnew : ∀ u j, (st.pc u).issue? = some j → j.id ≠ i.id := by
    intro u j hj he
    have := (h.registered i.id).mpr ⟨u, j, hj, he⟩
    rw [hid] at this
    cases this
  have hflying : ∀ u, (st'.pc u).flying? = (st.pc u).flying? := by
    intro u
    rw [hst]
    by_cases hu : u = t
    · rw [hu, Function.update_self, hidle]
      rfl
    · rw [Function.update_of_ne hu]
  refine ⟨fun u v j k hj hk hjk => ?_, fun id => ?_, fun j => ?_, by rw [ho]; exact h.nodup⟩
  · rcases (hpc u j).mp hj with ⟨hu, rfl⟩ | ⟨-, hj'⟩ <;>
      rcases (hpc v k).mp hk with ⟨hv, rfl⟩ | ⟨-, hk'⟩
    · exact hu.trans hv.symm
    · exact absurd hjk.symm (hnew v k hk')
    · exact absurd hjk (hnew u j hj')
    · exact h.ids u v j k hj' hk' hjk
  · rw [hr]
    by_cases he : id = i.id
    · rw [he, Function.update_self]
      exact iff_of_true rfl ⟨t, i, (hpc t i).mpr (.inl ⟨rfl, rfl⟩), rfl⟩
    · rw [Function.update_of_ne he, h.registered]
      constructor
      · rintro ⟨u, j, hj, hjid⟩
        refine ⟨u, j, (hpc u j).mpr (.inr ⟨?_, hj⟩), hjid⟩
        rintro rfl
        rw [hidle] at hj
        cases hj
      · rintro ⟨u, j, hj, hjid⟩
        rcases (hpc u j).mp hj with ⟨-, rfl⟩ | ⟨-, hj'⟩
        · exact absurd hjid.symm he
        · exact ⟨u, j, hj', hjid⟩
  · simp only [ho, hflying, h.out_iff]

/-- A request is written. -/
theorem Calls.send (h : Calls V st) (ht : st.pc t = .generated i)
    (hst : st'.pc = Function.update st.pc t (.sent i))
    (hr : (V st'.sync).registered = (V st.sync).registered)
    (ho : st'.out.Perm (i :: st.out)) : Calls V st' := by
  have hissue : ∀ u, (st'.pc u).issue? = (st.pc u).issue? := by
    intro u
    rw [hst]
    by_cases hu : u = t
    · rw [hu, Function.update_self, ht]
      rfl
    · rw [Function.update_of_ne hu]
  have hflying : ∀ u j, (st'.pc u).flying? = some j ↔
      u = t ∧ j = i ∨ u ≠ t ∧ (st.pc u).flying? = some j := by
    intro u j
    rw [hst]
    by_cases hu : u = t
    · subst hu
      simp [Pc.flying?, eq_comm]
    · simp [hu]
  have hnot : ∀ u, (st.pc u).flying? = some i → False := by
    intro u hu
    have hut : u = t := h.ids u t i i (Pc.issue?_of_flying? hu) (by rw [ht]; rfl) rfl
    rw [hut, ht] at hu
    cases hu
  refine ⟨by simpa only [hissue] using h.ids, by simpa only [hissue, hr] using h.registered,
    fun j => ?_, ?_⟩
  · rw [ho.mem_iff, List.mem_cons, h.out_iff]
    simp only [hflying]
    constructor
    · rintro (rfl | ⟨u, hu⟩)
      · exact ⟨t, .inl ⟨rfl, rfl⟩⟩
      · refine ⟨u, .inr ⟨?_, hu⟩⟩
        rintro rfl
        rw [ht] at hu
        cases hu
    · rintro ⟨u, ⟨-, rfl⟩ | ⟨-, hu⟩⟩
      · exact .inl rfl
      · exact .inr ⟨u, hu⟩
  · refine ho.nodup_iff.mpr (List.nodup_cons.mpr ⟨fun hi => ?_, h.nodup⟩)
    obtain ⟨u, hu⟩ := (h.out_iff i).mp hi
    exact hnot u hu

/-- A call that the server has answered ends. -/
theorem Calls.finish (h : Calls V st) (hS : S.Lawful V) {g : Issue × Answer}
    {rest : List (Issue × Answer)} (hdue : st.due = g :: rest)
    (hfl : (st.pc t).flying? = some g.1) (res : Except TException Value) (input : List β) :
    Calls V (st.finish S t g.1 res true input) := by
  have hi : (st.pc t).issue? = some g.1 := Pc.issue?_of_flying? hfl
  have hpc : ∀ u, u ≠ t → (st.finish S t g.1 res true input).pc u = st.pc u :=
    fun u hu => Function.update_of_ne hu ..
  have hself : (st.finish S t g.1 res true input).pc t = .idle := Function.update_self ..
  have hne : ∀ u j, ((st.finish S t g.1 res true input).pc u).issue? = some j →
      u ≠ t ∧ (st.pc u).issue? = some j := by
    intro u j hj
    by_cases hu : u = t
    · rw [hu, hself] at hj
      cases hj
    · rw [hpc u hu] at hj
      exact ⟨hu, hj⟩
  have hdue' : (st.finish S t g.1 res true input).due = rest := by
    have hlen : (st.finish S t g.1 res true input).ended.length = st.ended.length + 1 := by
      simp [State.finish]
    rw [State.due, hlen, ← List.drop_drop]
    show (st.due).drop 1 = rest
    rw [hdue]
    rfl
  have hout : st.out = st.asked ++ g.1 :: rest.map Prod.fst := by
    rw [State.out, hdue, List.map_cons]
  have hout' : (st.finish S t g.1 res true input).out = st.asked ++ rest.map Prod.fst := by
    rw [State.out, hdue']
    rfl
  have hnd := h.nodup
  rw [hout] at hnd
  have hnot := (List.nodup_middle.mp hnd)
  obtain ⟨hg, hnd'⟩ := List.nodup_cons.mp hnot
  refine ⟨fun u v j k hj hk => ?_, fun id => ?_, fun j => ?_, ?_⟩
  · exact h.ids u v j k (hne u j hj).2 (hne v k hk).2
  · show (V (S.leave g.1.id true st.sync)).registered id = true ↔ _
    rw [hS.left]
    by_cases he : id = g.1.id
    · simp only [he, Function.update_self]
      refine iff_of_false Bool.false_ne_true ?_
      rintro ⟨u, j, hj, hjid⟩
      obtain ⟨hu, hj⟩ := hne u j hj
      exact hu (h.ids u t j g.1 hj hi hjid)
    · simp only [ne_eq, he, not_false_eq_true, Function.update_of_ne, h.registered]
      constructor
      · rintro ⟨u, j, hj, hjid⟩
        have hut : u ≠ t := by
          rintro rfl
          rw [hi] at hj
          exact he (by rw [← hjid, Option.some.inj hj])
        exact ⟨u, j, by rw [hpc u hut]; exact hj, hjid⟩
      · rintro ⟨u, j, hj, hjid⟩
        exact ⟨u, j, (hne u j hj).2, hjid⟩
  · rw [hout']
    constructor
    · intro hj
      have hjout : j ∈ st.out := by
        rw [hout]
        exact List.perm_middle.mem_iff.mpr (List.mem_cons_of_mem _ hj)
      obtain ⟨u, hu⟩ := (h.out_iff j).mp hjout
      have hut : u ≠ t := by
        rintro rfl
        rw [hfl] at hu
        exact hg (Option.some.inj hu ▸ hj)
      exact ⟨u, by rw [hpc u hut]; exact hu⟩
    · rintro ⟨u, hu⟩
      obtain ⟨hut, -⟩ := hne u j (Pc.issue?_of_flying? hu)
      rw [hpc u hut] at hu
      have hjout := (h.out_iff j).mpr ⟨u, hu⟩
      rw [hout] at hjout
      rcases List.mem_cons.mp (List.perm_middle.mem_iff.mp hjout) with rfl | hj
      · exact absurd (h.ids u t g.1 g.1 (Pc.issue?_of_flying? hu) hi rfl) hut
      · exact hj
  · rw [hout']
    exact hnd'

/-- All of it. -/
structure Inv (P : TProtocol β) (V : γ → SyncView) (st : State β γ) : Prop where
  calls : Calls V st
  wire : Wire P V st

/-- A header that a thread has is that of the first answer that is due. -/
theorem Wire.head (h : Wire P V st) {hd : Head} (ht : st.pc t = .header i hd) :
    (V st.sync).pending = none ∧ ∃ g rest, st.due = g :: rest ∧ hd = headOf g ∧
    st.input = body P g.2 ++ rest.flatMap (message P) := by
  have hr : st.reader = some t := (h.lock t).mp (by rw [ht]; rfl)
  have hp : (V st.sync).pending = none := by
    by_contra hp
    have := h.excl hp t
    rw [ht] at this
    cases this
  have hs := h.stream
  have hin : st.inHand V = some hd := by simp [State.inHand, hp, hr, ht, Pc.head?]
  rw [hin] at hs
  exact ⟨hp, hs⟩

theorem Wire.goto (h : Wire P V st) {pc : Pc} (hlocks : pc.locks = (st.pc t).locks)
    (hhead : pc.head? = (st.pc t).head?) (hst : st'.pc = Function.update st.pc t pc)
    (hstop : (V st'.sync).stop = (V st.sync).stop) (he : st'.ended = st.ended)
    (hg : st'.given = st.given) (hi : st'.input = st.input)
    (hp : (V st'.sync).pending = (V st.sync).pending) (hr : st'.reader = st.reader) :
    Wire P V st' := by
  have hl : ∀ u, (st'.pc u).locks = (st.pc u).locks := by
    intro u
    rw [hst]
    by_cases hu : u = t
    · rw [hu, Function.update_self, hlocks]
    · rw [Function.update_of_ne hu]
  have hh : ∀ u, (st'.pc u).head? = (st.pc u).head? := by
    intro u
    rw [hst]
    by_cases hu : u = t
    · rw [hu, Function.update_self, hhead]
    · rw [Function.update_of_ne hu]
  have hdue : st'.due = st.due := by rw [State.due, hg, he]; rfl
  have hin : st'.inHand V = st.inHand V := by simp only [State.inHand, hp, hr, hh]
  exact ⟨hstop ▸ h.usable, by rw [he, hg]; exact h.ended, by rw [he, hg]; exact h.ended_le,
    by rw [hdue, hi, hin]; exact h.stream,
    fun u => by rw [hl, hr]; exact h.lock u, fun hpend u => by rw [hh]; exact h.excl (hp ▸ hpend) u,
    by rw [hdue]; exact h.fits⟩

/-- A thread gets the read mutex. -/
theorem Wire.acquire (h : Wire P V st) (hr : st.reader = none) (t : ℕ) (i : Issue) {g : γ}
    (hg : V g = V st.sync) :
    Wire P V { st.goto t (.top i) with sync := g, reader := some t } := by
  have hin : State.inHand V { st.goto t (.top i) with sync := g, reader := some t } =
      st.inHand V := by
    rcases hp : (V st.sync).pending with _ | hd <;>
      simp [State.inHand, State.goto, hg, hp, hr, Pc.head?]
  refine ⟨?_, h.ended, h.ended_le, ?_, fun u => ?_, fun hp u => ?_, h.fits⟩
  · show (V g).stop = false
    rw [hg]
    exact h.usable
  · rw [hin]
    exact h.stream
  · have hu := h.lock u
    rw [hr] at hu
    by_cases hut : u = t
    · subst hut
      simp [State.goto, Pc.locks]
    · simp only [State.goto, ne_eq, hut, not_false_eq_true, Function.update_of_ne, hu,
        Option.some.injEq, reduceCtorEq, false_iff]
      exact fun htu => hut htu.symm
  · have hp : (V g).pending ≠ none := hp
    rw [hg] at hp
    by_cases hut : u = t
    · rw [hut]
      simp [State.goto, Pc.head?]
    · simp only [State.goto, ne_eq, hut, not_false_eq_true, Function.update_of_ne]
      exact h.excl hp u

/-- The positions of a thread with the read mutex, and those of the others. -/
theorem Wire.lock_update (h : Wire P V st) {pc pc' : Pc} (ht : st.pc t = pc) (hl : pc.locks = true)
    (hl' : pc'.locks = true) (u : ℕ) :
    (Function.update st.pc t pc' u).locks = true ↔ st.reader = some u := by
  have hr : st.reader = some t := (h.lock t).mp (by rw [ht]; exact hl)
  by_cases hut : u = t
  · rw [hut, Function.update_self]
    simp [hl', hr]
  · rw [Function.update_of_ne hut]
    exact h.lock u

/-- A thread lets the read mutex go. -/
theorem Wire.unlock_update (h : Wire P V st) {pc pc' : Pc} (ht : st.pc t = pc)
    (hl : pc.locks = true) (hl' : pc'.locks = false) (u : ℕ) : (Function.update st.pc t pc' u).locks = false := by
  have hr : st.reader = some t := (h.lock t).mp (by rw [ht]; exact hl)
  by_cases hut : u = t
  · rw [hut, Function.update_self, hl']
  · rw [Function.update_of_ne hut, Bool.eq_false_iff]
    intro hu
    exact hut (Option.some.inj (((h.lock u).mp hu).symm.trans hr))

/-- A header that was handed over is taken. -/
theorem Wire.take (h : Wire P V st) {hd : Head} {g : γ} (ht : st.pc t = .top i)
    (hp : (V st.sync).pending = some hd) (hg : V g = { V st.sync with pending := none }) :
    Wire P V { st.goto t (.header i hd) with sync := g } := by
  have hr : st.reader = some t := (h.lock t).mp (by rw [ht]; rfl)
  have hs := h.stream
  have hin : st.inHand V = some hd := by simp [State.inHand, hp]
  have hin' : State.inHand V { st.goto t (.header i hd) with sync := g } = some hd := by
    simp [State.inHand, State.goto, hg, hr, Pc.head?]
  rw [hin] at hs
  refine ⟨?_, h.ended, h.ended_le, ?_, h.lock_update ht rfl rfl, fun hne => ?_, h.fits⟩
  · show (V g).stop = false
    rw [hg]
    exact h.usable
  · rw [hin']
    exact hs
  · have hne : (V g).pending ≠ none := hne
    rw [hg] at hne
    exact absurd rfl hne

/-- The next header is read. -/
theorem Wire.read (hP : P.Lawful) (hn : ∀ c : Call, P.carries c.name) (h : Wire P V st)
    (ht : st.pc t = .top i) (hp : (V st.sync).pending = none) (hin : st.input ≠ []) :
    ∃ g rest n, st.due = g :: rest ∧ P.readMessageBegin st.input =
      (.ok (g.1.call.name, mtype g.2, g.1.id), n, body P g.2 ++ rest.flatMap (message P)) := by
  have hr : st.reader = some t := (h.lock t).mp (by rw [ht]; rfl)
  have hs := h.stream
  have hhand : st.inHand V = none := by simp [State.inHand, hp, hr, ht, Pc.head?]
  rw [hhand] at hs
  have hs : st.input = st.due.flatMap (message P) := hs
  rcases hdue : st.due with _ | ⟨g, rest⟩
  · rw [hdue] at hs
    exact absurd hs hin
  · rw [hdue, List.flatMap_cons, message, write_eq, List.append_assoc] at hs
    refine ⟨g, rest, xfer (P.writeMessageBegin g.1.call.name (mtype g.2) g.1.id), rfl, ?_⟩
    rw [hs]
    exact hP.message g.1.call.name (mtype g.2) g.1.id (hn _) _

theorem Wire.header (h : Wire P V st) {g : Issue × Answer} {rest : List (Issue × Answer)} {k : γ}
    (ht : st.pc t = .top i) (hk : V k = { V st.sync with pending := none })
    (hdue : st.due = g :: rest) :
    Wire P V { st.goto t (.header i (headOf g)) with
      sync := k
      input := body P g.2 ++ rest.flatMap (message P) } := by
  have hr : st.reader = some t := (h.lock t).mp (by rw [ht]; rfl)
  have hin : State.inHand V { st.goto t (.header i (headOf g)) with
      sync := k
      input := body P g.2 ++ rest.flatMap (message P) } =
      some (headOf g) := by
    simp [State.inHand, State.goto, hk, hr, Pc.head?]
  refine ⟨?_, h.ended, h.ended_le, ?_, h.lock_update ht rfl rfl, fun hne => ?_, h.fits⟩
  · show (V k).stop = false
    rw [hk]
    exact h.usable
  · rw [hin]
    exact ⟨g, rest, hdue, rfl, rfl⟩
  · have hne : (V k).pending ≠ none := hne
    rw [hk] at hne
    exact absurd rfl hne

/-- A header is handed over. -/
theorem Wire.pass (h : Wire P V st) {hd : Head} {g : γ} (ht : st.pc t = .header i hd)
    (hg : V g = { V st.sync with pending := some hd }) :
    Wire P V { st.goto t (.waiting i) with
      sync := g
      reader := none } := by
  obtain ⟨hp, hs⟩ := h.head ht
  have hl : ∀ u, (Function.update st.pc t (.waiting i) u).locks = false :=
    h.unlock_update ht rfl rfl
  have hin : State.inHand V { st.goto t (.waiting i) with
      sync := g
      reader := none } = some hd := by
    simp [State.inHand, hg]
  refine ⟨?_, h.ended, h.ended_le, ?_, fun u => ?_, fun _ u => ?_, h.fits⟩
  · show (V g).stop = false
    rw [hg]
    exact h.usable
  · rw [hin]
    exact hs
  · show (Function.update st.pc t (.waiting i) u).locks = true ↔ none = some u
    rw [hl u]
    simp
  · show (Function.update st.pc t (.waiting i) u).head? = none
    rcases hu : (Function.update st.pc t (.waiting i) u).head? with _ | hd'
    · rfl
    · have := Pc.locks_of_head? hu
      rw [hl u] at this
      cases this

/-- The first answer that is due ends its call. -/
theorem Wire.finish (h : Wire P V st) (hS : S.Lawful V) {g : Issue × Answer}
    {rest : List (Issue × Answer)}
    (ht : st.pc t = .header g.1 (headOf g)) (hdue : st.due = g :: rest) :
    Wire P V (st.finish S t g.1 (outcome g.2) true (rest.flatMap (message P))) ∧
      (st.finish S t g.1 (outcome g.2) true (rest.flatMap (message P))).due = rest := by
  obtain ⟨hp, -⟩ := h.head ht
  have hl : ∀ u, (Function.update st.pc t .idle u).locks = false := h.unlock_update ht rfl rfl
  set st' := st.finish S t g.1 (outcome g.2) true (rest.flatMap (message P)) with hst'
  have hlen : st'.ended.length = st.ended.length + 1 := by simp [hst', State.finish]
  have hdue' : st'.due = rest := by
    rw [State.due, hlen, ← List.drop_drop]
    show (st.due).drop 1 = rest
    rw [hdue]
    rfl
  have hlt : st.ended.length < st.given.length := by
    by_contra hge
    rw [State.due, List.drop_eq_nil_of_le (by omega)] at hdue
    cases hdue
  have hget : st.given[st.ended.length] = g := by
    have := List.drop_eq_getElem_cons hlt
    rw [← State.due, hdue] at this
    exact (List.cons.inj this).1.symm
  have hsync : V st'.sync =
      { V st.sync with registered := Function.update (V st.sync).registered g.1.id false } :=
    hS.left g.1.id st.sync
  have hp' : (V st'.sync).pending = none := by rw [hsync, hp]
  refine ⟨⟨?_, ?_, ?_, ?_, fun u => ?_, fun hne => absurd hp' hne, fun g' hg' => ?_⟩, hdue'⟩
  · rw [hsync]
    exact h.usable
  · rw [hlen]
    show st.ended ++ [(g.1, outcome g.2)] = (st.given.take (st.ended.length + 1)).map fun g =>
        (g.1, outcome g.2)
    rw [List.take_succ_eq_append_getElem hlt, List.map_append, ← h.ended, hget]
    rfl
  · rw [hlen]
    exact hlt
  · have hin : st'.inHand V = none := by
      rw [State.inHand, hp']
      rfl
    rw [hin, hdue']
    rfl
  · show (Function.update st.pc t .idle u).locks = true ↔ none = some u
    rw [hl u]
    simp
  · rw [hdue'] at hg'
    exact h.fits g' (by rw [hdue]; exact List.mem_cons_of_mem g hg')

/-- The server answers. -/
theorem Wire.answer (h : Wire P V st) (a : Answer) (ha : Fits P i.call a) (asked : List Issue) :
    Wire P V { st with
      input := st.input ++ a.write P i.call.name i.id
      asked := asked
      given := st.given ++ [(i, a)] } := by
  set st' : State β γ := { st with
    input := st.input ++ a.write P i.call.name i.id
    asked := asked
    given := st.given ++ [(i, a)] } with hst'
  have hdue : st'.due = st.due ++ [(i, a)] := List.drop_append_of_le_length h.ended_le
  have htake : (st.given ++ [(i, a)]).take st.ended.length = st.given.take st.ended.length :=
    List.take_append_of_le_length h.ended_le
  refine ⟨h.usable, ?_, ?_, ?_, h.lock, h.excl, fun g hg => ?_⟩
  · show st.ended = ((st.given ++ [(i, a)]).take st.ended.length).map _
    rw [htake]
    exact h.ended
  · show st.ended.length ≤ (st.given ++ [(i, a)]).length
    rw [List.length_append]
    exact Nat.le_add_right_of_le h.ended_le
  · have hin : st'.inHand V = st.inHand V := rfl
    have hs := h.stream
    rw [hin, hdue]
    show Stream P (st.due ++ [(i, a)]) (st.input ++ a.write P i.call.name i.id)
        (st.inHand V)
    rcases hhand : st.inHand V with _ | hd
    · rw [hhand] at hs
      have hs : st.input = st.due.flatMap (message P) := hs
      show st.input ++ a.write P i.call.name i.id = (st.due ++ [(i, a)]).flatMap (message P)
      rw [List.flatMap_append, List.flatMap_singleton, ← hs]
      rfl
    · rw [hhand] at hs
      obtain ⟨g, rest, hd1, hd2, hd3⟩ := hs
      refine ⟨g, rest ++ [(i, a)], by rw [hd1]; rfl, hd2, ?_⟩
      rw [hd3, List.flatMap_append, List.flatMap_singleton, List.append_assoc]
      rfl
  · rw [hdue] at hg
    rcases List.mem_append.mp hg with hg | hg
    · exact h.fits g hg
    · rw [List.mem_singleton.mp hg]
      exact ha

/-! ### Runs -/

/-- The first answer that is due is for a call that some thread has sent. -/
theorem Inv.due_flying (h : Inv P V st) {g : Issue × Answer} {rest : List (Issue × Answer)}
    (hdue : st.due = g :: rest) : ∃ u, (st.pc u).flying? = some g.1 := by
  refine (h.calls.out_iff g.1).mp ?_
  rw [State.out, hdue]
  exact List.mem_append_right _ List.mem_cons_self

/-- The call that has the sequence id of the first answer that is due is the one that the answer is
for. -/
theorem Inv.own (h : Inv P V st) {hd : Head} (ht : st.pc t = .header i hd)
    (hid : hd.rseqid = i.id) :
    ∃ g rest, st.due = g :: rest ∧ hd = headOf g ∧ g.1 = i ∧ st.input = body P g.2 ++ rest.flatMap
      (message P) := by
  obtain ⟨-, g, rest, hdue, hhd, hin⟩ := h.wire.head ht
  obtain ⟨u, hu⟩ := h.due_flying hdue
  have hi : (st.pc t).issue? = some i := by rw [ht]; rfl
  have hut : u = t := h.calls.ids u t g.1 i (Pc.issue?_of_flying? hu) hi (by rw [← hid, hhd]; rfl)
  rw [hut, ht] at hu
  exact ⟨g, rest, hdue, hhd, (Option.some.inj hu).symm, hin⟩

/-- The call ends with the answer that is for it. -/
theorem Inv.own_reads (hP : P.Lawful) (h : Inv P V st) {hd : Head} (ht : st.pc t = .header i hd)
    (hid : hd.rseqid = i.id) :
    ∃ g rest n, st.due = g :: rest ∧ hd = headOf g ∧ g.1 = i ∧
      recvCallOf P hd.fname hd.mtype i.call st.input =
        (.ok (outcome g.2), n, rest.flatMap (message P)) := by
  obtain ⟨g, rest, hdue, hhd, rfl, hin⟩ := h.own ht hid
  have hfits := h.wire.fits g (by rw [hdue]; exact List.mem_cons_self)
  refine ⟨g, rest, xfer (body P g.2), hdue, hhd, rfl, ?_⟩
  rw [hin, hhd]
  exact recvCallOf_reads hP hfits _

/-- Every header that is read is somebody's. -/
theorem Inv.registered (h : Inv P V st) {hd : Head} (ht : st.pc t = .header i hd) :
    (V st.sync).registered hd.rseqid = true := by
  obtain ⟨-, g, rest, hdue, hhd, -⟩ := h.wire.head ht
  obtain ⟨u, hu⟩ := h.due_flying hdue
  rw [hhd]
  exact (h.calls.registered _).mpr ⟨u, g.1, Pc.issue?_of_flying? hu, rfl⟩

/-- The client is usable, so that a thread that asks is told what has been handed over. -/
theorem Inv.got (hS : S.Lawful V) (h : Inv P V st) {res : Except TException (Option Head)} {g : γ}
    (hg : S.getPending st.sync = (res, g)) :
    res = .ok (V st.sync).pending ∧ V g = { V st.sync with pending := none } := by
  have hgot := hS.got st.sync h.wire.usable
  rw [hg] at hgot
  exact hgot

/-- A header that is not the thread's own can be handed over. -/
theorem Inv.updated (hS : S.Lawful V) (h : Inv P V st) {hd : Head} (ht : st.pc t = .header i hd)
    {res : Except TException Unit} {g : γ} (hg : S.updatePending hd st.sync = (res, g)) :
    res = .ok () ∧ V g = { V st.sync with pending := some hd } := by
  have hupd := hS.updated hd st.sync (h.registered ht)
  rw [hg] at hupd
  exact hupd

theorem Inv.step (hP : P.Lawful) (hS : S.Lawful V) (hn : ∀ c : Call, P.carries c.name)
    (h : Inv P V st) {a : Act} (ha : a.Ok P) (hs : Moves P S st a st') : Inv P V st' := by
  cases hs with
  | @begin t c id g hidle hg =>
    obtain ⟨hid, hV⟩ := hS.generated hg
    exact ⟨h.calls.begin hidle hid rfl (by dsimp only; rw [hV]) rfl,
      h.wire.goto (by rw [hidle]; rfl) (by rw [hidle]; rfl) rfl (by dsimp only; rw [hV])
        rfl rfl rfl (by dsimp only; rw [hV]) rfl⟩
  | @refuse t c e g hidle hg =>
    have hV := hS.refused hg
    exact ⟨h.calls.congr (fun _ => rfl) (fun _ => rfl) (by dsimp only; rw [hV]) (.refl _),
      h.wire.goto rfl rfl (Function.update_eq_self t st.pc).symm (by dsimp only; rw [hV])
        rfl rfl rfl (by dsimp only; rw [hV]) rfl⟩
  | @send t i ht =>
    refine ⟨h.calls.send ht rfl rfl ?_, h.wire.goto (by rw [ht]; rfl)
      (by rw [ht]; rfl) rfl rfl rfl rfl rfl rfl rfl⟩
    show ((st.asked ++ [i]) ++ st.due.map Prod.fst).Perm (i :: (st.asked ++ st.due.map Prod.fst))
    rw [List.append_assoc]
    exact List.perm_middle
  | lock ht hr =>
    exact ⟨h.calls.goto (by rw [ht]; rfl) (by rw [ht]; rfl) rfl rfl rfl,
      h.wire.acquire hr _ _ rfl⟩
  | @wake t i g ht hr hg =>
    have hV := hS.waited hg
    exact ⟨h.calls.goto (by rw [ht]; rfl) (by rw [ht]; rfl) rfl (by dsimp only; rw [hV]) rfl,
      h.wire.acquire hr _ _ hV⟩
  | dead ht hg => cases (h.got hS hg).1
  | @take t i hd g ht hg =>
    obtain ⟨hp, hV⟩ := h.got hS hg
    exact ⟨h.calls.goto (by rw [ht]; rfl) (by rw [ht]; rfl) rfl (by dsimp only; rw [hV]) rfl,
      h.wire.take ht (Except.ok.inj hp).symm hV⟩
  | @read t i hd k n rest ht hk hin hread =>
    obtain ⟨hp, hV⟩ := h.got hS hk
    obtain ⟨g, rest', n', hdue, hread'⟩ := h.wire.read hP hn ht (Except.ok.inj hp).symm hin
    rw [hread] at hread'
    obtain ⟨hres, hrest⟩ := Prod.mk.inj hread'
    have hhd : hd = headOf g := by
      obtain ⟨h1, h2⟩ := Prod.mk.inj (Except.ok.inj hres)
      obtain ⟨h2, h3⟩ := Prod.mk.inj h2
      cases hd
      exact Head.mk.injEq .. |>.mpr ⟨h1, h2, h3⟩
    have hw := h.wire.header ht hV hdue
    rw [← hhd, ← (Prod.mk.inj hrest).2] at hw
    exact ⟨h.calls.goto (by rw [ht]; rfl) (by rw [ht]; rfl) rfl (by dsimp only; rw [hV]) rfl, hw⟩
  | broken ht hg hin hread =>
    obtain ⟨hp, -⟩ := h.got hS hg
    obtain ⟨g, rest', n', -, hread'⟩ := h.wire.read hP hn ht (Except.ok.inj hp).symm hin
    rw [hread] at hread'
    cases hread'
  | own ht hid hread =>
    obtain ⟨g, rest, n, hdue, rfl, rfl, hread'⟩ := h.own_reads hP ht hid
    rw [hread] at hread'
    obtain ⟨hres, hrest⟩ := Prod.mk.inj hread'
    obtain rfl := Except.ok.inj hres
    obtain ⟨-, rfl⟩ := Prod.mk.inj hrest
    exact ⟨h.calls.finish hS hdue (by rw [ht]; rfl) _ _, (h.wire.finish hS ht hdue).1⟩
  | failed ht hid hread =>
    obtain ⟨g, rest, n, -, -, -, hread'⟩ := h.own_reads hP ht hid
    rw [hread] at hread'
    cases hread'
  | @pass t i hd g ht hid hg =>
    obtain ⟨-, hV⟩ := h.updated hS ht hg
    exact ⟨h.calls.goto (by rw [ht]; rfl) (by rw [ht]; rfl) rfl (by dsimp only; rw [hV]) rfl,
      h.wire.pass ht hV⟩
  | bad ht hid hg => cases (h.updated hS ht hg).1
  | @answer i a hi =>
    refine ⟨h.calls.congr (fun _ => rfl) (fun _ => rfl) rfl ?_, h.wire.answer a ha _⟩
    have hdue : (st.given ++ [(i, a)]).drop st.ended.length = st.due ++ [(i, a)] :=
      List.drop_append_of_le_length h.wire.ended_le
    show ((st.asked.erase i) ++ ((st.given ++ [(i, a)]).drop st.ended.length).map Prod.fst).Perm
        st.out
    rw [hdue, List.map_append, List.map_singleton, ← List.append_assoc]
    refine (List.perm_append_singleton _ _).trans ?_
    rw [← List.cons_append]
    exact (List.perm_cons_erase hi).symm.append_right _

theorem inv_start (hS : S.Lawful V) : Inv P V (start S : State β γ) where
  calls :=
    { ids := fun t u i j hi => by cases hi
      registered := fun id => by
        show (V S.new).registered id = true ↔ _
        rw [hS.new]
        refine iff_of_false Bool.false_ne_true ?_
        rintro ⟨t, i, hi, -⟩
        cases hi
      out_iff := fun i => by simp [State.out, State.due, start, Pc.flying?]
      nodup := List.nodup_nil }
  wire :=
    { usable := by
        show (V S.new).stop = false
        rw [hS.new]
      ended := rfl
      ended_le := le_rfl
      stream := by
        have hin : State.inHand V (start S : State β γ) = none := by
          simp [State.inHand, start, hS.new]
        rw [hin]
        rfl
      lock := fun t => by simp [start, Pc.locks]
      excl := fun h => absurd (by show (V S.new).pending = none; rw [hS.new]) h
      fits := fun g hg => by cases hg }

theorem serials_start : Serials (start S : State β γ) where
  lt t i hi := by cases hi
  unique t u i j hi := by cases hi
  ended_lt e he := by cases he
  fresh e he := by cases he
  nodup := List.nodup_nil

theorem inv_of_reach (hP : P.Lawful) (hS : S.Lawful V) (hn : ∀ c : Call, P.carries c.name)
    (hr : (client P S).Reach (fun _ a => a.Ok P) st) :
    Inv P V st ∧ Serials st := by
  refine hr.invariant (I := fun st => Inv P V st ∧ Serials st) (fun s hs => ?_)
    fun s a s' _ hs ha hstep => ?_
  · rw [hs]
    exact ⟨inv_start hS, serials_start⟩
  · exact ⟨hs.1.step hP hS hn ha (moves_of_step P S hstep), hs.2.step (moves_of_step P S hstep)⟩

/-- **Every call gets its own answer.** In every run, whichever thread reads what, the calls that
have ended are those that the server answered first, in its order and each with the outcome of its
answer; no call has ended twice, and the client can still be used. -/
theorem concurrent_calls (hP : P.Lawful) (hS : S.Lawful V) (hn : ∀ c : Call, P.carries c.name)
    (hr : (client P S).Reach (fun _ a => a.Ok P) st) :
    st.ended = (st.given.take st.ended.length).map (fun g => (g.1, outcome g.2)) ∧
      (st.ended.map fun e => e.1.serial).Nodup ∧ (V st.sync).stop = false := by
  obtain ⟨h, hser⟩ := inv_of_reach hP hS hn hr
  exact ⟨h.wire.ended, hser.nodup, h.wire.usable⟩

/-! ### Answers are delivered -/

/-- A step of a thread with a call under way. -/
def Act.Own : Act → Prop
  | .begin _ _ | .answer _ _ => False
  | _ => True

/-- Whenever the read mutex is free, there is a header to be taken, or somebody has been woken up,
or nobody waits. -/
def Wakeful (V : γ → SyncView) (woken : γ → Bool) (st : State β γ) : Prop :=
  st.reader = none →
    (V st.sync).pending ≠ none ∨ woken st.sync = true ∨ ∀ t i, st.pc t ≠ .waiting i

variable {woken : γ → Bool}

/-- A thread goes on, and does not wait. -/
theorem Wakeful.goto (hw : Wakeful V woken st) {pc : Pc} (hpc : ∀ i, pc ≠ .waiting i)
    (hst : st'.pc = Function.update st.pc t pc) (hr : st'.reader = st.reader)
    (hp : (V st'.sync).pending = (V st.sync).pending)
    (hg : woken st.sync = true → woken st'.sync = true) : Wakeful V woken st' := by
  intro hfree
  rcases hw (hr ▸ hfree) with h | h | h
  · exact .inl (by rwa [hp])
  · exact .inr (.inl (hg h))
  · refine .inr (.inr fun u i => ?_)
    rw [hst]
    by_cases hu : u = t
    · rw [hu, Function.update_self]
      exact hpc i
    · rw [Function.update_of_ne hu]
      exact h u i

/-- The read mutex is not free. -/
theorem Wakeful.held (hr : st'.reader ≠ none) : Wakeful V woken st' := fun hfree => absurd hfree hr

theorem Wakeful.step (hP : P.Lawful) (hS : S.Lawful V) (hL : S.Live V woken)
    (hn : ∀ c : Call, P.carries c.name) (h : Inv P V st) (hw : Wakeful V woken st) {a : Act}
    (hs : Moves P S st a st') : Wakeful V woken st' := by
  have hheld : ∀ {t : ℕ} {pc : Pc}, st.pc t = pc → pc.locks = true → st.reader ≠ none := by
    intro t pc ht hl
    rw [(h.wire.lock t).mp (by rw [ht]; exact hl)]
    simp
  cases hs with
  | begin hidle hg =>
    obtain ⟨-, hV⟩ := hS.generated hg
    refine hw.goto (by simp) rfl rfl (by dsimp only; rw [hV]) fun hwoken => ?_
    have := hL.generated hwoken
    rwa [hg] at this
  | @refuse t c e g hidle hg =>
    have hV := hS.refused hg
    have hpc : ∀ i, Pc.idle ≠ .waiting i := by simp
    refine hw.goto (t := t) hpc ?_ rfl (by dsimp only; rw [hV]) fun hwoken => ?_
    · rw [← hidle, Function.update_eq_self]
    · have := hL.generated hwoken
      rwa [hg] at this
  | send ht => exact hw.goto (by simp) rfl rfl rfl id
  | lock ht => exact .held (by simp)
  | dead ht hg => cases (h.got hS hg).1
  | take ht hg => exact .held (hheld ht rfl)
  | read ht hg => exact .held (hheld ht rfl)
  | broken ht hg hin hread =>
    obtain ⟨hp, -⟩ := h.got hS hg
    obtain ⟨g, rest', n', -, hread'⟩ := h.wire.read hP hn ht (Except.ok.inj hp).symm hin
    rw [hread] at hread'
    cases hread'
  | own ht hid hread => exact fun _ => .inr (.inl (hL.committed _ _))
  | failed ht hid hread =>
    obtain ⟨g, rest, n, -, -, -, hread'⟩ := h.own_reads hP ht hid
    rw [hread] at hread'
    cases hread'
  | pass ht hid hg =>
    obtain ⟨-, hV⟩ := h.updated hS ht hg
    exact fun _ => .inl (by dsimp only; rw [hV]; simp)
  | bad ht hid hg => cases (h.updated hS ht hg).1
  | wake ht => exact .held (by simp)
  | answer => exact hw

/-- The state of a run, between its steps. -/
structure Running (P : TProtocol β) (V : γ → SyncView) (woken : γ → Bool) (st : State β γ) :
    Prop where
  inv : Inv P V st
  wakeful : Wakeful V woken st

/-- Steps of such threads end some more calls. -/
def Delivers (P : TProtocol β) (S : SyncInfo γ) (V : γ → SyncView) (woken : γ → Bool)
    (st : State β γ) (n : ℕ) : Prop :=
  ∃ as st', (∀ a ∈ as, a.Own) ∧ exec (State.step P S) st as = some st' ∧
    Running P V woken st' ∧ st'.given = st.given ∧ st'.ended.length = st.ended.length + n

/-- One step, and then others. -/
theorem Delivers.cons {a : Act} {n : ℕ} (ha : a.Own) (hs : st.step P S a = some st')
    (hg : st'.given = st.given) (he : st'.ended = st.ended) (h : Delivers P S V woken st' n) :
    Delivers P S V woken st n := by
  obtain ⟨as, st'', hown, hexec, hrun, hg', he'⟩ := h
  refine ⟨a :: as, st'', fun b hb => ?_, ?_, hrun, hg'.trans hg, by rw [he', he]⟩
  · rcases List.mem_cons.mp hb with rfl | hb
    · exact ha
    · exact hown b hb
  · rw [exec, hs]
    exact hexec

theorem Delivers.append {n m : ℕ} (h : Delivers P S V woken st n)
    (h' : ∀ st', Running P V woken st' → st'.given = st.given →
    st'.ended.length = st.ended.length + n → Delivers P S V woken st' m) :
    Delivers P S V woken st (n + m) := by
  obtain ⟨as, st', hown, hexec, hrun, hg, he⟩ := h
  obtain ⟨bs, st'', hown', hexec', hrun', hg', he'⟩ := h' st' hrun hg he
  refine ⟨as ++ bs, st'', fun b hb => (List.mem_append.mp hb).elim (hown b) (hown' b), ?_, hrun',
    hg'.trans hg, by omega⟩
  rw [exec_append, hexec]
  exact hexec'

section Deliver

variable {g : Issue × Answer} {rest : List (Issue × Answer)}

theorem Running.step (hP : P.Lawful) (hS : S.Lawful V) (hL : S.Live V woken)
    (hn : ∀ c : Call, P.carries c.name) (h : Running P V woken st) {a : Act} (ha : a.Ok P)
    (hs : st.step P S a = some st') : Running P V woken st' :=
  ⟨h.inv.step hP hS hn ha (moves_of_step P S hs),
    h.wakeful.step hP hS hL hn h.inv (moves_of_step P S hs)⟩

/-- A thread with the read mutex gets the header of the first answer that is due. -/
theorem Inv.fetch (hP : P.Lawful) (hS : S.Lawful V) (hn : ∀ c : Call, P.carries c.name)
    (h : Inv P V st) (ht : st.pc t = .top i) (hdue : st.due = g :: rest) :
    ∃ st', st.step P S (.fetch t) = some st' ∧ st'.pc t = .header i
      (headOf g) ∧ st'.given = st.given ∧ st'.ended = st.ended := by
  have hs := h.wire.stream
  rcases hget : S.getPending st.sync with ⟨res, k⟩
  obtain ⟨rfl, -⟩ := h.got hS hget
  rcases hp : (V st.sync).pending with _ | hd
  · have hr : st.reader = some t := (h.wire.lock t).mp (by rw [ht]; rfl)
    have hhand : st.inHand V = none := by simp [State.inHand, hp, hr, ht, Pc.head?]
    rw [hhand] at hs
    have hin : st.input ≠ [] := by
      rw [show st.input = st.due.flatMap (message P) from hs, hdue, List.flatMap_cons]
      exact fun hnil => Answer.write_ne_nil hP (hn g.1.call) g.1.id g.2
        (List.append_eq_nil_iff.mp hnil).1
    obtain ⟨g', rest', n, hdue', hread⟩ := h.wire.read hP hn ht hp hin
    rw [hdue] at hdue'
    obtain ⟨rfl, rfl⟩ := List.cons.inj hdue'
    refine ⟨{ st.goto t (.header i (headOf g)) with
      sync := k
      input := body P g.2 ++ rest.flatMap (message P) }, ?_,
      Function.update_self .., rfl, rfl⟩
    simp only [State.step, ht, hget, hp, hin, if_false, hread]
    rfl
  · have hhand : st.inHand V = some hd := by simp [State.inHand, hp]
    rw [hhand] at hs
    obtain ⟨g', rest', hdue', rfl, -⟩ := hs
    rw [hdue] at hdue'
    obtain ⟨rfl, rfl⟩ := List.cons.inj hdue'
    refine ⟨{ st.goto t (.header i (headOf g)) with sync := k }, ?_,
      Function.update_self .., rfl, rfl⟩
    simp only [State.step, ht, hget, hp]

variable (hP : P.Lawful) (hS : S.Lawful V) (hL : S.Live V woken)
  (hn : ∀ c : Call, P.carries c.name)

include hP hS hL hn

/-- A header in the hands of the call that it is for. -/
theorem Running.deliver_header (h : Running P V woken st) (ht : st.pc t = .header g.1 (headOf g)) :
    Delivers P S V woken st 1 := by
  obtain ⟨g', rest, n, hdue, hhd, hgi, hread⟩ := h.inv.own_reads hP ht rfl
  have hs : st.step P S (.handle t) = some (st.finish S t g.1 (outcome g'.2) true (rest.flatMap
      (message P))) := by
    simp only [State.step, ht, State.handle, headOf, if_true]
    rw [headOf] at hread
    rw [hread]
  refine ⟨[.handle t], _, fun a ha => ?_, ?_, h.step hP hS hL hn (a := .handle t) trivial hs, rfl,
    ?_⟩
  · rw [List.mem_singleton.mp ha]
    trivial
  · rw [exec, hs]
    rfl
  · simp [State.finish]

/-- The call that the first answer is for has the mutex. -/
theorem Running.deliver_top (h : Running P V woken st) (ht : st.pc t = .top g.1)
    (hdue : st.due = g :: rest) : Delivers P S V woken st 1 := by
  obtain ⟨st', hs, hpc, hg, he⟩ := h.inv.fetch hP hS hn ht hdue
  exact Delivers.cons (a := .fetch t) trivial hs hg he
    ((h.step hP hS hL hn (a := .fetch t) trivial hs).deliver_header hP hS hL hn hpc)

/-- The mutex is free, and a thread gets it that has sent its request, or is to come back. -/
theorem Running.arrive (h : Running P V woken st) (hr : st.reader = none)
    (ht : (st.pc t).flying? = some i)
    (hback : st.pc t = .waiting i → (S.waitForWork i.id st.sync).isSome = true) :
    ∃ a st', a.Own ∧ st.step P S a = some st' ∧ st'.pc t = .top i ∧ st'.given = st.given ∧
      st'.ended = st.ended ∧ Running P V woken st' := by
  have hlock : (st.pc t).locks = false := by
    rw [Bool.eq_false_iff, ne_eq, h.inv.wire.lock t, hr]
    simp
  cases hpc : st.pc t with
  | idle => rw [hpc] at ht; cases ht
  | generated j => rw [hpc] at ht; cases ht
  | top j => rw [hpc] at hlock; cases hlock
  | header j hd => rw [hpc] at hlock; cases hlock
  | sent j =>
    rw [hpc] at ht
    obtain rfl := Option.some.inj ht
    have hs : st.step P S (.lock t) = some { st.goto t (.top j) with reader := some t } := by
      simp only [State.step, hpc, hr]
    exact ⟨.lock t, _, trivial, hs, Function.update_self .., rfl, rfl,
      h.step hP hS hL hn (a := .lock t) trivial hs⟩
  | waiting j =>
    rw [hpc] at ht
    obtain rfl := Option.some.inj ht
    obtain ⟨k, hk⟩ := Option.isSome_iff_exists.mp (hback hpc)
    have hs : st.step P S (.wake t) =
        some { st.goto t (.top j) with sync := k, reader := some t } := by
      simp only [State.step, hpc, hr, hk, Option.map_some]
    exact ⟨.wake t, _, trivial, hs, Function.update_self .., rfl, rfl,
      h.step hP hS hL hn (a := .wake t) trivial hs⟩

/-- The thread of the first answer that is due can get the mutex. -/
theorem Running.deliver_own (h : Running P V woken st) (hr : st.reader = none)
    (hdue : st.due = g :: rest)
    (hback : ∀ t, st.pc t = .waiting g.1 → (S.waitForWork g.1.id st.sync).isSome = true) :
    Delivers P S V woken st 1 := by
  obtain ⟨t, ht⟩ := h.inv.due_flying hdue
  obtain ⟨a, st', ha, hs, hpc, hg, he, hrun⟩ := h.arrive hP hS hL hn hr ht (hback t)
  have hdue' : st'.due = g :: rest := by rw [State.due, hg, he]; exact hdue
  exact Delivers.cons ha hs hg he (hrun.deliver_top hP hS hL hn hpc hdue')

/-- A header has been handed over. -/
theorem Running.deliver_handed (h : Running P V woken st) (hr : st.reader = none) {hd : Head}
    (hp : (V st.sync).pending = some hd) (hdue : st.due = g :: rest) :
    Delivers P S V woken st 1 := by
  have hs := h.inv.wire.stream
  have hhand : st.inHand V = some hd := by simp [State.inHand, hp]
  rw [hhand] at hs
  obtain ⟨g', rest', hdue', rfl, -⟩ := hs
  rw [hdue] at hdue'
  obtain ⟨rfl, rfl⟩ := List.cons.inj hdue'
  exact h.deliver_own hP hS hL hn hr hdue fun _ _ => hL.handed hp

/-- A header in anybody's hands. -/
theorem Running.deliver_any (h : Running P V woken st) {hd : Head} (ht : st.pc t = .header i hd)
    (hdue : st.due = g :: rest) : Delivers P S V woken st 1 := by
  obtain ⟨-, g', rest', hdue', hhd, -⟩ := h.inv.wire.head ht
  rw [hdue] at hdue'
  obtain ⟨rfl, rfl⟩ := List.cons.inj hdue'
  by_cases hid : hd.rseqid = i.id
  · obtain ⟨g', rest', hdue', hhd', hgi, -⟩ := h.inv.own ht hid
    rw [hdue] at hdue'
    obtain ⟨rfl, rfl⟩ := List.cons.inj hdue'
    subst hgi hhd
    exact h.deliver_header hP hS hL hn ht
  · rcases hupd : S.updatePending hd st.sync with ⟨res, k⟩
    obtain ⟨rfl, hV⟩ := h.inv.updated hS ht hupd
    have hs : st.step P S (.handle t) = some { st.goto t (.waiting i) with
        sync := k
        reader := none } := by
      simp only [State.step, ht, State.handle, hid, if_false, hupd]
    have hrun := h.step hP hS hL hn (a := .handle t) trivial hs
    have hpend : (V k).pending = some hd := by rw [hV]
    exact Delivers.cons (a := .handle t) trivial hs rfl rfl
      (hrun.deliver_handed hP hS hL hn rfl hpend hdue)

/-- The mutex in anybody's hands. -/
theorem Running.deliver_anyTop (h : Running P V woken st) (ht : st.pc t = .top i)
    (hdue : st.due = g :: rest) : Delivers P S V woken st 1 := by
  obtain ⟨st', hs, hpc, hg, he⟩ := h.inv.fetch hP hS hn ht hdue
  have hdue' : st'.due = g :: rest := by rw [State.due, hg, he]; exact hdue
  exact Delivers.cons (a := .fetch t) trivial hs hg he
    ((h.step hP hS hL hn (a := .fetch t) trivial hs).deliver_any hP hS hL hn hpc hdue')

/-- A thread that is to come back, or would not wait, takes the answer to its call. -/
theorem Running.deliver_back (h : Running P V woken st) (hr : st.reader = none)
    (ht : (st.pc t).issue? = some i)
    (hback : (S.waitForWork i.id st.sync).isSome = true) (hdue : st.due = g :: rest) :
    Delivers P S V woken st 1 := by
  have hfly : ∀ {st' : State β γ}, Running P V woken st' → st'.reader = none →
      (st'.pc t).flying? = some i → st'.sync = st.sync → st'.due = g :: rest →
      Delivers P S V woken st' 1 := by
    intro st' hrun hr ht hsync hdue
    obtain ⟨a, st'', ha, hs, hpc, hg, he, hrun'⟩ :=
      hrun.arrive hP hS hL hn hr ht fun _ => by rw [hsync]; exact hback
    have hdue' : st''.due = g :: rest := by rw [State.due, hg, he]; exact hdue
    exact Delivers.cons ha hs hg he (hrun'.deliver_anyTop hP hS hL hn hpc hdue')
  cases hpc : st.pc t with
  | idle => rw [hpc] at ht; cases ht
  | generated j =>
    -- its request is not written yet
    rw [hpc] at ht
    obtain rfl := Option.some.inj ht
    have hs : st.step P S (.send t) = some { st.goto t (.sent j) with
        output := st.output ++ sendCallOf P j.id j.call
        asked := st.asked ++ [j] } := by
      simp only [State.step, hpc]
    have hrun := h.step hP hS hL hn (a := .send t) trivial hs
    refine Delivers.cons (a := .send t) trivial hs rfl rfl (hfly hrun hr ?_ rfl hdue)
    show (Function.update st.pc t (.sent j) t).flying? = some j
    rw [Function.update_self]
    rfl
  | sent j => exact hfly h hr (by rw [hpc] at ht ⊢; exact ht) rfl hdue
  | waiting j => exact hfly h hr (by rw [hpc] at ht ⊢; exact ht) rfl hdue
  | top j => exact hfly h hr (by rw [hpc] at ht ⊢; exact ht) rfl hdue
  | header j hd => exact hfly h hr (by rw [hpc] at ht ⊢; exact ht) rfl hdue

/-- Nobody has the mutex. -/
theorem Running.deliver_free (h : Running P V woken st) (hr : st.reader = none)
    (hdue : st.due = g :: rest) : Delivers P S V woken st 1 := by
  rcases hp : (V st.sync).pending with _ | hd
  · rcases h.wakeful hr with hne | hwoken | hnone
    · exact absurd hp hne
    · obtain ⟨t, ht⟩ := h.inv.due_flying hdue
      have hreg := (h.inv.calls.registered g.1.id).mpr ⟨t, g.1, Pc.issue?_of_flying? ht, rfl⟩
      obtain ⟨id, hid, hback⟩ := hL.back hwoken hreg
      obtain ⟨u, j, hj, rfl⟩ := (h.inv.calls.registered id).mp hid
      exact h.deliver_back hP hS hL hn hr hj hback hdue
    · exact h.deliver_own hP hS hL hn hr hdue fun t ht => absurd ht (hnone t g.1)
  · exact h.deliver_handed hP hS hL hn hr hp hdue

/-- **The next answer** can be delivered. -/
theorem Running.deliver (h : Running P V woken st) (hdue : st.due = g :: rest) :
    Delivers P S V woken st 1 := by
  rcases hr : st.reader with _ | t
  · exact h.deliver_free hP hS hL hn hr hdue
  · have hlock := (h.inv.wire.lock t).mpr hr
    cases hpc : st.pc t with
    | idle => rw [hpc] at hlock; cases hlock
    | generated i => rw [hpc] at hlock; cases hlock
    | sent i => rw [hpc] at hlock; cases hlock
    | waiting i => rw [hpc] at hlock; cases hlock
    | header i hd => exact h.deliver_any hP hS hL hn hpc hdue
    | top i => exact h.deliver_anyTop hP hS hL hn hpc hdue

theorem Running.deliver_all (n : ℕ) (h : Running P V woken st)
    (hlen : st.ended.length + n ≤ st.given.length) : Delivers P S V woken st n := by
  induction n with
  | zero => exact ⟨[], st, by simp, rfl, h, rfl, rfl⟩
  | succ n ih =>
    refine (ih (by omega)).append fun st' hrun hg he => ?_
    rcases hdue : st'.due with _ | ⟨g, rest⟩
    · have hlen' := congrArg List.length hdue
      rw [State.due, List.length_drop, List.length_nil, hg, he] at hlen'
      omega
    · exact hrun.deliver hP hS hL hn hdue

/-- **Every answer can be delivered.** From every state reached, steps of the threads with calls
under way, and of those only, end all the calls that the server has answered. -/
theorem concurrent_delivers (hr : (client P S).Reach (fun _ a => a.Ok P) st) :
    ∃ as st', (∀ a ∈ as, a.Own) ∧ exec (State.step P S) st as = some st' ∧ st'.given = st.given ∧
      st'.ended = st.given.map fun g => (g.1, outcome g.2) := by
  have h : Running P V woken st := by
    refine hr.invariant (fun s hs => ?_) fun s a s' _ hs ha hstep => hs.step hP hS hL hn ha hstep
    rw [hs]
    exact ⟨inv_start hS, fun _ => .inr (.inr fun t i ht => by cases ht)⟩
  obtain ⟨as, st', hown, hexec, hrun, hg, he⟩ :=
    h.deliver_all hP hS hL hn (st.given.length - st.ended.length)
      (by have := h.inv.wire.ended_le; omega)
  refine ⟨as, st', hown, hexec, hg, ?_⟩
  have hle := h.inv.wire.ended_le
  have hall := hrun.inv.wire.ended
  rwa [he, hg, Nat.add_sub_cancel' hle, List.take_length] at hall

end Deliver

/-! ### The library's class -/

/-- The state of a `TConcurrentClientSyncInfo`, less its monitors: whoever waits may look at any
time whether it can go on. -/
structure SyncState where
  nextseqid : I32
  /-- The sequence ids that have monitors. -/
  seqids : List I32
  pending : Option Head
  wakeupSomeone : Bool
  stop : Bool
  deriving DecidableEq

/-- What is thrown when a call has failed on another thread. -/
def deadConnection : TException :=
  .transport "this client died on another thread, and is now in an unusable state"

/-- The class. -/
def syncInfo : SyncInfo SyncState where
  new := ⟨2147483637, [], none, false, false⟩
  generateSeqId g :=
    if g.stop = true then (.error deadConnection, g)
    else if g.nextseqid ∈ g.seqids then
      (.error (.application ⟨.badSequenceId, "about to repeat a seqid"⟩), g)
    else
      (.ok g.nextseqid,
        { g with nextseqid := g.nextseqid + 1, seqids := g.nextseqid :: g.seqids })
  getPending g :=
    if g.stop = true then (.error deadConnection, g)
    else (.ok g.pending, { g with pending := none, wakeupSomeone := false })
  updatePending hd g :=
    (if hd.rseqid ∈ g.seqids then .ok ()
      else .error (.application ⟨.badSequenceId, "server sent a bad seqid"⟩),
      { g with pending := some hd })
  waitForWork id g :=
    if g.wakeupSomeone = true ∨ g.pending.map (·.rseqid) = some id then some g else none
  leave id commit g :=
    { g with
      seqids := g.seqids.filter (· ≠ id)
      wakeupSomeone := true
      stop := g.stop || !commit }

/-- What the threads know of it. -/
def syncView (g : SyncState) : SyncView := ⟨fun id => decide (id ∈ g.seqids), g.pending, g.stop⟩

theorem syncInfo_lawful : syncInfo.Lawful syncView where
  new := rfl
  generated := by
    intro g g' id h
    simp only [syncInfo] at h
    split_ifs at h with hstop hmem
    · cases h
    · cases h
    · obtain ⟨hid, rfl⟩ := Prod.mk.inj h
      obtain rfl := Except.ok.inj hid
      refine ⟨decide_eq_false hmem, ?_⟩
      simp only [syncView, SyncView.mk.injEq, and_true]
      funext id
      by_cases hid : id = g.nextseqid <;> simp [hid]
  refused := by
    intro g g' e h
    simp only [syncInfo] at h
    split_ifs at h <;> cases h <;> rfl
  got g hstop := by
    have hstop : ¬ g.stop = true := by simpa [syncView] using hstop
    unfold syncInfo
    dsimp only
    rw [if_neg hstop]
    exact ⟨rfl, rfl⟩
  updated hd g hreg := by
    have hmem : hd.rseqid ∈ g.seqids := of_decide_eq_true hreg
    exact ⟨if_pos hmem, rfl⟩
  waited := by
    intro id g g' h
    simp only [syncInfo, Option.ite_none_right_eq_some] at h
    rw [Option.some.inj h.2]
  left id g := by
    simp only [syncInfo, syncView, Bool.not_true, Bool.or_false, SyncView.mk.injEq, and_true]
    funext j
    by_cases hj : j = id <;> simp [hj]

theorem syncInfo_live : syncInfo.Live syncView (·.wakeupSomeone) where
  handed := by
    intro g hd h
    have h : g.pending = some hd := h
    simp [syncInfo, h]
  committed _ _ := rfl
  generated := by
    intro g h
    simp only [syncInfo]
    split_ifs <;> exact h
  back := by
    intro g id h hreg
    have h : g.wakeupSomeone = true := h
    exact ⟨id, hreg, by simp [syncInfo, h]⟩

/-- Two threads call, the second is answered first, and the first reads the header of that
answer. -/
def crossed : List Act :=
  [.begin 0 (.remoteTime 0), .begin 1 (.send ""), .send 0, .send 1,
    .answer ⟨1, 2147483638, .send ""⟩ (.data "noon"), .lock 0, .fetch 0,
    .answer ⟨0, 2147483637, .remoteTime 0⟩ (.time 12), .handle 0, .lock 1, .fetch 1, .handle 1]

theorem crossed_ok : ∀ a ∈ crossed, a.Ok binary := by
  have hnoon : BinaryCarries "noon" := by decide
  simp [crossed, Act.Ok, Fits, binary, hnoon]

theorem names_carried (c : Call) : binary.carries c.name := by
  cases c with
  | remoteTime => exact show BinaryCarries "remoteTime" by decide
  | send => exact show BinaryCarries "send" by decide

/-- The state after it: one call has ended, the other's answer is on the stream. -/
theorem exists_crossed : ∃ st : State Byte SyncState,
    (client binary syncInfo).Reach (fun _ a => a.Ok binary) st ∧ st.ended.length = 1 ∧
    st.given.length = 2 := by
  have hrun : (exec (State.step binary syncInfo) (start syncInfo) crossed).map
      (fun st => (st.ended.length, st.given.length)) = some (1, 2) := by
    decide +kernel
  obtain ⟨st, hst, hlen⟩ := Option.map_eq_some_iff.mp hrun
  exact ⟨st, Lts.Reach.exec (fun _ _ _ h => h) (.init rfl) (fun _ a ha => crossed_ok a ha) hst,
    (Prod.mk.inj hlen).1,
    (Prod.mk.inj hlen).2⟩

theorem concurrent_calls_crossed : ∃ st : State Byte SyncState, st.ended.length = 1 ∧
    st.ended = (st.given.take st.ended.length).map (fun g => (g.1, outcome g.2)) ∧
      (st.ended.map fun e => e.1.serial).Nodup ∧ (syncView st.sync).stop = false := by
  obtain ⟨st, hr, he, -⟩ := exists_crossed
  exact ⟨st, he, concurrent_calls binary_lawful syncInfo_lawful names_carried hr⟩

theorem concurrent_delivers_crossed : ∃ st : State Byte SyncState,
    st.ended.length = 1 ∧ st.given.length = 2 ∧
    ∃ as st', (∀ a ∈ as, a.Own) ∧ exec (State.step binary syncInfo) st as = some st' ∧
      st'.given = st.given ∧ st'.ended = st.given.map fun g => (g.1, outcome g.2) := by
  obtain ⟨st, hr, he, hg⟩ := exists_crossed
  exact ⟨st, he, hg,
    concurrent_delivers binary_lawful syncInfo_lawful syncInfo_live names_carried hr⟩

end NetworkDemo.Rpc.Concurrent
