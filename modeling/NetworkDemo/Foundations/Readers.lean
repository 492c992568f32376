import Mathlib.Data.List.Basic

/-!
# Readers of a stream

A `Reader` takes symbols off the front of a stream and counts them in 32 bits. Then it
gives a value, or fails; a reader that fails has taken what it took.

`Reads r bs res` says of a reader that it takes exactly `bs` where a stream begins with
them, whatever comes after, and gives `res`. Readers that are run one after the other read
what they read one after the other (`Reads.bind`), so what a program reads is told by the
shape of the program. A loop that reads items until it finds none is `readItems`; it is
told by one turn (`Reads.readItems`), and no input keeps it from ending where every turn
takes something (`readItems_ends`).
-/

namespace NetworkDemo.Foundations

/-- A reader: its value or its failure, how many symbols it has taken, and what is left. -/
def Reader (β ε α : Type) : Type := List β → Except ε α × BitVec 32 × List β

namespace Reader

variable {β ε α γ σ ι κ : Type}

/-- Give a value. -/
protected def pure (a : α) : Reader β ε α := fun bs => (.ok a, 0, bs)

/-- Give up. -/
def fail (e : ε) : Reader β ε α := fun bs => (.error e, 0, bs)

/-- One reader after the other. -/
protected def bind (r : Reader β ε α) (f : α → Reader β ε γ) : Reader β ε γ := fun bs =>
  match r bs with
  | (.ok a, n, rest) => let (res, m, rest') := f a rest; (res, n + m, rest')
  | (.error e, n, rest) => (.error e, n, rest)

instance : Monad (Reader β ε) where
  pure := Reader.pure
  bind := Reader.bind

@[simp] theorem pure_apply (a : α) (bs : List β) : (pure a : Reader β ε α) bs = (.ok a, 0, bs) :=
  rfl

@[simp] theorem fail_apply (e : ε) (bs : List β) : (fail e : Reader β ε α) bs = (.error e, 0, bs) :=
  rfl

theorem bind_ok {r : Reader β ε α} {f : α → Reader β ε γ} {bs rest : List β} {a : α} {n : BitVec 32}
    (h : r bs = (.ok a, n, rest)) :
    (r >>= f) bs = ((f a rest).1, n + (f a rest).2.1, (f a rest).2.2) := by
  show Reader.bind r f bs = _
  rw [Reader.bind, h]

theorem bind_error {r : Reader β ε α} {f : α → Reader β ε γ} {bs rest : List β} {e : ε}
    {n : BitVec 32} (h : r bs = (.error e, n, rest)) : (r >>= f) bs = (.error e, n, rest) := by
  show Reader.bind r f bs = _
  rw [Reader.bind, h]

/-- What comes after depends on what is read only. -/
theorem bind_congr_apply {r r' : Reader β ε α} {f : α → Reader β ε γ} {bs : List β}
    (h : r bs = r' bs) : (r >>= f) bs = (r' >>= f) bs := by
  show Reader.bind r f bs = Reader.bind r' f bs
  rw [Reader.bind, Reader.bind, h]

/-! ### What a reader reads -/

/-- The count of a list. -/
def xfer (bs : List β) : BitVec 32 := BitVec.ofNat 32 bs.length

theorem xfer_append (bs cs : List β) : xfer (bs ++ cs) = xfer bs + xfer cs := by
  rw [xfer, List.length_append, BitVec.ofNat_add]
  rfl

/-- The reader takes exactly `bs`, and gives `res`. -/
def Reads (r : Reader β ε α) (bs : List β) (res : Except ε α) : Prop :=
  ∀ rest, r (bs ++ rest) = (res, xfer bs, rest)

variable {r : Reader β ε α} {f : α → Reader β ε γ} {bs cs : List β} {a : α}

theorem Reads.pure (a : α) : Reads (pure a : Reader β ε α) [] (.ok a) := fun _ => rfl

theorem Reads.fail (e : ε) : Reads (fail e : Reader β ε α) [] (.error e) := fun _ => rfl

/-- **One after the other.** -/
theorem Reads.bind {res : Except ε γ} (hr : Reads r bs (.ok a)) (hf : Reads (f a) cs res) :
    Reads (r >>= f) (bs ++ cs) res := by
  intro rest
  rw [List.append_assoc, bind_ok (hr (cs ++ rest)), hf rest, xfer_append]

/-- What comes after a failure is not run. -/
theorem Reads.bind_error {e : ε} (hr : Reads r bs (.error e)) : Reads (r >>= f) bs (.error e) :=
  fun rest => Reader.bind_error (hr rest)

/-- The last one reads nothing. -/
theorem Reads.bind_nil {res : Except ε γ} (hr : Reads r bs (.ok a)) (hf : Reads (f a) [] res) :
    Reads (r >>= f) bs res := by
  simpa using hr.bind hf

/-! ### Reading items -/

/-- `while (true)`: read an item, stop if there is none, and else take it in; in at most `fuel`
turns. -/
def readItemsIn (next : Reader β ε (Option ι)) (turn : σ → ι → Reader β ε σ) (late : ε) :
    ℕ → σ → Reader β ε σ
  | 0, _ => fail late
  | fuel + 1, s => do
    match ← next with
    | none => pure s
    | some i => readItemsIn next turn late fuel (← turn s i)

/-- Read items until there is none. A turn takes at least one symbol, so that there are fewer turns
with an item than there are symbols. -/
def readItems (next : Reader β ε (Option ι)) (turn : σ → ι → Reader β ε σ) (late : ε) (s : σ) :
    Reader β ε σ := fun bs =>
  readItemsIn next turn late (bs.length + 1) s bs

variable {next : Reader β ε (Option ι)} {turn : σ → ι → Reader β ε σ} {late : ε} {stop : List β}

section Items

variable (head body : κ → List β) (item : κ → ι) (take : σ → κ → σ) (ks : List κ)

theorem Reads.readItemsIn (hnext : ∀ k ∈ ks, Reads next (head k) (.ok (some (item k))))
    (hturn : ∀ k ∈ ks, ∀ s, Reads (turn s (item k)) (body k) (.ok (take s k)))
    (hstop : Reads next stop (.ok none)) {fuel : ℕ} (hf : ks.length < fuel) (s : σ) :
    Reads (readItemsIn next turn late fuel s) (ks.flatMap (fun k => head k ++ body k) ++ stop)
      (.ok (ks.foldl take s)) := by
  induction ks generalizing fuel s with
  | nil =>
    obtain ⟨fuel, rfl⟩ := Nat.exists_eq_add_of_lt hf
    exact hstop.bind_nil (Reads.pure s)
  | cons k ks ih =>
    obtain ⟨fuel, rfl⟩ : ∃ m, fuel = m + 1 := ⟨fuel - 1, by omega⟩
    have hrest := ih (fun j hj => hnext j (List.mem_cons_of_mem k hj))
      (fun j hj => hturn j (List.mem_cons_of_mem k hj))
      (Nat.lt_of_succ_lt_succ hf) (take s k)
    rw [List.flatMap_cons, List.append_assoc, List.append_assoc, List.foldl_cons]
    exact (hnext k List.mem_cons_self).bind ((hturn k List.mem_cons_self s).bind hrest)

/-- **What the loop reads**: the items, each told by its turn, and what says that there are no
more. -/
theorem Reads.readItems (hnext : ∀ k ∈ ks, Reads next (head k) (.ok (some (item k))))
    (hturn : ∀ k ∈ ks, ∀ s, Reads (turn s (item k)) (body k) (.ok (take s k)))
    (hstop : Reads next stop (.ok none)) (hpos : ∀ k ∈ ks, head k ≠ []) (s : σ) :
    Reads (readItems next turn late s) (ks.flatMap (fun k => head k ++ body k) ++ stop)
      (.ok (ks.foldl take s)) := by
  have hlen : ks.length ≤ (ks.flatMap fun k => head k ++ body k).length := by
    clear hnext hturn
    induction ks with
    | nil => exact Nat.zero_le _
    | cons k ks ih =>
      have hk := List.length_pos_of_ne_nil (hpos k List.mem_cons_self)
      have hks := ih fun j hj => hpos j (List.mem_cons_of_mem k hj)
      rw [List.flatMap_cons, List.length_append, List.length_append, List.length_cons]
      omega
  intro rest
  refine Reads.readItemsIn head body item take ks hnext hturn hstop ?_ s rest
  rw [List.length_append, List.length_append]
  omega

end Items

/-- Nothing is put back. -/
def Shrinks (r : Reader β ε α) : Prop := ∀ bs, (r bs).2.2.length ≤ bs.length

/-- A value, unless it is one of some, takes a symbol at least. -/
def Takes (r : Reader β ε α) (p : α → Prop) : Prop :=
  ∀ bs a n rest, r bs = (.ok a, n, rest) → p a → rest.length < bs.length

theorem Takes.mono {p : α → Prop} (h : Takes r fun _ => True) : Takes r p :=
  fun bs a n rest hr _ => h bs a n rest hr trivial

theorem Shrinks.pure (a : α) : Shrinks (pure a : Reader β ε α) := fun _ => Nat.le_refl _

theorem Shrinks.bind (hr : Shrinks r) (hf : ∀ a, Shrinks (f a)) : Shrinks (r >>= f) := by
  intro bs
  have h1 := hr bs
  rcases hres : r bs with ⟨e | a, n, rest⟩
  · rw [hres] at h1
    rw [Reader.bind_error hres]
    exact h1
  · rw [hres] at h1
    rw [bind_ok hres]
    exact Nat.le_trans (hf a rest) h1

theorem Shrinks.fail (e : ε) : Shrinks (fail e : Reader β ε α) := fun _ => Nat.le_refl _

theorem Shrinks.readItems (hnext : Shrinks next) (hturn : ∀ s i, Shrinks (turn s i)) (s : σ) :
    Shrinks (readItems next turn late s) := by
  have hall : ∀ fuel s, Shrinks (readItemsIn next turn late fuel s) := by
    intro fuel
    induction fuel with
    | zero => exact fun _ => Shrinks.fail late
    | succ fuel ih =>
      refine fun s => hnext.bind fun i => ?_
      cases i with
      | none => exact Shrinks.pure s
      | some i => exact (hturn s i).bind fun s => ih s
  exact fun bs => hall _ s bs

/-- What is read first makes the whole take something. -/
theorem Takes.bind {p : γ → Prop} (hr : Takes r fun _ => True) (hf : ∀ a, Shrinks (f a)) :
    Takes (r >>= f) p := by
  intro bs b n rest h _
  rcases hres : r bs with ⟨e | a, m, mid⟩
  · rw [Reader.bind_error hres] at h
    cases h
  · rw [bind_ok hres] at h
    have hle := hf a mid
    rw [(Prod.mk.inj (Prod.mk.inj h).2).2] at hle
    exact Nat.lt_of_le_of_lt hle (hr bs a m mid hres trivial)

/-- **The loop ends**, whatever the stream is: with more turns than there are symbols, it makes no
difference how many there are, nor what would be thrown for want of them. -/
theorem readItems_ends (hnext : Takes next (·.isSome = true)) (hturn : ∀ s i, Shrinks (turn s i))
    (late' : ε) {fuel : ℕ} {bs : List β} (hf : bs.length < fuel) (s : σ) :
    readItemsIn next turn late' fuel s bs = readItems next turn late s bs := by
  have hall : ∀ m m', bs.length < m → bs.length < m' →
      ∀ s, Reader.readItemsIn next turn late' m s bs =
      Reader.readItemsIn next turn late m' s bs := by
    intro m
    induction m generalizing bs with
    | zero => exact fun _ h => absurd h (Nat.not_lt_zero _)
    | succ m ih =>
      rintro (_ | m') hm hm' s
      · exact absurd hm' (Nat.not_lt_zero _)
      · rcases hn : next bs with ⟨_ | _ | i, n, rest⟩
        · rw [readItemsIn, readItemsIn, Reader.bind_error hn, Reader.bind_error hn]
        · rw [readItemsIn, readItemsIn, bind_ok hn, bind_ok hn]
        · rw [readItemsIn, readItemsIn, bind_ok hn, bind_ok hn]
          have hlt := hnext bs (some i) n rest hn rfl
          have hle := hturn s i rest
          rcases ht : turn s i rest with ⟨_ | s', n', rest'⟩
          · dsimp only
            rw [Reader.bind_error ht, Reader.bind_error ht]
          · rw [ht] at hle
            dsimp only at hle ⊢
            have hlt' : rest'.length < fuel := by omega
            rw [bind_ok ht, bind_ok ht, ih hlt' m' (by omega) (by omega) s']
  exact hall fuel (bs.length + 1) hf (Nat.lt_succ_self _) s

end Reader

end NetworkDemo.Foundations
