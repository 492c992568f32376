import Mathlib.Logic.Function.Basic
import Mathlib.Data.List.Perm.Basic

/-!
# Interleaved programs

A `Prog` is a program as its atomic acts: each act changes a store, and what comes next may
depend on what the store was. Run alone a program takes its acts one after the other (`run`);
among others it takes them whenever it is its turn.

A store has places. A program's footprint says which places it reads and which it changes,
and two footprints are *apart* if neither changes what the other uses. Programs whose footprints
are apart do not notice each other: run one after the other they give the same in either
order (`Keeps.comm`), and the acts of several programs, taken in any order at all, lead to where
the programs lead when run one after the other. That is said by `settle`, the store that
comes out when what is left of every program is run to its end: an act does not change it
(`settle_act`), and a program that begins is added to it as a whole (`settle_begin`).
-/

namespace NetworkDemo.Foundations

/-! ### Programs -/

/-- A program that gives a `ρ`. -/
inductive Prog (σ ρ : Type) where
  /-- Nothing is left to do. -/
  | ret (x : ρ)
  /-- An atomic act; what comes next depends on the store before it. -/
  | act (f : σ → σ) (next : σ → Prog σ ρ)

namespace Prog

variable {σ ρ τ α κ : Type}

/-- One program after the other. -/
protected def bind : Prog σ ρ → (ρ → Prog σ τ) → Prog σ τ
  | ret x, k => k x
  | act f next, k => act f fun s => (next s).bind k

instance : Monad (Prog σ) where
  pure := ret
  bind := Prog.bind

/-- Read the store. -/
def read (g : σ → α) : Prog σ α := act id fun s => ret (g s)

/-- Change the store. -/
def write (f : σ → σ) : Prog σ Unit := act f fun _ => ret ()

/-- Run alone: what it gives, and the store after it. -/
def run : Prog σ ρ → σ → ρ × σ
  | ret x, s => (x, s)
  | act f next, s => (next s).run (f s)

/-- How many acts that takes. -/
def steps : Prog σ ρ → σ → ℕ
  | ret _, _ => 0
  | act f next, s => (next s).steps (f s) + 1

@[simp] theorem run_pure (x : ρ) (s : σ) : (pure x : Prog σ ρ).run s = (x, s) := rfl

@[simp] theorem run_read (g : σ → α) (s : σ) : (read g).run s = (g s, s) := rfl

@[simp] theorem run_write (f : σ → σ) (s : σ) : (write f).run s = ((), f s) := rfl

@[simp] theorem run_bind (p : Prog σ ρ) (k : ρ → Prog σ τ) (s : σ) :
    (p >>= k).run s = (k (p.run s).1).run (p.run s).2 := by
  induction p generalizing s with
  | ret x => rfl
  | act f next ih => exact ih s (f s)

/-- A loop is run turn by turn. -/
theorem run_foldlM (body : ρ → κ → Prog σ ρ) (ks : List κ) (r : ρ) (s : σ) :
    (ks.foldlM body r).run s = ks.foldl (fun p k => (body p.1 k).run p.2) (r, s) := by
  induction ks generalizing r s with
  | nil => rfl
  | cons k ks ih => rw [List.foldlM_cons, run_bind, ih, List.foldl_cons]

end Prog

/-! ### Footprints -/

section Footprints

variable {ι ρ τ α κ : Type} {V : ι → Type}

/-- What a program reads, and what it changes. -/
structure Footprint (ι : Type) where
  reads : ι → Prop
  writes : ι → Prop

variable {F G : Footprint ι}

/-- The places it reads or changes. -/
def Footprint.Uses (F : Footprint ι) (i : ι) : Prop := F.reads i ∨ F.writes i

/-- Neither changes what the other uses. -/
def Footprint.Apart (F G : Footprint ι) : Prop :=
  (∀ i, F.writes i → ¬ G.Uses i) ∧ ∀ i, G.writes i → ¬ F.Uses i

theorem Footprint.Apart.symm (h : F.Apart G) : G.Apart F := ⟨h.2, h.1⟩

/-- Two stores agree at some places. -/
def AgreeOn (I : ι → Prop) (m m' : ∀ i, V i) : Prop := ∀ i, I i → m i = m' i

/-- A change of places of the footprint, by what is at places of the footprint. -/
structure Keeps (F : Footprint ι) (f : (∀ i, V i) → ∀ i, V i) : Prop where
  frame : ∀ m i, ¬ F.writes i → f m i = m i
  reads : ∀ m m', AgreeOn F.Uses m m' → AgreeOn F.writes (f m) (f m')

variable {f g : (∀ i, V i) → ∀ i, V i} {m m' : ∀ i, V i}

theorem Keeps.agree (h : Keeps F f) (hm : AgreeOn F.Uses m m') :
    AgreeOn F.Uses (f m) (f m') := fun i hi => by
  by_cases hw : F.writes i
  · exact h.reads m m' hm i hw
  · rw [h.frame m i hw, h.frame m' i hw, hm i hi]

/-- A change does not touch what a footprint apart from its own uses. -/
theorem Keeps.agree_apart (h : Keeps F f) (hFG : F.Apart G) (m : ∀ i, V i) :
    AgreeOn G.Uses (f m) m :=
  fun i hi => h.frame m i fun hw => hFG.1 i hw hi

/-- **Changes that are apart commute.** -/
theorem Keeps.comm (hf : Keeps F f) (hg : Keeps G g) (h : F.Apart G) (m : ∀ i, V i) :
    f (g m) = g (f m) := by
  funext i
  by_cases hF : F.writes i
  · have hG : ¬ G.writes i := fun hw => h.1 i hF (.inr hw)
    rw [hg.frame (f m) i hG]
    exact hf.reads _ _ (hg.agree_apart h.symm m) i hF
  · rw [hf.frame (g m) i hF]
    by_cases hG : G.writes i
    · exact (hg.reads _ _ (hf.agree_apart h m) i hG).symm
    · rw [hg.frame m i hG, hg.frame (f m) i hG, hf.frame m i hF]

/-- The acts of the program keep to the footprint. -/
def Prog.Within (F : Footprint ι) : Prog (∀ i, V i) ρ → Prop
  | .ret _ => True
  | .act f next =>
    Keeps F f ∧ (∀ m m', AgreeOn F.Uses m m' → next m = next m') ∧ ∀ m, (next m).Within F

namespace Prog.Within

variable {p : Prog (∀ i, V i) ρ}

theorem pure (x : ρ) : (Pure.pure x : Prog (∀ i, V i) ρ).Within F := trivial

theorem bind {k : ρ → Prog (∀ i, V i) τ} (hp : p.Within F) (hk : ∀ x, (k x).Within F) :
    (p >>= k).Within F := by
  induction p with
  | ret x => exact hk x
  | act f next ih =>
    obtain ⟨hf, hnext, hrest⟩ := hp
    refine ⟨hf, fun m m' hm => ?_, fun m => ih m (hrest m)⟩
    show (next m).bind k = (next m').bind k
    rw [hnext m m' hm]

theorem foldlM {body : ρ → κ → Prog (∀ i, V i) ρ} {ks : List κ}
    (h : ∀ k ∈ ks, ∀ r, (body r k).Within F) (r : ρ) :
    (ks.foldlM body r).Within F := by
  induction ks generalizing r with
  | nil => exact trivial
  | cons k ks ih =>
    rw [List.foldlM_cons]
    exact (h k List.mem_cons_self r).bind fun r =>
      ih (fun j hj => h j (List.mem_cons_of_mem k hj)) r

theorem read {g : (∀ i, V i) → α} (h : ∀ m m', AgreeOn F.Uses m m' → g m = g m') :
    (Prog.read g).Within F :=
  ⟨⟨fun _ _ _ => rfl, fun _ _ hm i hi => hm i (.inr hi)⟩,
    fun m m' hm => congrArg Prog.ret (h m m' hm), fun _ => trivial⟩

theorem write (h : Keeps F f) : (Prog.write f).Within F := ⟨h, fun _ _ _ => rfl, fun _ => trivial⟩

/-- Stores that agree on the footprint are all the same to the program. -/
theorem agree (h : p.Within F) (hm : AgreeOn F.Uses m m') :
    (p.run m).1 = (p.run m').1 ∧ AgreeOn F.Uses (p.run m).2
    (p.run m').2 ∧ p.steps m = p.steps m' := by
  induction p generalizing m m' with
  | ret x => exact ⟨rfl, hm, rfl⟩
  | act f next ih =>
    obtain ⟨hf, hnext, hrest⟩ := h
    obtain ⟨h1, h2, h3⟩ := ih m' (hrest m') (hf.agree hm)
    simp only [Prog.run, Prog.steps, hnext m m' hm]
    exact ⟨h1, h2, by rw [h3]⟩

/-- Run alone, the program is one big act. -/
theorem keeps (h : p.Within F) : Keeps F fun m => (p.run m).2 where
  frame m i hi := by
    induction p generalizing m with
    | ret x => rfl
    | act f next ih => exact (ih m (h.2.2 m) (f m)).trans (h.1.frame m i hi)
  reads _ _ hm i hi := (h.agree hm).2.1 i (.inr hi)

end Prog.Within

end Footprints

/-! ### Several programs -/

section Pool

variable {ι : Type} {V : ι → Type} {ts ts' : List ℕ} {rest rest' : ℕ → Prog (∀ i, V i) Unit}
    {foot : ℕ → Footprint ι}
  {f : (∀ i, V i) → ∀ i, V i} {next : (∀ i, V i) → Prog (∀ i, V i) Unit} {p : Prog (∀ i, V i) Unit}
  {m : ∀ i, V i} {t : ℕ}

/-- The programs of some threads keep to footprints that are apart. -/
structure Independent (ts : List ℕ) (rest : ℕ → Prog (∀ i, V i) Unit) (foot : ℕ → Footprint ι) :
    Prop where
  within : ∀ t ∈ ts, (rest t).Within (foot t)
  apart : ∀ t ∈ ts, ∀ u ∈ ts, t ≠ u → (foot t).Apart (foot u)

/-- The store when what is left of the programs has been run. -/
def settle (ts : List ℕ) (rest : ℕ → Prog (∀ i, V i) Unit) (m : ∀ i, V i) : ∀ i, V i :=
  ts.foldl (fun m t => ((rest t).run m).2) m

/-- The order of the programs does not matter. -/
theorem settle_perm (h : Independent ts rest foot) (hp : ts.Perm ts') (m : ∀ i, V i) :
    settle ts rest m = settle ts' rest m := by
  refine hp.foldl_eq' (fun t ht u hu m => ?_) m
  by_cases htu : t = u
  · rw [htu]
  · exact (h.within u hu).keeps.comm (h.within t ht).keeps (h.apart u hu t ht (Ne.symm htu)) m

theorem settle_congr (h : ∀ t ∈ ts, rest t = rest' t) (m : ∀ i, V i) :
    settle ts rest m = settle ts rest' m :=
  List.foldl_ext _ _ _ fun m t ht => by rw [h t ht]

theorem settle_ret (h : ∀ t ∈ ts, rest t = .ret ()) (m : ∀ i, V i) : settle ts rest m = m := by
  induction ts with
  | nil => rfl
  | cons t ts ih =>
    have hrun : ((rest t).run m).2 = m := by
      rw [h t List.mem_cons_self]
      rfl
    show settle ts rest ((rest t).run m).2 = m
    rw [hrun]
    exact ih fun u hu => h u (List.mem_cons_of_mem t hu)

/-- A thread's program is replaced by one that keeps to the thread's footprint as well. -/
theorem Independent.update (h : Independent ts rest foot) (hp : p.Within (foot t)) :
    Independent ts (Function.update rest t p) foot := by
  refine ⟨fun u hu => ?_, h.apart⟩
  by_cases hut : u = t
  · rw [hut, Function.update_self]
    exact hp
  · rw [Function.update_of_ne hut]
    exact h.within u hu

/-- **An act of one of the programs** does not change where they lead. -/
theorem settle_act (h : Independent ts rest foot) (hd : ts.Nodup) (ht : t ∈ ts)
    (hr : rest t = .act f next) (m : ∀ i, V i) :
    settle ts (Function.update rest t (next m)) (f m) = settle ts rest m := by
  have hin := h.within t ht
  rw [hr] at hin
  have hperm : ts.Perm (t :: ts.erase t) := List.perm_cons_erase ht
  have hne : ∀ u ∈ ts.erase t, u ≠ t := fun u hu hut => (hd.mem_erase_iff.mp hu).1 hut
  rw [settle_perm (h.update (hin.2.2 m)) hperm, settle_perm h hperm]
  show settle (ts.erase t) (Function.update rest t (next m))
      ((Function.update rest t (next m) t).run (f m)).2 =
    settle (ts.erase t) rest ((rest t).run m).2
  rw [Function.update_self, hr, settle_congr fun u hu => Function.update_of_ne (hne u hu) _ _]
  rfl

/-- **A program that begins** is run when the others have been. -/
theorem settle_begin (h : Independent ts (Function.update rest t p) foot) (hd : ts.Nodup)
    (ht : t ∈ ts) (hr : rest t = .ret ()) (m : ∀ i, V i) :
    settle ts (Function.update rest t p) m = (p.run (settle ts rest m)).2 := by
  have hold : Independent ts rest foot := by
    have := h.update (t := t) (p := .ret ()) trivial
    rwa [Function.update_idem, ← hr, Function.update_eq_self] at this
  have hperm : ts.Perm (ts.erase t ++ [t]) :=
    (List.perm_cons_erase ht).trans (List.perm_append_singleton t _).symm
  have hne : ∀ u ∈ ts.erase t, u ≠ t := fun u hu hut => (hd.mem_erase_iff.mp hu).1 hut
  rw [settle_perm h hperm, settle_perm hold hperm]
  show (ts.erase t ++ [t]).foldl _ m = (p.run ((ts.erase t ++ [t]).foldl _ m)).2
  rw [List.foldl_append, List.foldl_append]
  show ((Function.update rest t p t).run (settle (ts.erase t) (Function.update rest t p) m)).2 =
    (p.run ((rest t).run (settle (ts.erase t) rest m)).2).2
  rw [Function.update_self, hr, settle_congr fun u hu => Function.update_of_ne (hne u hu) _ _]
  rfl

end Pool

end NetworkDemo.Foundations
