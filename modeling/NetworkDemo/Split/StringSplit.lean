import Mathlib.Data.BitVec
import Mathlib.Data.List.Basic

/-!
# Splitting a string

`string_split` looks for the delimiter from `start` on, puts the characters before it into the
output and goes on behind it. The last piece is found by looking for nothing: `end` is then
`npos`, and the piece is everything from `start` on, which may be the end of the string. The
guard of the loop is always true.

* `stringSplit_inverse` — splitting ends with the pieces whose join is the string, and is the
  inverse of joining.
-/

namespace NetworkDemo.Split

/-- `size_t`. -/
abbrev Size := BitVec 64

/-- `char`. -/
abbrev Byte := BitVec 8

/-- `std::string::npos`. -/
def npos : Size := -1

/-- A `std::string`, which is shorter than `npos`. -/
@[ext]
structure Str where
  chars : List Byte
  lt_npos : chars.length < npos.toNat

/-- What `substr` throws. -/
inductive Error where
  | outOfRange
  deriving DecidableEq

namespace Str

variable (s : Str)

/-- `size()`. -/
def size : Size := BitVec.ofNat 64 s.chars.length

/-- The `n` characters from `pos` on, or as many as there are. -/
def part (pos n : ℕ) : Str where
  chars := (s.chars.drop pos).take n
  lt_npos := by
    rw [List.length_take, List.length_drop]
    have hlt := s.lt_npos
    omega

@[simp] theorem chars_part (pos n : ℕ) : (s.part pos n).chars = (s.chars.drop pos).take n := rfl

/-- `substr(pos, n)`. -/
def substr (pos n : Size) : Except Error Str :=
  if s.size < pos then .error .outOfRange else .ok (s.part pos.toNat n.toNat)

/-- `find_first_of(delimiter, pos)`. -/
def findFirstOf (delimiter : Byte) (pos : Size) : Size :=
  match (s.chars.drop pos.toNat).idxOf? delimiter with
  | some k => pos + BitVec.ofNat 64 k
  | none => npos

end Str

/-- The loop of `string_split`, of at most as many turns as the first number says. -/
def splitLoop (s : Str) (delimiter : Byte) :
    ℕ → Size → Size → List Str → Option (Except Error (List Str))
  | 0, _, _, _ => none
  | turns + 1, start, stop, output =>
    if stop ≤ npos then
      match s.substr start (stop - start) with
      | .error e => some (.error e)
      | .ok piece =>
        let output := output ++ [piece]
        if stop = npos then some (.ok output)
        else
          let start := stop + 1
          splitLoop s delimiter turns start (s.findFirstOf delimiter start) output
    else some (.ok output)

/-- `string_split`, in so many turns. -/
def stringSplit (turns : ℕ) (s : Str) (delimiter : Byte) : Option (Except Error (List Str)) :=
  splitLoop s delimiter turns 0 (s.findFirstOf delimiter 0) []

variable {s : Str} {d : Byte}

/-! ### The library -/

theorem toNat_npos : npos.toNat = 2 ^ 64 - 1 := by decide

theorem le_npos (n : Size) : n ≤ npos := by
  have hlt := n.isLt
  rw [BitVec.le_def, toNat_npos]
  omega

theorem Str.toNat_size : s.size.toNat = s.chars.length := by
  have hlt := s.lt_npos
  rw [toNat_npos] at hlt
  rw [size, BitVec.toNat_ofNat, Nat.mod_eq_of_lt (by omega)]

/-- There is no error from the end of the string. -/
theorem Str.substr_eq {pos n : Size} (h : pos.toNat ≤ s.chars.length) :
    s.substr pos n = .ok (s.part pos.toNat n.toNat) := by
  refine if_neg fun hlt => ?_
  rw [BitVec.lt_def, toNat_size] at hlt
  omega

theorem idxOf?_append {xs ys : List Byte} (h : d ∉ xs) :
    (xs ++ d :: ys).idxOf? d = some xs.length := by
  induction xs with
  | nil => simp [List.idxOf?_cons]
  | cons x xs ih =>
    have hx : ¬ x = d := fun hx => h (hx ▸ List.mem_cons_self)
    have hxs : d ∉ xs := fun hd => h (List.mem_cons_of_mem x hd)
    simp [List.idxOf?_cons, hx, ih hxs]

/-- The delimiter is not found, or it is behind `xs`. -/
theorem Str.findFirstOf_cases {pos : Size} (h : pos.toNat ≤ s.chars.length) :
    (d ∉ s.chars.drop pos.toNat ∧ s.findFirstOf d pos = npos) ∨
      ∃ xs ys, s.chars.drop pos.toNat = xs ++ d :: ys ∧ d ∉ xs ∧
        (s.findFirstOf d pos).toNat = pos.toNat + xs.length ∧
          pos.toNat + xs.length < s.chars.length := by
  by_cases hd : d ∈ s.chars.drop pos.toNat
  · obtain ⟨xs, ys, hxy, hxs⟩ := List.eq_append_cons_of_mem hd
    have hlen := congrArg List.length hxy
    rw [List.length_drop, List.length_append, List.length_cons] at hlen
    have hlt := s.lt_npos
    rw [toNat_npos] at hlt
    refine .inr ⟨xs, ys, hxy, hxs, ?_, by omega⟩
    rw [findFirstOf, hxy, idxOf?_append hxs]
    dsimp only
    rw [BitVec.toNat_add, BitVec.toNat_ofNat]
    omega
  · refine .inl ⟨hd, ?_⟩
    rw [findFirstOf, List.idxOf?_eq_none_iff.mpr hd]

/-! ### The loop -/

/-- From `start` on the loop finds what the rest of the string is split into. -/
theorem splitLoop_eq (turns : ℕ) (start : Size) (output : List Str)
    (hstart : start.toNat ≤ s.chars.length) (hturns : s.chars.length - start.toNat < turns) :
    ∃ pieces : List Str, splitLoop s d turns start (s.findFirstOf d start) output = some
      (.ok (output ++ pieces)) ∧
      pieces.map Str.chars = (s.chars.drop start.toNat).splitOn d := by
  induction turns generalizing start output with
  | zero => exact absurd hturns (Nat.not_lt_zero _)
  | succ turns ih =>
    rw [splitLoop, if_pos (le_npos _), Str.substr_eq hstart]
    dsimp only
    rcases Str.findFirstOf_cases (d := d) hstart with ⟨hnone, hstop⟩ | ⟨xs, ys, hxy,
      hxs, hstop, hlt⟩
    · -- the last piece
      rw [if_pos hstop]
      refine ⟨[s.part start.toNat (s.findFirstOf d start - start).toNat], rfl, ?_⟩
      have hle : (s.chars.drop start.toNat).length ≤ (npos - start).toNat := by
        have hs := s.lt_npos
        rw [List.length_drop, BitVec.toNat_sub_of_le (le_npos _)]
        omega
      rw [List.splitOn_eq_singleton hnone, List.map_singleton, Str.chars_part, hstop,
        List.take_of_length_le hle]
    · have hs := s.lt_npos
      rw [toNat_npos] at hs
      have hnot : ¬ s.findFirstOf d start = npos := by
        intro h
        rw [h, toNat_npos] at hstop
        omega
      have hnext : (s.findFirstOf d start + 1).toNat = start.toNat + xs.length + 1 := by
        have hone : (1 : Size).toNat = 1 := rfl
        rw [BitVec.toNat_add, hstop, hone]
        omega
      have hpiece : (s.part start.toNat (s.findFirstOf d start - start).toNat).chars = xs := by
        have hsub : (s.findFirstOf d start - start).toNat = xs.length := by
          rw [BitVec.toNat_sub_of_le (BitVec.le_def.mpr (by omega)), hstop]
          omega
        rw [Str.chars_part, hxy, hsub, List.take_left]
      have hrest : s.chars.drop (start.toNat + xs.length + 1) = ys := by
        rw [Nat.add_assoc, ← List.drop_drop, hxy, ← List.drop_drop, List.drop_left]
        rfl
      rw [if_neg hnot]
      obtain ⟨pieces, hloop, hpieces⟩ := ih (s.findFirstOf d start + 1)
        (output ++ [s.part start.toNat (s.findFirstOf d start - start).toNat]) (by omega) (by omega)
      refine ⟨s.part start.toNat (s.findFirstOf d start - start).toNat :: pieces, ?_, ?_⟩
      · rw [hloop, List.append_assoc, List.singleton_append]
      · rw [List.map_cons, hpiece, hpieces, hnext, hrest, hxy,
          List.splitOn_append_cons_self_of_not_mem hxs]

/-! ### Splitting and joining -/

/-- No piece has the delimiter. -/
theorem not_mem_of_mem_splitOn {xs l : List Byte} (hl : l ∈ xs.splitOn d) : d ∉ l := by
  induction xs generalizing l with
  | nil =>
    rw [List.splitOn_nil, List.mem_singleton] at hl
    rw [hl]
    exact List.not_mem_nil
  | cons x xs ih =>
    rw [List.splitOn_cons_eq_if_modifyHead] at hl
    split at hl
    · rcases List.mem_cons.mp hl with rfl | hl
      · exact List.not_mem_nil
      · exact ih hl
    · rename_i hx
      obtain ⟨first, rest, hsplit⟩ := List.exists_cons_of_ne_nil (List.splitOn_ne_nil d xs)
      rw [hsplit] at hl ih
      rcases List.mem_cons.mp hl with rfl | hl
      · intro hd
        rcases List.mem_cons.mp hd with rfl | hd
        · exact hx (beq_self_eq_true d)
        · exact ih List.mem_cons_self hd
      · exact ih (List.mem_cons_of_mem first hl)

/-- As many turns as there are characters, and one more, are enough. -/
theorem stringSplit_eq {turns : ℕ} {pieces : List Str} (hturns : s.chars.length < turns)
    (hpieces : pieces.map Str.chars = s.chars.splitOn d) :
    stringSplit turns s d = some (.ok pieces) := by
  obtain ⟨found, hloop, hfound⟩ := splitLoop_eq (s := s) (d := d) turns 0 [] (Nat.zero_le _)
    (Nat.lt_of_le_of_lt (Nat.sub_le _ _) hturns)
  have hinj : Function.Injective (List.map Str.chars) :=
    List.map_injective_iff.mpr fun _ _ => Str.ext
  have hsame : found = pieces := hinj (hfound.trans hpieces.symm)
  rw [stringSplit, hloop, hsame, List.nil_append]

theorem exists_pieces (s : Str) (d : Byte) :
    ∃ pieces : List Str, pieces.map Str.chars = s.chars.splitOn d := by
  obtain ⟨pieces, -, hpieces⟩ :=
    splitLoop_eq (s := s) (d := d) _ 0 [] (Nat.zero_le _) (Nat.lt_succ_self _)
  exact ⟨pieces, hpieces⟩

/-- **Splitting and joining are inverse**: splitting ends without an error, with pieces that do not
have the delimiter and whose join is the string, and strings without the delimiter are what their
join is split into. -/
theorem stringSplit_inverse (d : Byte) :
    (∀ s : Str, ∃ pieces : List Str,
      (∀ turns, s.chars.length < turns → stringSplit turns s d = some (.ok pieces)) ∧
      pieces ≠ [] ∧ (∀ piece ∈ pieces, d ∉ piece.chars) ∧
        [d].intercalate (pieces.map Str.chars) = s.chars) ∧
    ∀ (pieces : List Str) (s : Str), pieces ≠ [] → (∀ piece ∈ pieces, d ∉ piece.chars) →
      [d].intercalate (pieces.map Str.chars) = s.chars →
        ∀ turns, s.chars.length < turns → stringSplit turns s d = some (.ok pieces) := by
  constructor
  · intro s
    obtain ⟨pieces, hpieces⟩ := exists_pieces s d
    refine ⟨pieces, fun turns hturns => stringSplit_eq hturns hpieces, ?_, fun piece hp => ?_, ?_⟩
    · rintro rfl
      exact List.splitOn_ne_nil d s.chars hpieces.symm
    · exact not_mem_of_mem_splitOn (hpieces ▸ List.mem_map_of_mem hp)
    · rw [hpieces, List.intercalate_splitOn]
  · intro pieces s hne hfree hjoin turns hturns
    refine stringSplit_eq hturns ?_
    rw [← hjoin, List.splitOn_intercalate]
    · intro l hl
      obtain ⟨piece, hp, rfl⟩ := List.mem_map.mp hl
      exact hfree piece hp
    · intro hnil
      exact hne (List.map_eq_nil_iff.mp hnil)

/-- A delimiter first, two next to each other, and one last. -/
theorem stringSplit_inverse_empty :
    stringSplit 6 ⟨[44, 97, 44, 44], by decide⟩ 44 =
      some (.ok [⟨[], by decide⟩, ⟨[97], by decide⟩, ⟨[], by decide⟩, ⟨[], by decide⟩]) :=
  (stringSplit_inverse 44).2 _ _ (List.cons_ne_nil _ _) (by decide) rfl 6 (by decide)

end NetworkDemo.Split
