import Mathlib.Data.List.TakeWhile

/-!
# The output of a command

`exeCmd` runs a command in a shell and collects what it prints, line by line: `fgets` fills a buffer
of 1024 characters, less one, up to the end of a line, and the buffer is appended as a C string. A
line may be longer than the buffer and come in pieces; a NUL in it ends the C string; and a piece
that begins with a NUL is taken for the end of the output.

* `exeCmd_iff` — the loop ends; nothing before the first NUL is lost, nothing is added, and all of
  the output is there if and only if it has no NUL.
-/

namespace NetworkDemo.SysCmd

/-- A character. -/
abbrev Byte := BitVec 8

/-- The characters that `fgets` stores, of a stream and at most so many, and what it leaves in the
stream. -/
def fgetsChars : ℕ → List Byte → List Byte × List Byte
  | 0, stream => ([], stream)
  | _ + 1, [] => ([], [])
  | n + 1, c :: stream =>
    if c = 10 then ([c], stream)
    else
      let r := fgetsChars n stream
      (c :: r.1, r.2)

/-- `fgets(line, size, fp)`, which leaves one character of the buffer for the NUL. -/
def fgets (size : ℕ) (stream : List Byte) : Option (List Byte × List Byte) :=
  if stream = [] then none else some (fgetsChars (size - 1) stream)

/-- What a buffer is as a C string. -/
def cString (line : List Byte) : List Byte := line.takeWhile (· ≠ 0)

/-- `sizeof(line)`. -/
def lineSize : ℕ := 1024

/-- The loop of `exeCmd`, for at most so many turns. -/
def exeLoop : ℕ → List Byte → List Byte → Option (List Byte)
  | 0, _, _ => none
  | turns + 1, fp, ss =>
    match fgets (lineSize - 1) fp with
    | none => some ss
    | some (line, rest) =>
      if cString line = [] then some ss else exeLoop turns rest (ss ++ cString line)

/-- `exeCmd(cmd)`, of a command that prints `popen`; without one the program exits with 1. -/
def exeCmd (turns : ℕ) (popen : Option (List Byte)) : Option (Except ℕ (List Byte)) :=
  match popen with
  | none => some (.error 1)
  | some fp => (exeLoop turns fp []).map .ok

variable {line rest fp ss : List Byte} {n turns : ℕ}

/-! ### Lines -/

/-- What is stored and what is left are the stream. -/
theorem fgetsChars_append (n : ℕ) (fp : List Byte) :
    (fgetsChars n fp).1 ++ (fgetsChars n fp).2 = fp := by
  induction n generalizing fp with
  | zero => rfl
  | succ n ih =>
    cases fp with
    | nil => rfl
    | cons c fp =>
      unfold fgetsChars
      split_ifs
      · rfl
      · exact congrArg (c :: ·) (ih fp)

theorem fgetsChars_ne_nil {c : Byte} : (fgetsChars (n + 1) (c :: fp)).1 ≠ [] := by
  unfold fgetsChars
  split_ifs <;> simp

/-- A call of `fgets` that reads something. -/
theorem fgets_some (h : fgets (lineSize - 1) fp = some (line, rest)) :
    line ++ rest = fp ∧ line ≠ [] := by
  unfold fgets at h
  split_ifs at h with hne
  have hline := Option.some.inj h
  have happend := fgetsChars_append 1022 fp
  rw [show fgetsChars 1022 fp = (line, rest) from hline] at happend
  refine ⟨happend, ?_⟩
  obtain ⟨c, fp, rfl⟩ := List.exists_cons_of_ne_nil hne
  have hne : (fgetsChars 1022 (c :: fp)).1 ≠ [] := fgetsChars_ne_nil
  rwa [show fgetsChars 1022 (c :: fp) = (line, rest) from hline] at hne

theorem zero_not_mem_cString (line : List Byte) : 0 ∉ cString line := fun h => by
  simpa using List.mem_takeWhile_imp h

theorem cString_sublist (line : List Byte) : (cString line).Sublist line :=
  (List.takeWhile_prefix _).sublist

theorem cString_of_not_mem (h : 0 ∉ line) : cString line = line :=
  List.takeWhile_eq_self_iff.mpr fun c hc => by
    simp only [decide_eq_true_eq]
    rintro rfl
    exact h hc

/-- The C string of a stream goes on behind a line without a NUL, and ends in a line with one. -/
theorem cString_append : cString (line ++ rest) = if 0 ∈ line then cString line
    else line ++ cString rest := by
  induction line with
  | nil => rfl
  | cons c line ih =>
    unfold cString at ih ⊢
    rw [List.cons_append, List.takeWhile_cons, List.takeWhile_cons, ih]
    by_cases hc : c = 0
    · simp [hc]
    · simp only [List.mem_cons, Ne.symm hc, false_or, ne_eq, hc, not_false_eq_true,
        decide_true, if_true]
      split_ifs <;> rfl

/-! ### The loop -/

/-- **The loop ends**, and has collected what is before the first NUL, and nothing that was not
there. -/
theorem exeLoop_eq (hturns : fp.length < turns) (ss : List Byte) :
    ∃ s, exeLoop turns fp ss = some (ss ++ s) ∧
    cString fp <+: s ∧ s.Sublist fp ∧ 0 ∉ s := by
  induction turns generalizing fp ss with
  | zero => exact absurd hturns (Nat.not_lt_zero _)
  | succ turns ih =>
    unfold exeLoop
    cases hget : fgets (lineSize - 1) fp with
    | none =>
      have hnil : fp = [] := by
        unfold fgets at hget
        split_ifs at hget with h
        exact h
      subst hnil
      exact ⟨[], by simp, List.nil_prefix, .slnil, by simp⟩
    | some r =>
      obtain ⟨line, rest⟩ := r
      obtain ⟨happend, hne⟩ := fgets_some hget
      dsimp only
      split_ifs with hempty
      · -- the line begins with a NUL
        have hmem : 0 ∈ line := by
          by_contra h0
          exact hne ((cString_of_not_mem h0).symm.trans hempty)
        have hnil : cString fp = [] := by rw [← happend, cString_append, if_pos hmem, hempty]
        exact ⟨[], by simp, List.prefix_nil.mpr hnil, List.nil_sublist _, by simp⟩
      · have hlen : rest.length < turns := by
          have := congrArg List.length happend
          have := List.length_pos_iff.mpr hne
          rw [List.length_append] at *
          omega
        obtain ⟨s, hs, hprefix, hsub, h0⟩ := ih hlen (ss ++ cString line)
        refine ⟨cString line ++ s, by rw [hs, List.append_assoc], ?_, ?_, ?_⟩
        · rw [← happend, cString_append]
          split_ifs with hmem
          · exact List.prefix_append _ _
          · rw [cString_of_not_mem hmem]
            exact (List.prefix_append_right_inj line).mpr hprefix
        · rw [← happend]
          exact (cString_sublist line).append hsub
        · rw [List.mem_append, not_or]
          exact ⟨zero_not_mem_cString line, h0⟩

/-- **The output of a command** is what `exeCmd` collects if and only if it has no NUL; otherwise
that is all before the first NUL, and more of the output or not, without the NULs. -/
theorem exeCmd_iff (hturns : fp.length < turns) : ∃ s, exeCmd turns (some fp) = some (.ok s) ∧
    (s = fp ↔ 0 ∉ fp) ∧ cString fp <+: s ∧ s.Sublist fp ∧ 0 ∉ s := by
  obtain ⟨s, hs, hprefix, hsub, h0⟩ := exeLoop_eq hturns []
  rw [List.nil_append] at hs
  refine ⟨s, by rw [exeCmd, hs]; rfl, ⟨fun he => he ▸ h0, fun hnot => ?_⟩, hprefix, hsub, h0⟩
  rw [cString_of_not_mem hnot] at hprefix
  exact hsub.eq_of_length_le hprefix.length_le

/-- Two lines, and what is behind a NUL in the second. -/
theorem exeCmd_iff_lines :
    ∃ s, exeCmd 6 (some [65, 10, 66, 0, 67]) = some (.ok s) ∧ s = [65, 10, 66] ∧
    (s = [65, 10, 66, 0, 67] ↔ 0 ∉ ([65, 10, 66, 0, 67] : List Byte)) := by
  obtain ⟨s, hs, hiff, -⟩ := exeCmd_iff (show [65, 10, 66, 0, 67].length < 6 by decide)
  exact ⟨s, hs, (Except.ok.inj (Option.some.inj hs)).symm, hiff⟩

end NetworkDemo.SysCmd
