import Mathlib.Data.List.Basic
import Mathlib.Data.List.TakeWhile
import SymbolicAlgebra.Text.Blank

/-!
# Runs, trimming and lines

A run ends where the next character is not one of its own, so skipping a run in front of a text that
begins otherwise gives that text. Trimming is skipping at both ends. The lines of two texts with a
line break between them are the lines of the one and those of the other.
-/

namespace SymbolicAlgebra.Text

section Runs

variable {p : Char → Bool} {run cs : List Char}

/-- The text does not go on with a character of the kind. -/
def Leaves (p : Char → Bool) (cs : List Char) : Prop := ∀ c ∈ cs.head?, p c = false

theorem leaves_append_cons (hrun : ∀ c ∈ run, p c = false) {c : Char} (hc : p c = false) :
    Leaves p (run ++ c :: cs) := by
  intro d hd
  cases run with
  | nil =>
    obtain rfl : c = d := by simpa using hd
    exact hc
  | cons e run =>
    obtain rfl : e = d := by simpa using hd
    exact hrun e List.mem_cons_self

theorem dropWhile_of_leaves (h : Leaves p cs) : cs.dropWhile p = cs := by
  cases cs with
  | nil => rfl
  | cons c cs => exact List.dropWhile_cons_of_neg (by simp [h c rfl])

theorem takeWhile_of_leaves (h : Leaves p cs) : cs.takeWhile p = [] := by
  cases cs with
  | nil => rfl
  | cons c cs => exact List.takeWhile_cons_of_neg (by simp [h c rfl])

theorem dropWhile_append (hrun : ∀ c ∈ run, p c = true) (hcs : Leaves p cs) :
    (run ++ cs).dropWhile p = cs := by
  rw [List.dropWhile_append_of_pos hrun, dropWhile_of_leaves hcs]

theorem takeWhile_append (hrun : ∀ c ∈ run, p c = true) (hcs : Leaves p cs) :
    (run ++ cs).takeWhile p = run := by
  rw [List.takeWhile_append_of_pos hrun, takeWhile_of_leaves hcs, List.append_nil]

end Runs

section Trimming

variable {left body right : List Char}

def Blank (cs : List Char) : Prop := ∀ c ∈ cs, isBlank c = true

theorem blank_nil : Blank [] := by simp [Blank]

/-- Neither empty nor with a blank at one of its ends. -/
structure Trimmed (body : List Char) : Prop where
  ne_nil : body ≠ []
  head : ∀ c ∈ body.head?, isBlank c = false
  last : ∀ c ∈ body.getLast?, isBlank c = false

theorem Trimmed.leaves (h : Trimmed body) (right : List Char) : Leaves isBlank (body ++ right) := by
  intro c hc
  rw [List.head?_append_of_ne_nil _ h.ne_nil] at hc
  exact h.head c hc

theorem trimRight_append (hright : Blank right) (h : Trimmed body) :
    trimRight (body ++ right) = body := by
  have hlast : Leaves isBlank body.reverse := by
    intro c hc
    rw [List.head?_reverse] at hc
    exact h.last c hc
  have hrun : ∀ c ∈ right.reverse, isBlank c = true :=
    fun c hc => hright c (List.mem_reverse.mp hc)
  rw [trimRight, List.reverse_append, dropWhile_append hrun hlast, List.reverse_reverse]

theorem trim_append (hleft : Blank left) (h : Trimmed body)
    (hright : Blank right) : trim (left ++ (body ++ right)) = body := by
  rw [trim, trimLeft, dropWhile_append hleft (h.leaves right), trimRight_append hright h]

theorem trim_eq_nil {cs : List Char} (h : Blank cs) : trim cs = [] := by
  rw [trim, trimLeft, List.dropWhile_eq_nil_iff.mpr h]
  rfl

/-- The first character that is not blank stays in front. -/
theorem exists_trim_eq_cons (hleft : Blank left) {c : Char}
    (hc : isBlank c = false) (cs : List Char) : ∃ rest, trim (left ++ c :: cs) = c :: rest := by
  have hleaves : Leaves isBlank (c :: cs) := by simpa [Leaves] using hc
  have hleaves' : Leaves isBlank [c] := by simpa [Leaves] using hc
  rw [trim, trimLeft, dropWhile_append hleft hleaves, trimRight, List.reverse_cons,
    List.dropWhile_append]
  split_ifs
  · exact ⟨[], by rw [dropWhile_of_leaves hleaves']; rfl⟩
  · exact ⟨_, by rw [List.reverse_append]; rfl⟩

theorem length_trim_le (cs : List Char) : (trim cs).length ≤ cs.length := by
  rw [trim, trimRight, List.length_reverse]
  calc ((trimLeft cs).reverse.dropWhile isBlank).length
      ≤ (trimLeft cs).reverse.length := List.length_dropWhile_le _ _
    _ = (cs.dropWhile isBlank).length := List.length_reverse
    _ ≤ cs.length := List.length_dropWhile_le _ _

end Trimming

section Lines

variable {separator : Char} {cs : List Char}

theorem splitOn_ne_nil (separator : Char) (cs : List Char) : splitOn separator cs ≠ [] := by
  induction cs with
  | nil => simp [splitOn]
  | cons c cs ih =>
    rw [splitOn]
    split_ifs
    · simp
    · split <;> simp

theorem splitOn_of_notMem (h : separator ∉ cs) : splitOn separator cs = [cs] := by
  induction cs with
  | nil => rfl
  | cons c cs ih =>
    obtain ⟨hne, hcs⟩ := not_or.mp (mt List.mem_cons.mpr h)
    rw [splitOn, if_neg (Ne.symm hne), ih hcs]

theorem splitOn_append (a b : List Char) :
    splitOn separator (a ++ separator :: b) = splitOn separator a ++ splitOn separator b := by
  induction a with
  | nil => simp [splitOn]
  | cons c a ih =>
    rw [List.cons_append, splitOn, splitOn, ih]
    split_ifs
    · rfl
    · obtain ⟨piece, pieces, hpieces⟩ := List.exists_cons_of_ne_nil (splitOn_ne_nil separator a)
      rw [hpieces]
      rfl

theorem mem_of_mem_splitOn {piece : List Char} (h : piece ∈ splitOn separator cs) {c : Char}
    (hc : c ∈ piece) : c ∈ cs := by
  induction cs generalizing piece with
  | nil => simp_all [splitOn]
  | cons d cs ih =>
    rw [splitOn] at h
    split_ifs at h
    · rcases List.mem_cons.mp h with rfl | h
      · simp at hc
      · exact List.mem_cons_of_mem d (ih h hc)
    · obtain ⟨first, pieces, hpieces⟩ := List.exists_cons_of_ne_nil (splitOn_ne_nil separator cs)
      rw [hpieces] at h ih
      rcases List.mem_cons.mp h with rfl | h
      · rcases List.mem_cons.mp hc with rfl | hc
        · exact List.mem_cons_self
        · exact List.mem_cons_of_mem d (ih List.mem_cons_self hc)
      · exact List.mem_cons_of_mem d (ih (List.mem_cons_of_mem first h) hc)

theorem dropReturn_of_notMem (h : '\r' ∉ cs) : dropReturn cs = cs :=
  if_neg fun hlast => h (List.mem_of_getLast? hlast)

theorem dropReturn_append (a : List Char) {b : List Char} (h : b ≠ []) :
    dropReturn (a ++ b) = a ++ dropReturn b := by
  rw [dropReturn, dropReturn, List.getLast?_append_of_ne_nil a h]
  split_ifs
  · exact List.dropLast_append_of_ne_nil h
  · rfl

theorem mem_of_mem_dropReturn {line : List Char} {c : Char} (h : c ∈ dropReturn line) :
    c ∈ line := by
  rw [dropReturn] at h
  split_ifs at h
  · exact (List.dropLast_sublist line).subset h
  · exact h

theorem lines_eq {before : List (List Char)} {last : List Char}
    (h : splitOn '\n' cs = before ++ [last]) :
    lines cs = before.map dropReturn ++ if last.isEmpty then [] else [last] := by
  rw [lines, h, List.reverse_concat]
  simp only [List.reverse_reverse]

/-- Only the last line has no line break that a carriage return could be part of. -/
theorem lines_append (a b : List Char) :
    lines (a ++ '\n' :: b) = (splitOn '\n' a).map dropReturn ++ lines b := by
  obtain ⟨before, last, hb⟩ :=
    (List.eq_nil_or_concat' (splitOn '\n' b)).resolve_left (splitOn_ne_nil '\n' b)
  have hab : splitOn '\n' (a ++ '\n' :: b) = splitOn '\n' a ++ before ++ [last] := by
    rw [splitOn_append, hb, List.append_assoc]
  rw [lines_eq hab, lines_eq hb, List.map_append, List.append_assoc]

theorem lines_of_notMem (h : '\n' ∉ cs) (hne : cs ≠ []) : lines cs = [cs] := by
  have hpieces : splitOn '\n' cs = [] ++ [cs] := splitOn_of_notMem h
  rw [lines_eq hpieces]
  simp [hne]

theorem mem_of_mem_lines {line : List Char} (h : line ∈ lines cs) {c : Char} (hc : c ∈ line) :
    c ∈ cs := by
  obtain ⟨before, last, hpieces⟩ :=
    (List.eq_nil_or_concat' (splitOn '\n' cs)).resolve_left (splitOn_ne_nil '\n' cs)
  have hmem : ∀ piece ∈ before ++ [last], ∀ c ∈ piece, c ∈ cs := by
    rw [← hpieces]
    exact fun piece hpiece c => mem_of_mem_splitOn hpiece
  rw [lines_eq hpieces] at h
  rcases List.mem_append.mp h with h | h
  · obtain ⟨piece, hpiece, rfl⟩ := List.mem_map.mp h
    exact hmem piece (List.mem_append_left _ hpiece) c (mem_of_mem_dropReturn hc)
  · obtain rfl : line = last := by
      split_ifs at h
      · simp at h
      · simpa using h
    exact hmem line (by simp) c hc

end Lines

end SymbolicAlgebra.Text
