import SymbolicAlgebra.Proofs.Document.Layout

/-!
# Lines of a written document

A line break stands in a gap only, so every line that is not blank opens with a title or a key and is
no comment. What is left without blank lines is a layout of the same sections: gaps lose their blank
lines, but no gap that has to separate loses all of its characters.
-/

namespace SymbolicAlgebra.Document

open Source

/-- The lines that hold something other than a comment. -/
def contentLines (cs : List Char) : List (List Char) := (Text.lines cs).filter isContent

theorem isContent_blank {line : List Char} (h : Text.Blank line) : isContent line = false := by
  rw [isContent, Text.trim_eq_nil h]

theorem contentLines_blank {cs : List Char} (h : Text.Blank cs) : contentLines cs = [] :=
  List.filter_eq_nil_iff.mpr fun _ hline =>
    Bool.eq_false_iff.mp (isContent_blank fun _ hc => h _ (Text.mem_of_mem_lines hline hc))

theorem contentLines_blank_append {blank : List Char} (h : Text.Blank blank) (cs : List Char) :
    contentLines (blank ++ '\n' :: cs) = contentLines cs := by
  have hnone : ((Text.splitOn '\n' blank).map Text.dropReturn).filter isContent = [] := by
    refine List.filter_eq_nil_iff.mpr fun line hline => Bool.eq_false_iff.mp (isContent_blank ?_)
    obtain ⟨piece, hpiece, rfl⟩ := List.mem_map.mp hline
    exact fun c hc => h c (Text.mem_of_mem_splitOn hpiece (Text.mem_of_mem_dropReturn hc))
  rw [contentLines, Text.lines_append, List.filter_append, hnone, List.nil_append, contentLines]

/-- Behind spaces, the line begins with a name. -/
def Opens (line : List Char) : Prop :=
  ∃ spaces c rest, line = spaces ++ c :: rest ∧ Spaces spaces ∧ isNameStart c = true

namespace Opens

variable {line : List Char}

theorem append (h : Opens line) (more : List Char) : Opens (line ++ more) := by
  obtain ⟨spaces, c, rest, rfl, hspaces, hc⟩ := h
  exact ⟨spaces, c, rest ++ more, by simp, hspaces, hc⟩

theorem ne_nil (h : Opens line) : line ≠ [] := by
  obtain ⟨spaces, c, rest, rfl, -⟩ := h
  simp

theorem isContent (h : Opens line) : isContent line = true := by
  obtain ⟨spaces, c, rest, rfl, hspaces, hc⟩ := h
  obtain ⟨rest', htrim⟩ :=
    Text.exists_trim_eq_cons hspaces.gap.blank (isBlank_of_isNameStart hc) rest
  have hne : ∀ d : Char, d.toNat < 48 → c ≠ d :=
    fun d => ne_of_isNameChar (isNameChar_of_isNameStart hc)
  have hsemicolon : c ≠ ';' := by rintro rfl; simp [isNameStart] at hc
  rw [Document.isContent, htrim]
  split <;> simp_all

theorem contentLines_eq (h : Opens line) (hbreak : '\n' ∉ line) : contentLines line = [line] := by
  rw [contentLines, Text.lines_of_notMem hbreak h.ne_nil, List.filter_cons_of_pos h.isContent,
    List.filter_nil]

theorem contentLines_append (h : Opens line) (hbreak : NoBreak line) {blank : List Char}
    (hblank : '\n' ∉ blank) (cs : List Char) :
    contentLines (line ++ blank ++ '\n' :: cs) =
      (line ++ Text.dropReturn blank) :: contentLines cs := by
  have hdrop : Text.dropReturn (line ++ blank) = line ++ Text.dropReturn blank := by
    rcases eq_or_ne blank [] with rfl | hne
    · rw [List.append_nil, Text.dropReturn_of_notMem hbreak.2]
      exact (List.append_nil line).symm
    · exact Text.dropReturn_append line hne
  have hpiece : Text.splitOn '\n' (line ++ blank) = [line ++ blank] :=
    Text.splitOn_of_notMem (by simp [hbreak.1, hblank])
  have hcontent : Document.isContent (line ++ Text.dropReturn blank) = true :=
    (h.append (Text.dropReturn blank)).isContent
  rw [contentLines, Text.lines_append, hpiece, List.map_singleton, hdrop, List.singleton_append,
    List.filter_cons_of_pos hcontent]
  rfl

end Opens

theorem exists_first_line (cs : List Char) :
    '\n' ∉ cs ∨ ∃ line rest, cs = line ++ '\n' :: rest ∧ '\n' ∉ line := by
  induction cs with
  | nil => exact Or.inl (by simp)
  | cons c cs ih =>
    by_cases hc : c = '\n'
    · exact Or.inr ⟨[], cs, by rw [hc]; rfl, by simp⟩
    · rcases ih with hcs | ⟨line, rest, rfl, hline⟩
      · exact Or.inl (by simp [Ne.symm hc, hcs])
      · exact Or.inr ⟨c :: line, rest, rfl, by simp [Ne.symm hc, hline]⟩

namespace Gap

theorem append_cons_iff {a b : List Char} : Gap (a ++ '\n' :: b) ↔ Gap a ∧ Gap b := by
  simp [Gap, or_imp, forall_and]

variable {gap : List Char}

theorem spaces_of_notMem (h : Gap gap) (hbreak : '\n' ∉ gap) : Spaces gap := by
  intro c hc
  rcases or_assoc.mpr (h c hc) with hspace | rfl
  · exact hspace
  · exact absurd hc hbreak

/-- A gap has no line break or a first one. -/
theorem exists_first_line (h : Gap gap) :
    Spaces gap ∨ ∃ spaces rest, gap = spaces ++ '\n' :: rest ∧ Spaces spaces ∧ Gap rest := by
  rcases Document.exists_first_line gap with hbreak | ⟨line, rest, rfl, hbreak⟩
  · exact Or.inl (h.spaces_of_notMem hbreak)
  · obtain ⟨hline, hrest⟩ := append_cons_iff.mp h
    exact Or.inr ⟨line, rest, rfl, hline.spaces_of_notMem hbreak, hrest⟩

/-- Every gap may stand in front of a document. -/
theorem indent (h : Gap gap) : Indent gap := by
  induction gap with
  | nil => exact .spaces (by simp [Spaces])
  | cons c gap ih =>
    obtain ⟨hc, hgap⟩ := List.forall_mem_cons.mp h
    have hblank : Text.Blank [c] := by
      refine Gap.blank ?_
      simpa [Gap] using hc
    cases ih hgap with
    | spaces hspaces =>
      rcases or_assoc.mpr hc with hspace | rfl
      · exact .spaces (List.forall_mem_cons.mpr ⟨hspace, hspaces⟩)
      · exact (List.nil_append ('\n' :: gap)) ▸ .lines Text.blank_nil hspaces
    | @lines blank cs hlines hspaces =>
      have hfront : Text.Blank (c :: blank) := List.forall_mem_cons.mpr ⟨hblank c (by simp), hlines⟩
      exact .lines hfront hspaces

end Gap

/-- Only the last line in front of a text counts for what follows. -/
theorem Indent.exists_last_line {cs : List Char} (h : Indent cs) :
    ∃ spaces, Spaces spaces ∧ ∀ text, contentLines (cs ++ text) = contentLines (spaces ++ text) := by
  cases h with
  | spaces hspaces => exact ⟨cs, hspaces, fun _ => rfl⟩
  | @lines blank spaces hblank hspaces =>
    refine ⟨spaces, hspaces, fun text => ?_⟩
    rw [List.append_assoc, List.cons_append, contentLines_blank_append hblank]

theorem joinWith_cons_of_ne_nil {line : List Char} {lines : List (List Char)}
    (h : Text.joinWith ['\n'] lines ≠ []) :
    Text.joinWith ['\n'] (line :: lines) = line ++ '\n' :: Text.joinWith ['\n'] lines := by
  cases lines with
  | nil => exact absurd rfl h
  | cons next lines => simp [Text.joinWith]

/-- The line that is being read when the items begin is general: it holds spaces at the start of the
document or behind a line break, and else items and gaps that were read before. -/
theorem exists_joinWith_contentLines {is : List Item} {body trailing : List Char}
    (h : ItemsText is body) (htrailing : Text.Blank trailing) {line : List Char}
    (hline : NoBreak line) (hopens : ∀ c rest, isNameStart c = true → Opens (line ++ c :: rest)) :
    ∃ body' trailing', ItemsText is body' ∧ Text.Blank trailing' ∧
      Text.joinWith ['\n'] (contentLines (line ++ (body ++ trailing))) =
        line ++ (body' ++ trailing') := by
  induction h generalizing line with
  | @last i text hi =>
    have hopen : Opens (line ++ text) := by
      obtain ⟨c, rest, rfl, hc⟩ := hi.exists_cons
      exact hopens c rest hc
    have hbreak : NoBreak (line ++ text) := noBreak_append.mpr ⟨hline, hi.noBreak⟩
    rcases exists_first_line trailing with hnone | ⟨blank, after, rfl, hnone⟩
    · have hnone' : '\n' ∉ line ++ text ++ trailing :=
        List.mem_append.not.mpr (not_or.mpr ⟨hbreak.1, hnone⟩)
      refine ⟨text, trailing, .last hi, htrailing, ?_⟩
      rw [← List.append_assoc, (hopen.append trailing).contentLines_eq hnone', Text.joinWith,
        List.append_assoc]
    · obtain ⟨hblank, hafter⟩ := List.forall_mem_append.mp htrailing
      have hdrop : Text.Blank (Text.dropReturn blank) :=
        fun c hc => hblank c (Text.mem_of_mem_dropReturn hc)
      have hlines : line ++ (text ++ (blank ++ '\n' :: after)) =
          line ++ text ++ blank ++ '\n' :: after := by simp
      refine ⟨text, Text.dropReturn blank, .last hi, hdrop, ?_⟩
      rw [hlines, hopen.contentLines_append hbreak hnone,
        contentLines_blank (List.forall_mem_cons.mp hafter).2, Text.joinWith, List.append_assoc]
  | @next i is text gap rest hi hgap hne hrest ih =>
    have hopen : Opens (line ++ text) := by
      obtain ⟨c, rest, rfl, hc⟩ := hi.exists_cons
      exact hopens c rest hc
    have hbreak : NoBreak (line ++ text) := noBreak_append.mpr ⟨hline, hi.noBreak⟩
    rcases hgap.exists_first_line with hspaces | ⟨spaces, after, rfl, hspaces, hafter⟩
    · obtain ⟨body', trailing', hbody', htrailing', heq⟩ :=
        ih (noBreak_append.mpr ⟨hbreak, hspaces.noBreak⟩)
          fun c cs _ => (hopen.append gap).append (c :: cs)
      refine ⟨text ++ (gap ++ body'), trailing', .next hi hgap hne hbody', htrailing', ?_⟩
      simpa using heq
    · obtain ⟨indent, hindent, hlast⟩ := hafter.indent.exists_last_line
      obtain ⟨body', trailing', hbody', htrailing', heq⟩ :=
        ih hindent.noBreak fun c cs hc => ⟨indent, c, cs, rfl, hindent, hc⟩
      have hgap' : Gap (spaces ++ '\n' :: indent) :=
        Gap.append_cons_iff.mpr ⟨hspaces.gap, hindent.gap⟩
      have hlines : line ++ (text ++ (spaces ++ '\n' :: after ++ rest) ++ trailing) =
          line ++ text ++ spaces ++ '\n' :: (after ++ (rest ++ trailing)) := by simp
      have hjoin : Text.joinWith ['\n'] (contentLines (indent ++ (rest ++ trailing))) ≠ [] := by
        obtain ⟨c, cs, hcons, -⟩ := hbody'.exists_cons
        rw [heq, hcons]
        simp
      refine ⟨text ++ (spaces ++ '\n' :: indent ++ body'), trailing',
        .next hi hgap' (by simp) hbody', htrailing', ?_⟩
      rw [hlines, hopen.contentLines_append hbreak hspaces.noBreak.1, hlast,
        Text.dropReturn_of_notMem hspaces.noBreak.2, joinWith_cons_of_ne_nil hjoin, heq]
      simp

/-- Without comments and blank lines a layout is a layout of the same sections, and no line break
stands before its first title. -/
theorem exists_withoutComments {sections : List Source.Section} {text : List Char}
    (h : Layout sections text) :
    ∃ leading body trailing, Spaces leading ∧ ItemsText (sections.flatMap Section.items) body ∧
      Text.Blank trailing ∧ withoutComments text = leading ++ (body ++ trailing) := by
  obtain ⟨leading, body, trailing, hleading, hbody, htrailing, rfl⟩ := h
  obtain ⟨indent, hindent, hlast⟩ := hleading.exists_last_line
  obtain ⟨body', trailing', hbody', htrailing', heq⟩ :=
    exists_joinWith_contentLines hbody htrailing hindent.noBreak
      fun c cs hc => ⟨indent, c, cs, rfl, hindent, hc⟩
  refine ⟨indent, body', trailing', hindent, hbody', htrailing', ?_⟩
  rw [withoutComments, ← contentLines, hlast, heq]

end SymbolicAlgebra.Document
