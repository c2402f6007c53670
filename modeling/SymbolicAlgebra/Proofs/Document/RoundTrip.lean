import SymbolicAlgebra.Proofs.Document.Merging
import SymbolicAlgebra.Proofs.Document.Reading

/-!
# Documents are read as they were written

Whatever the layout, a document reads back as the sections it was written from. The one thing that is
lost is a blank character at the very end of the last value, since the text is trimmed before its
values are read.
-/

namespace SymbolicAlgebra.Document

open Source

/-- A document is read from every text in which sections are written, and it has their values. -/
theorem exists_read_of_layout {sections : List Source.Section} {text : String}
    (h : Layout sections text.toList) (hends : EndsPlain sections) :
    ∃ d, Document.read text = .ok d ∧ Represents d sections := by
  refine ⟨ofSections (sections.map Source.Section.read), ?_, represents_ofSections sections⟩
  rw [Document.read, readSections_layout h hends]
  rfl

def letterT : Identifier := ⟨'t', [], by decide, by simp⟩

def letterK : Identifier := ⟨'k', [], by decide, by simp⟩

/-- The title and the key come twice, and values have a colon and marks of comments. -/
def repeatedSections : List Source.Section :=
  [⟨letterT,
      [⟨letterK, [⟨['a', ':', '#'], by simp, by simp⟩, ⟨['/', '/'], by simp, by simp⟩]⟩], by simp⟩,
    ⟨letterT, [⟨letterK, [⟨['2'], by simp, by simp⟩]⟩], by simp⟩]

def repeatedText : String := "\r\n t\n\tk: a:# ,//\n\nt k :2\r\n"

theorem layout_repeatedText : Layout repeatedSections repeatedText.toList := by
  have hspace : Spaces [' '] := by simp [Spaces]
  have hline : Gap ['\n', '\t'] := by simp [Gap]
  have hlines : Gap ['\n', '\n'] := by simp [Gap]
  have hreturn : Text.Blank ['\r'] := by simp only [Text.Blank, List.forall_mem_singleton]; decide
  have htrailing : Text.Blank ['\r', '\n'] :=
    List.forall_mem_cons.mpr ⟨hreturn '\r' (by simp), Gap.blank (by simp [Gap])⟩
  have hmarks := TokensText.next ⟨['a', ':', '#'], by simp, by simp⟩ hspace spaces_nil
    (.last ⟨['/', '/'], by simp, by simp⟩)
  have hnumber := TokensText.last ⟨['2'], by simp, by simp⟩
  have hlast := ItemsText.next (.title letterT) hspace.gap (by simp)
    (.last (.pair ⟨letterK, _⟩ hspace spaces_nil hnumber))
  have hitems := ItemsText.next (.title letterT) hline (by simp)
    (.next (.pair ⟨letterK, _⟩ spaces_nil hspace hmarks) hlines (by simp) hlast)
  exact ⟨_, _, _, .lines hreturn hspace, hitems, htrailing, rfl⟩

theorem exists_read_of_layout_repeated :
    Layout repeatedSections repeatedText.toList ∧ EndsPlain repeatedSections ∧
      ∃ d, Document.read repeatedText = .ok d ∧ Represents d repeatedSections := by
  have hends : EndsPlain repeatedSections := by
    rintro s ⟨⟩ p ⟨⟩ x ⟨⟩ c ⟨⟩
    rfl
  exact ⟨layout_repeatedText, hends, exists_read_of_layout layout_repeatedText hends⟩

/-- A value that is a no-break space. -/
def blankSections : List Source.Section :=
  [⟨letterT, [⟨letterK, [⟨['\u00a0'], by simp, by simp⟩]⟩], by simp⟩]

theorem layout_blankSections : Layout blankSections "t k:\u00a0".toList := by
  have hspace : Spaces [' '] := by simp [Spaces]
  have hvalue := TokensText.last ⟨['\u00a0'], by simp, by simp⟩
  have hitems := ItemsText.next (.title letterT) hspace.gap (by simp)
    (.last (.pair ⟨letterK, _⟩ spaces_nil spaces_nil hvalue))
  exact ⟨_, _, _, .spaces spaces_nil, hitems, Text.blank_nil, rfl⟩

/-- At the end of a document the key of such a value has no values. -/
theorem not_exists_read_of_layout :
    ¬ ∀ (sections : List Source.Section) (text : String), Layout sections text.toList →
      ∃ d, Document.read text = .ok d ∧ Represents d sections := by
  intro h
  obtain ⟨d, hread, hd⟩ := h blankSections "t k:\u00a0" layout_blankSections
  have hempty : Document.read "t k:\u00a0" = .ok [("t", [("k", some [])])] := rfl
  obtain rfl : [("t", [("k", some [])])] = d := Except.ok.inj (hempty.symm.trans hread)
  have hvalues : some (some []) = some (some [Token.value ⟨['\u00a0'], by simp, by simp⟩]) :=
    hd.values "t" "k"
  simp at hvalues

end SymbolicAlgebra.Document
