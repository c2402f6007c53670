import SymbolicAlgebra.Proofs.Text.Blank
import SymbolicAlgebra.Document.Basic

/-!
# Written documents

What a document says is a list of sections, each with an identifier as its title and pairs of an
identifier and tokens. How it is written leaves the blank space open: spaces and tabs around colons
and commas, also line breaks between titles and pairs, where some of it has to separate them, and
any blank characters around the whole.

`Layout` relates the sections to every text in which they may be written, and `Represents` to a
document that holds them.
-/

namespace SymbolicAlgebra.Document

/-- A letter or an underscore, then letters, digits and underscores of ASCII. -/
structure Identifier where
  first : Char
  others : List Char
  first_ok : first.isAlpha = true ∨ first = '_'
  others_ok : ∀ c ∈ others, c.isAlphanum = true ∨ c = '_'

namespace Identifier

def chars (x : Identifier) : List Char := x.first :: x.others

def name (x : Identifier) : String := String.ofList x.chars

end Identifier

/-- The text of a value. -/
structure Token where
  chars : List Char
  ne_nil : chars ≠ []
  plain : ∀ c ∈ chars, c ∉ [',', ' ', '\t', '\n', '\r', ';']

namespace Token

def value (x : Token) : Value := .ofToken x.chars

end Token

namespace Source

structure Pair where
  key : Identifier
  tokens : List Token

structure Section where
  title : Identifier
  pairs : List Pair
  pairs_ne_nil : pairs ≠ []

def Pair.read (p : Pair) : Document.Pair := (p.key.name, p.tokens.map Token.value)

def Section.read (s : Section) : Document.Section := ⟨s.title.name, s.pairs.map Pair.read⟩

/-- What stands between two gaps. -/
inductive Item where
  | title (name : Identifier)
  | pair (p : Pair)

def Section.items (s : Section) : List Item := .title s.title :: s.pairs.map .pair

end Source

open Source

def Spaces (cs : List Char) : Prop := ∀ c ∈ cs, c = ' ' ∨ c = '\t'

def Gap (cs : List Char) : Prop := ∀ c ∈ cs, c = ' ' ∨ c = '\t' ∨ c = '\n'

/-- At least one token, with commas between them. -/
inductive TokensText : List Token → List Char → Prop
  | last (x : Token) : TokensText [x] x.chars
  | next (x : Token) {xs : List Token} {before after text : List Char} :
      Spaces before → Spaces after → TokensText xs text →
        TokensText (x :: xs) (x.chars ++ (before ++ ',' :: (after ++ text)))

inductive ItemText : Item → List Char → Prop
  | title (x : Identifier) : ItemText (.title x) x.chars
  | pair (p : Source.Pair) {before after text : List Char} :
      Spaces before → Spaces after → TokensText p.tokens text →
        ItemText (.pair p) (p.key.chars ++ (before ++ ':' :: (after ++ text)))

/-- At least one item, with gaps between them. -/
inductive ItemsText : List Item → List Char → Prop
  | last {i : Item} {text : List Char} : ItemText i text → ItemsText [i] text
  | next {i : Item} {is : List Item} {text gap rest : List Char} :
      ItemText i text → Gap gap → gap ≠ [] → ItemsText is rest →
        ItemsText (i :: is) (text ++ (gap ++ rest))

/-- Blank lines, and spaces in front of what comes first. -/
inductive Indent : List Char → Prop
  | spaces {cs : List Char} : Spaces cs → Indent cs
  | lines {blank cs : List Char} : Text.Blank blank → Spaces cs → Indent (blank ++ '\n' :: cs)

/-- The texts in which the sections may be written. -/
def Layout (sections : List Source.Section) (text : List Char) : Prop :=
  ∃ leading body trailing, Indent leading ∧ ItemsText (sections.flatMap Section.items) body ∧
    Text.Blank trailing ∧ text = leading ++ (body ++ trailing)

/-- The last token does not end in a blank character, which could not be told from the blank space
behind the document. -/
def EndsPlain (sections : List Source.Section) : Prop :=
  ∀ s ∈ sections.getLast?, ∀ p ∈ s.pairs.getLast?, ∀ x ∈ p.tokens.getLast?,
    ∀ c ∈ x.chars.getLast?, Text.isBlank c = false

/-- A title, a key and the values under them. -/
abbrev Entry := (String × String) × List Value

/-- The pairs under their titles and keys, in the order of the document. -/
def Source.entries (sections : List Source.Section) : List Entry :=
  sections.flatMap fun s => s.pairs.map fun p => ((s.title.name, p.key.name), p.read.2)

/-- What the document has under a title and key. -/
def at? (d : Document) (title key : String) : Option (Option (List Value)) :=
  (Dictionary.get? d title).bind (Dictionary.get? · key)

/-- Under each title and key the document has the values of the last pair there, and it has no other
titles and keys. -/
structure Represents (d : Document) (sections : List Source.Section) : Prop where
  values : ∀ title key,
    at? d title key = ((entries sections).reverse.lookup (title, key)).map some
  titles : ∀ title, (Dictionary.get? d title).isSome = true ↔
    ∃ s ∈ sections, s.title.name = title

/-! ## Characters of a written document -/

theorem isNameStart_iff {c : Char} : isNameStart c = true ↔ c.isAlpha = true ∨ c = '_' := by
  simp [isNameStart]

theorem isNameChar_iff {c : Char} : isNameChar c = true ↔ c.isAlphanum = true ∨ c = '_' := by
  simp [isNameChar]

theorem toNat_of_isNameChar {c : Char} (h : isNameChar c = true) :
    48 ≤ c.toNat ∧ c.toNat ≤ 57 ∨ 65 ≤ c.toNat ∧ c.toNat ≤ 90 ∨ c.toNat = 95 ∨
      97 ≤ c.toNat ∧ c.toNat ≤ 122 := by
  have hcodes : c.isAlphanum =
      (decide (65 ≤ c.val ∧ c.val ≤ 90) || (97 ≤ c.val && c.val ≤ 122) ||
        (48 ≤ c.val && c.val ≤ 57)) := rfl
  rcases isNameChar_iff.mp h with h | rfl
  · simp only [hcodes, Bool.or_eq_true, Bool.and_eq_true, decide_eq_true_eq,
      UInt32.le_iff_toNat_le] at h
    change ((65 ≤ c.toNat ∧ c.toNat ≤ 90) ∨ 97 ≤ c.toNat ∧ c.toNat ≤ 122) ∨
      48 ≤ c.toNat ∧ c.toNat ≤ 57 at h
    omega
  · decide

theorem isNameChar_of_isNameStart {c : Char} (h : isNameStart c = true) : isNameChar c = true :=
  isNameChar_iff.mpr ((isNameStart_iff.mp h).imp_left fun h => Bool.or_eq_true_iff.mpr (Or.inl h))

/-- A character of a name differs from every character with a smaller code than a digit. -/
theorem ne_of_isNameChar {c d : Char} (h : isNameChar c = true) (hd : d.toNat < 48) : c ≠ d := by
  rintro rfl
  have := toNat_of_isNameChar h
  omega

theorem isBlank_of_isNameStart {c : Char} (h : isNameStart c = true) : Text.isBlank c = false := by
  have hc := toNat_of_isNameChar (isNameChar_of_isNameStart h)
  rw [← Bool.not_eq_true]
  intro hblank
  simp only [Text.isBlank, Text.blankRanges, List.any_cons, List.any_nil, Bool.or_eq_true,
    Bool.and_eq_true, decide_eq_true_eq, Bool.false_eq_true, or_false] at hblank
  omega

theorem Identifier.isNameStart_first (x : Identifier) : isNameStart x.first = true :=
  isNameStart_iff.mpr x.first_ok

theorem Identifier.isNameChar_of_mem {x : Identifier} {c : Char} (h : c ∈ x.chars) :
    isNameChar c = true := by
  rcases List.mem_cons.mp h with rfl | h
  · exact isNameChar_of_isNameStart x.isNameStart_first
  · exact isNameChar_iff.mpr (x.others_ok c h)

theorem Spaces.gap {cs : List Char} (h : Spaces cs) : Gap cs :=
  fun c hc => (h c hc).imp_right Or.inl

theorem Gap.blank {cs : List Char} (h : Gap cs) : Text.Blank cs := by
  intro c hc
  rcases h c hc with rfl | rfl | rfl <;> decide

/-- Nothing in the text ends a line. -/
def NoBreak (cs : List Char) : Prop := '\n' ∉ cs ∧ '\r' ∉ cs

theorem noBreak_append {a b : List Char} : NoBreak (a ++ b) ↔ NoBreak a ∧ NoBreak b := by
  simp only [NoBreak, List.mem_append]
  tauto

theorem noBreak_cons {c : Char} {cs : List Char} (hc : c ≠ '\n' ∧ c ≠ '\r') :
    NoBreak (c :: cs) ↔ NoBreak cs := by
  simp [NoBreak, hc.1.symm, hc.2.symm]

theorem Spaces.noBreak {cs : List Char} (h : Spaces cs) : NoBreak cs :=
  ⟨fun hmem => by simpa using h _ hmem, fun hmem => by simpa using h _ hmem⟩

theorem Identifier.noBreak (x : Identifier) : NoBreak x.chars :=
  ⟨fun h => ne_of_isNameChar (x.isNameChar_of_mem h) (by decide) rfl,
    fun h => ne_of_isNameChar (x.isNameChar_of_mem h) (by decide) rfl⟩

theorem Token.noBreak (x : Token) : NoBreak x.chars :=
  ⟨fun h => by simpa using x.plain _ h, fun h => by simpa using x.plain _ h⟩

theorem TokensText.noBreak {xs : List Token} {text : List Char} (h : TokensText xs text) :
    NoBreak text := by
  induction h with
  | last x => exact x.noBreak
  | next x hbefore hafter _ ih =>
    simp [noBreak_append, noBreak_cons, x.noBreak, hbefore.noBreak, hafter.noBreak, ih]

theorem ItemText.noBreak {i : Item} {text : List Char} (h : ItemText i text) : NoBreak text := by
  cases h with
  | title x => exact x.noBreak
  | pair p hbefore hafter htokens =>
    simp [noBreak_append, noBreak_cons, p.key.noBreak, hbefore.noBreak, hafter.noBreak,
      htokens.noBreak]

theorem ItemText.exists_cons {i : Item} {text : List Char} (h : ItemText i text) :
    ∃ c rest, text = c :: rest ∧ isNameStart c = true := by
  cases h with
  | title x => exact ⟨_, _, rfl, x.isNameStart_first⟩
  | pair p _ _ _ => exact ⟨_, _, rfl, p.key.isNameStart_first⟩

theorem ItemsText.exists_cons {is : List Item} {text : List Char} (h : ItemsText is text) :
    ∃ c rest, text = c :: rest ∧ isNameStart c = true := by
  cases h with
  | last hi => exact hi.exists_cons
  | next hi _ _ _ =>
    obtain ⟨c, rest, rfl, hc⟩ := hi.exists_cons
    exact ⟨c, _, rfl, hc⟩

end SymbolicAlgebra.Document
