import SymbolicAlgebra.Proofs.Document.Merging
import SymbolicAlgebra.Proofs.Document.Reading

/-!
# Nothing of a document is lost

A reader accounts for the text that it takes: but for blank characters this is the text of what it
read, with the colons and commas in it. Repetition keeps that, whatever makes it stop, and trimming
takes away blank characters only. So a document that is read holds the values of sections whose
texts, one after the other, are the whole text without its comments and blank characters.
-/

namespace SymbolicAlgebra

namespace Text

/-- The characters that are not blank. -/
def compact (cs : List Char) : List Char := cs.filter fun c => !isBlank c

@[simp] theorem compact_nil : compact [] = [] := rfl

@[simp] theorem compact_append (a b : List Char) : compact (a ++ b) = compact a ++ compact b :=
  List.filter_append a b

theorem compact_cons {c : Char} (hc : isBlank c = false) (cs : List Char) :
    compact (c :: cs) = c :: compact cs :=
  List.filter_cons_of_pos (by simp [hc])

theorem compact_dropWhile {p : Char → Bool} (hp : ∀ c, p c = true → isBlank c = true)
    (cs : List Char) : compact (cs.dropWhile p) = compact cs := by
  induction cs with
  | nil => rfl
  | cons c cs ih =>
    by_cases hc : p c = true
    · have hblank : compact (c :: cs) = compact cs := List.filter_cons_of_neg (by simp [hp c hc])
      rw [List.dropWhile_cons_of_pos hc, ih, hblank]
    · rw [List.dropWhile_cons_of_neg hc]

theorem compact_trim (cs : List Char) : compact (trim cs) = compact cs := by
  have hleft : compact (trimLeft cs) = compact cs := compact_dropWhile (fun _ h => h) cs
  have hright : compact ((trimLeft cs).reverse.dropWhile isBlank) = compact (trimLeft cs).reverse :=
    compact_dropWhile (fun _ h => h) _
  rw [compact] at hright
  rw [trim, trimRight, compact, List.filter_reverse, hright, ← hleft, compact, compact,
    List.filter_reverse, List.reverse_reverse]

end Text

namespace Document

open Text

/-- The key, a colon and the tokens with commas between them. -/
def Source.Pair.chars (p : Source.Pair) : List Char :=
  p.key.chars ++ ':' :: joinWith [','] (p.tokens.map Token.chars)

/-- The title and the pairs, one after the other. -/
def Source.Section.chars (s : Source.Section) : List Char :=
  s.title.chars ++ s.pairs.flatMap Source.Pair.chars

namespace Reader

variable {α β : Type} {r : Reader α} {chars : β → List Char} {read : β → α}

/-- What the reader takes is the text of something that reads as the result, but for blank
characters. -/
def Accounts (r : Reader α) (chars : β → List Char) (read : β → α) : Prop :=
  ∀ ⦃cs rest : List Char⦄ ⦃a : α⦄, r cs = some (a, rest) →
    ∃ b, read b = a ∧ compact cs = compact (chars b) ++ compact rest

/-- No condition on how the repetition ends: what is not taken is left as the rest. -/
theorem Accounts.manyUpTo (h : Accounts r chars read) {n : Nat} {cs rest : List Char}
    {as : List α} (hread : manyUpTo r n cs = (as, rest)) :
    ∃ bs : List β, bs.map read = as ∧ compact cs = compact (bs.flatMap chars) ++ compact rest := by
  induction n generalizing cs as with
  | zero =>
    obtain ⟨rfl, rfl⟩ := Prod.mk.inj hread
    exact ⟨[], rfl, rfl⟩
  | succ n ih =>
    rw [Reader.manyUpTo] at hread
    cases hfirst : r cs with
    | none =>
      simp only [hfirst] at hread
      obtain ⟨rfl, rfl⟩ := Prod.mk.inj hread
      exact ⟨[], rfl, rfl⟩
    | some result =>
      obtain ⟨a, mid⟩ := result
      simp only [hfirst] at hread
      obtain ⟨rfl, hrest⟩ := Prod.mk.inj hread
      obtain ⟨b, rfl, htaken⟩ := h hfirst
      obtain ⟨bs, hbs, hmore⟩ := ih (Prod.ext rfl hrest)
      refine ⟨b :: bs, by rw [List.map_cons, hbs], ?_⟩
      rw [htaken, hmore, List.flatMap_cons, compact_append, List.append_assoc]

theorem Accounts.many (h : Accounts r chars read) {cs rest : List Char} {as : List α}
    (hread : many r cs = (as, rest)) :
    ∃ bs : List β, bs.map read = as ∧ compact cs = compact (bs.flatMap chars) ++ compact rest :=
  h.manyUpTo hread

theorem Accounts.many1 (h : Accounts r chars read) {cs rest : List Char} {as : List α}
    (hread : many1 r cs = some (as, rest)) :
    ∃ bs : List β, bs ≠ [] ∧ bs.map read = as ∧
      compact cs = compact (bs.flatMap chars) ++ compact rest := by
  rw [Reader.many1] at hread
  split at hread
  · cases hread
  · next as' rest' hne hmany =>
    obtain ⟨rfl, rfl⟩ := Prod.mk.inj (Option.some.inj hread)
    obtain ⟨bs, rfl, hbs⟩ := h.many hmany
    refine ⟨bs, ?_, rfl, hbs⟩
    rintro rfl
    exact hne rfl

end Reader

section Pieces

open Reader

theorem isBlank_of_isGap {c : Char} (h : isGap c = true) : isBlank c = true := by
  simp only [isGap, Bool.or_eq_true, decide_eq_true_eq] at h
  rcases h with ((rfl | rfl) | rfl) | rfl <;> decide

theorem compact_skipGaps (cs : List Char) : compact (skipGaps cs) = compact cs :=
  compact_dropWhile (fun _ => isBlank_of_isGap) cs

theorem compact_skipSpaces (cs : List Char) : compact (skipSpaces cs) = compact cs :=
  compact_dropWhile (fun _ h => isBlank_of_isGap (isGap_of_isSpace h)) cs

theorem exists_of_identifier {cs rest : List Char} {name : String}
    (h : identifier cs = some (name, rest)) :
    ∃ x : Identifier, x.name = name ∧ cs = x.chars ++ rest := by
  cases cs with
  | nil => cases h
  | cons c cs =>
    rw [identifier] at h
    split_ifs at h with hc
    obtain ⟨rfl, rfl⟩ := Prod.mk.inj (Option.some.inj h)
    have hothers : ∀ d ∈ cs.takeWhile isNameChar, d.isAlphanum = true ∨ d = '_' :=
      fun d hd => isNameChar_iff.mp (List.mem_takeWhile_imp hd)
    refine ⟨⟨c, cs.takeWhile isNameChar, isNameStart_iff.mp hc, hothers⟩, rfl, ?_⟩
    rw [Identifier.chars, List.cons_append, List.takeWhile_append_dropWhile]

theorem exists_of_value {cs rest : List Char} {v : Value} (h : value cs = some (v, rest)) :
    ∃ x : Token, x.value = v ∧ cs = x.chars ++ rest := by
  rw [value] at h
  split at h
  · cases h
  · next hne =>
    obtain ⟨rfl, rfl⟩ := Prod.mk.inj (Option.some.inj h)
    have hplain : ∀ c ∈ cs.takeWhile (!isDelimiter ·), c ∉ [',', ' ', '\t', '\n', '\r', ';'] := by
      intro c hc
      have hdelimiter := List.mem_takeWhile_imp hc
      rw [← isDelimiter_iff]
      simpa using hdelimiter
    exact ⟨⟨cs.takeWhile (!isDelimiter ·), hne, hplain⟩, rfl,
      List.takeWhile_append_dropWhile.symm⟩

theorem compact_of_mark {c : Char} (hc : isBlank c = false) {cs rest : List Char}
    (h : mark c cs = some rest) : compact cs = c :: compact rest := by
  rw [mark] at h
  split at h
  · cases h
  · next d after hskip =>
    split_ifs at h with hd
    obtain rfl := Option.some.inj h
    rw [← compact_skipSpaces cs, hskip, hd, compact_cons hc, compact_skipSpaces]

theorem accounts_nextValue : Accounts nextValue (fun x : Token => ',' :: x.chars) Token.value := by
  intro cs rest v h
  obtain ⟨after, hmark, hvalue⟩ := Option.bind_eq_some_iff.mp h
  obtain ⟨x, hx, rfl⟩ := exists_of_value hvalue
  refine ⟨x, hx, ?_⟩
  rw [compact_of_mark (by decide) hmark, compact_append, compact_cons (by decide),
    List.cons_append]

theorem joinWith_cons (separator piece : List Char) (pieces : List (List Char)) :
    joinWith separator (piece :: pieces) = piece ++ pieces.flatMap (separator ++ ·) := by
  induction pieces generalizing piece with
  | nil => simp [joinWith]
  | cons next pieces ih => simp [joinWith, ih]

theorem exists_of_values {cs rest : List Char} {vs : List Value} (h : values cs = (vs, rest)) :
    ∃ xs : List Token, xs.map Token.value = vs ∧
      compact cs = compact (joinWith [','] (xs.map Token.chars)) ++ compact rest := by
  rw [values] at h
  cases hfirst : value cs with
  | none =>
    simp only [hfirst] at h
    obtain ⟨rfl, rfl⟩ := Prod.mk.inj h
    exact ⟨[], rfl, rfl⟩
  | some result =>
    obtain ⟨v, mid⟩ := result
    simp only [hfirst] at h
    obtain ⟨rfl, hrest⟩ := Prod.mk.inj h
    obtain ⟨x, rfl, rfl⟩ := exists_of_value hfirst
    have hmany : many nextValue mid = ((many nextValue mid).1, rest) := Prod.ext rfl hrest
    obtain ⟨xs, hxs, hmore⟩ := accounts_nextValue.many hmany
    refine ⟨x :: xs, by rw [List.map_cons, hxs], ?_⟩
    rw [List.map_cons, joinWith_cons, List.flatMap_map, compact_append, compact_append, hmore,
      List.append_assoc]
    rfl

theorem accounts_pair : Accounts pair Source.Pair.chars Source.Pair.read := by
  intro cs rest p h
  simp only [pair, Option.bind_eq_bind, Option.bind_eq_some_iff, Option.pure_def,
    Option.some.injEq] at h
  obtain ⟨⟨key, afterKey⟩, hkey, afterColon, hcolon, hresult⟩ := h
  obtain ⟨rfl, rfl⟩ := Prod.mk.inj hresult
  obtain ⟨x, rfl, rfl⟩ := exists_of_identifier hkey
  obtain ⟨xs, hxs, hvalues⟩ := exists_of_values (Prod.eta (values (skipGaps afterColon))).symm
  refine ⟨⟨x, xs⟩, Prod.ext rfl hxs, ?_⟩
  rw [Source.Pair.chars, compact_append, compact_append, compact_of_mark (by decide) hcolon,
    compact_cons (by decide), ← compact_skipGaps afterColon, hvalues, compact_trim]
  simp

theorem accounts_titledSection :
    Accounts titledSection Source.Section.chars Source.Section.read := by
  intro cs rest s h
  simp only [titledSection, Option.bind_eq_bind, Option.bind_eq_some_iff, Option.pure_def,
    Option.some.injEq] at h
  obtain ⟨⟨title, afterTitle⟩, htitle, ⟨pairs, afterPairs⟩, hpairs, hresult⟩ := h
  obtain ⟨rfl, rfl⟩ := Prod.mk.inj hresult
  obtain ⟨x, rfl, hskip⟩ := exists_of_identifier htitle
  obtain ⟨ps, hne, rfl, htext⟩ := accounts_pair.many1 hpairs
  refine ⟨⟨x, ps, hne⟩, rfl, ?_⟩
  rw [compact_skipGaps, compact_trim] at htext
  rw [Source.Section.chars, ← compact_skipSpaces cs, hskip, compact_append, compact_append, htext,
    compact_skipGaps, List.append_assoc]

end Pieces

theorem exists_of_readSections {text : String} {sections : List Section}
    (h : readSections text = .ok sections) :
    ∃ written : List Source.Section, written ≠ [] ∧ written.map Source.Section.read = sections ∧
      compact (withoutComments text.toList) = compact (written.flatMap Source.Section.chars) := by
  rw [readSections] at h
  split_ifs at h
  split at h
  · cases h
  · next sections' rest hmany =>
    split_ifs at h with hrest
    obtain rfl := Except.ok.inj h
    obtain ⟨written, hne, hread, htext⟩ := accounts_titledSection.many1 hmany
    refine ⟨written, hne, hread, ?_⟩
    have hblank : compact rest = [] := by
      rw [← compact_trim, List.isEmpty_iff.mp hrest, compact_nil]
    rw [htext, hblank, List.append_nil]

/-- A document that is read has the values of sections that make up all of its text. -/
theorem exists_sections_of_read {text : String} {d : Document} (h : Document.read text = .ok d) :
    ∃ sections : List Source.Section, sections ≠ [] ∧ Represents d sections ∧
      compact (withoutComments text.toList) = compact (sections.flatMap Source.Section.chars) := by
  rw [Document.read] at h
  cases hsections : readSections text with
  | error e => simp [hsections, Except.map] at h
  | ok read =>
    simp only [hsections, Except.map, Except.ok.injEq] at h
    obtain ⟨sections, hne, rfl, htext⟩ := exists_of_readSections hsections
    exact ⟨sections, hne, h ▸ represents_ofSections sections, htext⟩

/-- A comment, a title and a key that come twice, a no-break space as the last character of a value,
and a key whose only value would be one. -/
def listedText : String := "% list\r\nt k: a ,b\n\tj:x\u00a0\n\nu\tk : true\nt k:\u00a0"

theorem exists_sections_of_read_listedText :
    ∃ d, Document.read listedText = .ok d ∧ at? d "t" "k" = some (some []) ∧
      ∃ sections : List Source.Section, sections ≠ [] ∧ Represents d sections ∧
        "tk:a,bj:xuk:truetk:".toList = compact (sections.flatMap Source.Section.chars) := by
  have hread : Document.read listedText =
      .ok [("t", [("k", some []), ("j", some [.text "x\u00a0"])]),
        ("u", [("k", some [.boolean true])])] := rfl
  have hcompact : compact (withoutComments listedText.toList) = "tk:a,bj:xuk:truetk:".toList := rfl
  exact ⟨_, hread, rfl, hcompact ▸ exists_sections_of_read hread⟩

end Document

end SymbolicAlgebra
