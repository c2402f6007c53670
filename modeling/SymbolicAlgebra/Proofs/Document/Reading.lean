import SymbolicAlgebra.Proofs.Document.Comments

/-!
# Reading a written document

Each reader takes exactly the text of what it reads: behind a name there is no character of a name,
behind a value a delimiter, behind the last value of a pair no comma, and behind the last pair of a
section either nothing or a title, which no colon follows. What remains after a pair is trimmed at
both ends, so from there on the text of the remaining items stands alone.
-/

namespace SymbolicAlgebra.Document

open Source

namespace Reader

variable {α : Type} {r : Reader α}

/-- The reader takes the values one after the other, each with at least one character. -/
inductive Takes (r : Reader α) : List Char → List α → List Char → Prop
  | done (cs : List Char) : Takes r cs [] cs
  | more {cs mid rest : List Char} {a : α} {as : List α} :
      r cs = some (a, mid) → mid.length < cs.length → Takes r mid as rest →
        Takes r cs (a :: as) rest

variable {cs rest : List Char} {as : List α}

theorem Takes.length_le (h : Takes r cs as rest) : rest.length ≤ cs.length := by
  induction h with
  | done cs => exact le_rfl
  | more _ hlt _ ih => exact ih.trans hlt.le

theorem manyUpTo_of_takes (h : Takes r cs as rest) (hrest : r rest = none) {n : Nat}
    (hn : cs.length ≤ n) : manyUpTo r n cs = (as, rest) := by
  induction h generalizing n with
  | done cs =>
    cases n with
    | zero => rfl
    | succ n => rw [manyUpTo, hrest]
  | more hread hlt _ ih =>
    obtain ⟨n, rfl⟩ := Nat.exists_eq_add_one_of_ne_zero (Nat.ne_zero_of_lt (hlt.trans_le hn))
    rw [manyUpTo, hread]
    simp only [ih hrest (Nat.le_of_lt_succ (hlt.trans_le hn))]

theorem many_of_takes (h : Takes r cs as rest) (hrest : r rest = none) :
    many r cs = (as, rest) :=
  manyUpTo_of_takes h hrest le_rfl

theorem many1_of_takes (h : Takes r cs as rest) (hrest : r rest = none) (has : as ≠ []) :
    many1 r cs = some (as, rest) := by
  rw [many1, many_of_takes h hrest]
  cases as with
  | nil => exact absurd rfl has
  | cons a as => rfl

end Reader

open Reader

section Characters

variable {c : Char} {cs : List Char}

theorem isSpace_iff : isSpace c = true ↔ c = ' ' ∨ c = '\t' := by simp [isSpace]

theorem isDelimiter_iff : isDelimiter c = true ↔ c ∈ [',', ' ', '\t', '\n', '\r', ';'] := by
  simp only [isDelimiter, isGap, List.mem_cons, Bool.or_eq_true, decide_eq_true_eq]
  tauto

theorem isGap_of_isSpace (h : isSpace c = true) : isGap c = true := by
  rcases isSpace_iff.mp h with rfl | rfl <;> rfl

theorem isDelimiter_of_isGap (h : isGap c = true) : isDelimiter c = true := by
  simp [isDelimiter, h]

theorem isDelimiter_of_isSpace (h : isSpace c = true) : isDelimiter c = true :=
  isDelimiter_of_isGap (isGap_of_isSpace h)

theorem isGap_of_isNameChar (h : isNameChar c = true) : isGap c = false := by
  have hne : ∀ d : Char, d.toNat < 48 → c ≠ d := fun d => ne_of_isNameChar h
  simp [isGap, hne]

theorem isSpace_of_isNameStart (h : isNameStart c = true) : isSpace c = false := by
  rw [← Bool.not_eq_true]
  intro hspace
  have hgap := isGap_of_isNameChar (isNameChar_of_isNameStart h)
  rw [isGap_of_isSpace hspace] at hgap
  exact Bool.false_ne_true hgap.symm

theorem Spaces.isSpace (h : Spaces cs) : ∀ c ∈ cs, isSpace c = true :=
  fun c hc => isSpace_iff.mpr (h c hc)

theorem Spaces.isDelimiter (h : Spaces cs) : ∀ c ∈ cs, isDelimiter c = true :=
  fun c hc => isDelimiter_of_isSpace (h.isSpace c hc)

theorem Spaces.isNameChar_eq_false (h : Spaces cs) : ∀ c ∈ cs, isNameChar c = false := by
  intro c hc
  rcases h c hc with rfl | rfl <;> rfl

theorem Gap.isGap (h : Gap cs) : ∀ c ∈ cs, isGap c = true := by
  intro c hc
  rcases h c hc with rfl | rfl | rfl <;> rfl

end Characters

section Pieces

variable {before after rest : List Char}

theorem identifier_append (x : Identifier) (h : Text.Leaves isNameChar rest) :
    identifier (x.chars ++ rest) = some (x.name, rest) := by
  have hothers : ∀ c ∈ x.others, isNameChar c = true :=
    fun c hc => isNameChar_iff.mpr (x.others_ok c hc)
  rw [Identifier.chars, List.cons_append, identifier, if_pos x.isNameStart_first,
    Text.takeWhile_append hothers h, Text.dropWhile_append hothers h]
  rfl

theorem mark_append {c : Char} (hc : isSpace c = false) (hbefore : Spaces before)
    (hafter : Spaces after) (hrest : Text.Leaves isSpace rest) :
    mark c (before ++ c :: (after ++ rest)) = some rest := by
  have hmark : Text.Leaves isSpace (c :: (after ++ rest)) := by simpa [Text.Leaves] using hc
  rw [mark, skipSpaces, Text.dropWhile_append hbefore.isSpace hmark]
  simp only [if_true, skipSpaces, Text.dropWhile_append hafter.isSpace hrest]

theorem mark_other {c d : Char} (hbefore : Spaces before) (hd : isSpace d = false) (hne : d ≠ c) :
    mark c (before ++ d :: rest) = none := by
  have hleaves : Text.Leaves isSpace (d :: rest) := by simpa [Text.Leaves] using hd
  rw [mark, skipSpaces, Text.dropWhile_append hbefore.isSpace hleaves]
  exact if_neg hne

theorem Token.isDelimiter_eq_false (x : Token) : ∀ c ∈ x.chars, isDelimiter c = false := by
  intro c hc
  rw [← Bool.not_eq_true, isDelimiter_iff]
  exact x.plain c hc

theorem Token.leaves (x : Token) {p : Char → Bool} (hp : ∀ c, p c = true → isDelimiter c = true)
    (rest : List Char) : Text.Leaves p (x.chars ++ rest) := by
  intro c hc
  rw [List.head?_append_of_ne_nil _ x.ne_nil] at hc
  have := x.isDelimiter_eq_false c (List.mem_of_head? hc)
  rw [← Bool.not_eq_true] at this ⊢
  exact mt (hp c) this

theorem value_append (x : Token) (h : Text.Leaves (!isDelimiter ·) rest) :
    value (x.chars ++ rest) = some (x.value, rest) := by
  have hchars : ∀ c ∈ x.chars, (!isDelimiter c) = true := by simpa using x.isDelimiter_eq_false
  rw [value, Text.takeWhile_append hchars h, Text.dropWhile_append hchars h]
  split
  · exact absurd ‹_› x.ne_nil
  · rfl

theorem nextValue_append (x : Token) (hbefore : Spaces before) (hafter : Spaces after)
    (h : Text.Leaves (!isDelimiter ·) rest) :
    nextValue (before ++ ',' :: (after ++ (x.chars ++ rest))) = some (x.value, rest) := by
  have hleaves : Text.Leaves isSpace (x.chars ++ rest) :=
    x.leaves (fun _ => isDelimiter_of_isSpace) rest
  rw [nextValue, mark_append rfl hbefore hafter hleaves, Option.bind_some, value_append x h]

end Pieces

section Follows

variable {tail : List Char}

/-- An item ends here: nothing follows, or a gap and another item. -/
def Follows (tail : List Char) : Prop :=
  tail = [] ∨ ∃ gap c cs, tail = gap ++ c :: cs ∧ Gap gap ∧ gap ≠ [] ∧ isNameStart c = true

namespace Follows

theorem isGap_head (h : Follows tail) : ∀ c ∈ tail.head?, isGap c = true := by
  rcases h with rfl | ⟨gap, d, cs, rfl, hgap, hne, -⟩
  · simp
  · intro c hc
    rw [List.head?_append_of_ne_nil _ hne] at hc
    exact hgap.isGap c (List.mem_of_head? hc)

theorem leaves_name (h : Follows tail) : Text.Leaves isNameChar tail := by
  intro c hc
  have hgap := h.isGap_head c hc
  rw [← Bool.not_eq_true]
  intro hname
  rw [isGap_of_isNameChar hname] at hgap
  exact Bool.false_ne_true hgap

theorem leaves_value (h : Follows tail) : Text.Leaves (!isDelimiter ·) tail :=
  fun c hc => by simp [isDelimiter_of_isGap (h.isGap_head c hc)]

/-- Behind the spaces stands a line break or a name. -/
theorem mark_eq_none (h : Follows tail) {c : Char} (hname : isNameStart c = false)
    (hbreak : c ≠ '\n') : mark c tail = none := by
  rcases h with rfl | ⟨gap, d, cs, rfl, hgap, -, hd⟩
  · rfl
  · rcases hgap.exists_first_line with hspaces | ⟨spaces, after, rfl, hspaces, -⟩
    · refine mark_other hspaces (isSpace_of_isNameStart hd) ?_
      rintro rfl
      simp [hname] at hd
    · rw [List.append_assoc]
      exact mark_other hspaces rfl hbreak.symm

end Follows

end Follows

section Items

variable {tail : List Char}

/-- Behind the first value stands what `nextValue` takes one by one. -/
theorem TokensText.takes {xs : List Token} {text : List Char} (h : TokensText xs text)
    (htail : Follows tail) : ∃ x ys rest, xs = x :: ys ∧ text = x.chars ++ rest ∧
      Text.Leaves (!isDelimiter ·) (rest ++ tail) ∧
      Takes nextValue (rest ++ tail) (ys.map Token.value) tail := by
  induction h with
  | last x => exact ⟨x, [], [], rfl, by simp, htail.leaves_value, .done tail⟩
  | @next x xs before after text hbefore hafter _ ih =>
    obtain ⟨y, ys, rest, rfl, rfl, hleaves, htakes⟩ := ih
    have hread : nextValue (before ++ ',' :: (after ++ (y.chars ++ rest)) ++ tail) =
        some (y.value, rest ++ tail) := by
      simpa using nextValue_append y hbefore hafter hleaves
    have hlt : (rest ++ tail).length <
        (before ++ ',' :: (after ++ (y.chars ++ rest)) ++ tail).length := by
      simp only [List.length_append, List.length_cons]
      omega
    refine ⟨x, y :: ys, _, rfl, rfl, ?_, .more hread hlt htakes⟩
    rw [List.append_assoc]
    exact Text.leaves_append_cons (fun c hc => by simp [hbefore.isDelimiter c hc]) rfl

theorem values_append {xs : List Token} {text : List Char} (h : TokensText xs text)
    (htail : Follows tail) : values (text ++ tail) = (xs.map Token.value, tail) := by
  obtain ⟨x, ys, rest, rfl, rfl, hleaves, htakes⟩ := h.takes htail
  have hend : nextValue tail = none := by
    rw [nextValue, htail.mark_eq_none (by decide) (by decide)]
    rfl
  rw [values, List.append_assoc, value_append x hleaves]
  simp only [many_of_takes htakes hend, List.map_cons]

theorem TokensText.leaves {xs : List Token} {text : List Char} (h : TokensText xs text)
    {p : Char → Bool} (hp : ∀ c, p c = true → isDelimiter c = true) :
    Text.Leaves p (text ++ tail) := by
  cases h with
  | last x => exact x.leaves hp tail
  | next x _ _ _ =>
    rw [List.append_assoc]
    exact x.leaves hp _

theorem pair_append {p : Source.Pair} {text : List Char} (h : ItemText (.pair p) text)
    (htail : Follows tail) : pair (text ++ tail) = some (p.read, Text.trim tail) := by
  cases h with
  | @pair _ before after text hbefore hafter htokens =>
    have hkey : Text.Leaves isNameChar (before ++ ':' :: (after ++ (text ++ tail))) :=
      Text.leaves_append_cons (fun c hc => hbefore.isNameChar_eq_false c hc) rfl
    have hspace : Text.Leaves isSpace (text ++ tail) :=
      htokens.leaves fun _ => isDelimiter_of_isSpace
    have hmark : mark ':' (before ++ ':' :: (after ++ (text ++ tail))) = some (text ++ tail) :=
      mark_append rfl hbefore hafter hspace
    have hgap : Text.Leaves isGap (text ++ tail) :=
      htokens.leaves fun _ => isDelimiter_of_isGap
    have htext : p.key.chars ++ (before ++ ':' :: (after ++ text)) ++ tail =
        p.key.chars ++ (before ++ ':' :: (after ++ (text ++ tail))) := by simp
    rw [htext, Document.pair, identifier_append p.key hkey]
    simp only [Option.bind_eq_bind, Option.bind_some, hmark, skipGaps,
      Text.dropWhile_of_leaves hgap, values_append htokens htail]
    rfl

theorem pair_title (x : Identifier) (htail : Follows tail) : pair (x.chars ++ tail) = none := by
  rw [pair, identifier_append x htail.leaves_name]
  simp only [Option.bind_eq_bind, Option.bind_some, htail.mark_eq_none (c := ':') rfl (by decide),
    Option.bind_none]

end Items

section Remaining

variable {is : List Item} {cs : List Char}

/-- The text ends with the last of the items. -/
structure EndsWith (is : List Item) (body : List Char) : Prop where
  items : ItemsText is body
  last : ∀ c ∈ body.getLast?, Text.isBlank c = false

theorem EndsWith.trimmed (h : EndsWith is cs) : Text.Trimmed cs := by
  obtain ⟨c, rest, rfl, hc⟩ := h.items.exists_cons
  refine ⟨List.cons_ne_nil c rest, fun d hd => ?_, h.last⟩
  obtain rfl : c = d := by simpa using hd
  exact isBlank_of_isNameStart hc

/-- What is left to be read: either nothing or a text that ends with the last item. -/
def Remains (is : List Item) (cs : List Char) : Prop := is = [] ∧ cs = [] ∨ EndsWith is cs

theorem Remains.isGap_head (h : Remains is cs) : Text.Leaves isGap cs := by
  rcases h with ⟨-, rfl⟩ | h
  · simp [Text.Leaves]
  · obtain ⟨c, rest, rfl, hc⟩ := h.items.exists_cons
    simpa [Text.Leaves] using isGap_of_isNameChar (isNameChar_of_isNameStart hc)

theorem spaces_nil : Spaces [] := by simp [Spaces]

/-- Behind the first item, and trimmed, the text of the others is left. What stands behind a single
item has to be gone already, for it may begin with blank characters that are part of a value. -/
theorem EndsWith.split {i : Item} {body trailing : List Char} (h : EndsWith (i :: is) body)
    (htrailing : Text.Blank trailing) (hsingle : is = [] → trailing = []) :
    ∃ text tail, ItemText i text ∧ body ++ trailing = text ++ tail ∧ Follows tail ∧
      Remains is (Text.trim tail) := by
  obtain ⟨hitems, hlast⟩ := h
  cases hitems with
  | last hi =>
    obtain rfl := hsingle rfl
    exact ⟨body, [], hi, rfl, Or.inl rfl, Or.inl ⟨rfl, rfl⟩⟩
  | @next _ _ text gap rest hi hgap hne hrest =>
    obtain ⟨c, cs, hcons, hc⟩ := hrest.exists_cons
    have hnil : rest ≠ [] := by simp [hcons]
    have hends : EndsWith is rest := by
      refine ⟨hrest, fun d hd => hlast d ?_⟩
      rwa [← List.append_assoc, List.getLast?_append_of_ne_nil _ hnil]
    refine ⟨text, gap ++ (rest ++ trailing), hi, by simp, ?_, Or.inr ?_⟩
    · exact Or.inr ⟨gap, c, cs ++ trailing, by simp [hcons], hgap, hne, hc⟩
    · rwa [Text.trim_append hgap.blank hends.trimmed htrailing]

/-- At a title no pair can be read. -/
theorem Remains.pair_eq_none (h : Remains is cs) (hpair : ∀ p, is.head? ≠ some (.pair p)) :
    pair cs = none := by
  rcases h with ⟨-, rfl⟩ | h
  · rfl
  · cases is with
    | nil => cases h.items
    | cons i is =>
      obtain ⟨text, tail, hi, heq, htail, -⟩ := h.split Text.blank_nil fun _ => rfl
      rw [List.append_nil] at heq
      rw [heq]
      cases hi with
      | title x => exact pair_title x htail
      | pair p _ _ _ => exact absurd rfl (hpair p)

theorem Remains.takes_pairs {ps : List Source.Pair} (h : Remains (ps.map .pair ++ is) cs) :
    ∃ rest, Takes pair cs (ps.map Source.Pair.read) rest ∧ Remains is rest := by
  induction ps generalizing cs with
  | nil => exact ⟨cs, .done cs, h⟩
  | cons p ps ih =>
    have hends : EndsWith (.pair p :: (ps.map .pair ++ is)) cs := by
      rcases h with ⟨hnil, -⟩ | h
      · simp at hnil
      · exact h
    obtain ⟨text, tail, hi, heq, htail, hremains⟩ := hends.split Text.blank_nil fun _ => rfl
    obtain ⟨rest, htakes, hrest⟩ := ih hremains
    rw [List.append_nil] at heq
    obtain ⟨c, text', rfl, -⟩ := hi.exists_cons
    have hlt : (Text.trim tail).length < cs.length := by
      have := Text.length_trim_le tail
      simp only [heq, List.length_append, List.length_cons]
      omega
    exact ⟨rest, .more (heq ▸ pair_append hi htail) hlt htakes, hrest⟩

end Remaining

section Sections

variable {leading body trailing : List Char}

theorem skipSpaces_append {is : List Item} (hleading : Spaces leading) (h : ItemsText is body) :
    skipSpaces (leading ++ (body ++ trailing)) = body ++ trailing := by
  obtain ⟨c, rest, rfl, hc⟩ := h.exists_cons
  refine Text.dropWhile_append hleading.isSpace ?_
  simpa [Text.Leaves] using isSpace_of_isNameStart hc

theorem titledSection_append {s : Source.Section} {is : List Item} (hleading : Spaces leading)
    (h : EndsWith (s.items ++ is) body) (htrailing : Text.Blank trailing)
    (hnext : ∀ p, is.head? ≠ some (.pair p)) :
    ∃ rest, titledSection (leading ++ (body ++ trailing)) = some (s.read, rest) ∧
      rest.length < (leading ++ (body ++ trailing)).length ∧ Remains is rest := by
  have hmore : s.pairs.map .pair ++ is ≠ [] := by simp [s.pairs_ne_nil]
  obtain ⟨text, tail, ⟨⟩, heq, htail, hremains⟩ := h.split htrailing fun hnil => absurd hnil hmore
  obtain ⟨rest, htakes, hrest⟩ := hremains.takes_pairs
  have hpairs : s.pairs.map Source.Pair.read ≠ [] := by simpa using s.pairs_ne_nil
  refine ⟨rest, ?_, ?_, hrest⟩
  · rw [titledSection, skipSpaces_append hleading h.items, heq,
      identifier_append s.title htail.leaves_name]
    simp only [Option.bind_eq_bind, Option.bind_some, skipGaps,
      Text.dropWhile_of_leaves hremains.isGap_head,
      many1_of_takes htakes (hrest.pair_eq_none hnext) hpairs,
      Text.dropWhile_of_leaves hrest.isGap_head]
    rfl
  · have hread : rest.length ≤ tail.length := htakes.length_le.trans (Text.length_trim_le tail)
    simp only [heq, Identifier.chars, List.length_append, List.length_cons]
    omega

/-- After the first section nothing stands around what is left. -/
theorem takes_sections {s : Source.Section} {sections : List Source.Section}
    (hleading : Spaces leading) (h : EndsWith ((s :: sections).flatMap Section.items) body)
    (htrailing : Text.Blank trailing) :
    Takes titledSection (leading ++ (body ++ trailing))
      ((s :: sections).map Source.Section.read) [] := by
  induction sections generalizing s leading body trailing with
  | nil =>
    obtain ⟨rest, hread, hlt, ⟨-, rfl⟩ | hrest⟩ :=
      titledSection_append hleading h htrailing (by simp)
    · exact .more hread hlt (.done [])
    · cases hrest.items
  | cons next sections ih =>
    obtain ⟨rest, hread, hlt, ⟨hnil, -⟩ | hrest⟩ :=
      titledSection_append hleading h htrailing (by simp [Section.items])
    · simp [Section.items] at hnil
    · have htakes := ih spaces_nil hrest Text.blank_nil
      rw [List.nil_append, List.append_nil] at htakes
      exact .more hread hlt htakes

end Sections

section Ends

theorem TokensText.exists_suffix {xs : List Token} {text : List Char} (h : TokensText xs text) :
    ∃ x ∈ xs.getLast?, x.chars <:+ text := by
  induction h with
  | last x => exact ⟨x, rfl, List.suffix_rfl⟩
  | @next x xs before after text _ _ _ ih =>
    obtain ⟨y, hy, hsuffix⟩ := ih
    refine ⟨y, List.mem_getLast?_cons hy, hsuffix.trans ⟨x.chars ++ (before ++ ',' :: after), ?_⟩⟩
    simp

theorem ItemText.exists_suffix {p : Source.Pair} {text : List Char} (h : ItemText (.pair p) text) :
    ∃ x ∈ p.tokens.getLast?, x.chars <:+ text := by
  cases h with
  | @pair _ before after _ _ _ htokens =>
    obtain ⟨x, hx, hsuffix⟩ := htokens.exists_suffix
    refine ⟨x, hx, hsuffix.trans ⟨p.key.chars ++ (before ++ ':' :: after), ?_⟩⟩
    simp

theorem ItemsText.exists_suffix {is : List Item} {body : List Char} (h : ItemsText is body) :
    ∃ i ∈ is.getLast?, ∃ text, ItemText i text ∧ text <:+ body := by
  induction h with
  | @last i text hi => exact ⟨i, rfl, text, hi, List.suffix_rfl⟩
  | @next i is text gap rest _ _ _ _ ih =>
    obtain ⟨j, hj, text', hi', hsuffix⟩ := ih
    refine ⟨j, List.mem_getLast?_cons hj, text', hi', hsuffix.trans ⟨text ++ gap, ?_⟩⟩
    simp

theorem exists_of_mem_getLast?_items {sections : List Source.Section} {i : Item}
    (h : i ∈ (sections.flatMap Section.items).getLast?) :
    ∃ s ∈ sections.getLast?, ∃ p ∈ s.pairs.getLast?, i = .pair p := by
  rcases List.eq_nil_or_concat' sections with rfl | ⟨init, s, rfl⟩
  · simp at h
  · obtain ⟨ps, p, hpairs⟩ := (List.eq_nil_or_concat' s.pairs).resolve_left s.pairs_ne_nil
    have hitems : s.items = (.title s.title :: ps.map .pair) ++ [.pair p] := by
      simp [Section.items, hpairs]
    refine ⟨s, by simp, p, by simp [hpairs], ?_⟩
    rw [List.flatMap_append, List.flatMap_singleton, hitems, ← List.append_assoc,
      List.getLast?_concat] at h
    exact (Option.mem_some.mp h).symm

theorem EndsPlain.endsWith {sections : List Source.Section} (h : EndsPlain sections)
    {body : List Char} (hbody : ItemsText (sections.flatMap Section.items) body) :
    EndsWith (sections.flatMap Section.items) body := by
  refine ⟨hbody, fun c hc => ?_⟩
  obtain ⟨i, hi, text, htext, hsuffix⟩ := hbody.exists_suffix
  obtain ⟨s, hs, p, hp, rfl⟩ := exists_of_mem_getLast?_items hi
  obtain ⟨x, hx, hsuffix'⟩ := htext.exists_suffix
  obtain ⟨front, rfl⟩ := hsuffix'.trans hsuffix
  rw [List.getLast?_append_of_ne_nil _ x.ne_nil] at hc
  exact h s hs p hp x hx c hc

end Ends

theorem readSections_layout {sections : List Source.Section} {text : String}
    (h : Layout sections text.toList) (hends : EndsPlain sections) :
    readSections text = .ok (sections.map Source.Section.read) := by
  obtain ⟨leading, body, trailing, hleading, hbody, htrailing, hcontent⟩ := exists_withoutComments h
  have hbodyEnds := hends.endsWith hbody
  have htrim : Text.trim (withoutComments text.toList) = body := by
    rw [hcontent]
    exact Text.trim_append hleading.gap.blank hbodyEnds.trimmed htrailing
  obtain ⟨s, sections, rfl⟩ : ∃ s rest, sections = s :: rest := by
    cases sections with
    | nil => cases hbody
    | cons s rest => exact ⟨s, rest, rfl⟩
  have htakes := takes_sections hleading hbodyEnds htrailing
  have hread : many1 titledSection (withoutComments text.toList) =
      some ((s :: sections).map Source.Section.read, []) := by
    rw [hcontent]
    exact many1_of_takes htakes rfl (by simp)
  rw [readSections]
  simp only [htrim, hread, List.isEmpty_iff, hbodyEnds.trimmed.ne_nil, if_false]
  rfl

end SymbolicAlgebra.Document
