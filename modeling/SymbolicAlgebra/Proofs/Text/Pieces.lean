import SymbolicAlgebra.Decimal.Reader
import SymbolicAlgebra.Proofs.Document.Contents

/-!
# Reading pieces of a text

A numeral is a run of digits and a word a run of letters, digits and underscores. A list has a mark
between its items, so how many items there are shows only where no mark follows. What was written is
read back as long as each item can be told from what comes behind it.
-/

namespace SymbolicAlgebra.Text

open Document (Reader)

theorem leaves_cons {p : Char → Bool} {c : Char} (h : p c = false) (cs : List Char) :
    Leaves p (c :: cs) := by
  simpa [Leaves] using h

section Numerals

def numeral : Reader Nat := fun cs =>
  match cs.takeWhile Char.isDigit with
  | [] => none
  | digits => some (Decimal.readDigits 0 digits, cs.dropWhile Char.isDigit)

theorem isDigit_of_mem_repr {n : Nat} {c : Char} (h : c ∈ n.repr.toList) : c.isDigit = true :=
  Nat.isDigit_of_mem_toDigits (by decide) (by decide) (Nat.toList_repr ▸ h)

theorem exists_repr_eq_cons (n : Nat) :
    ∃ c cs, n.repr.toList = c :: cs ∧ c.isDigit = true := by
  obtain ⟨c, cs, hcs⟩ := List.exists_cons_of_ne_nil (Nat.toDigits_ne_nil (n := n) (b := 10))
  rw [← Nat.toList_repr] at hcs
  exact ⟨c, cs, hcs, isDigit_of_mem_repr (hcs ▸ List.mem_cons_self)⟩

theorem readDigits_repr (n : Nat) : Decimal.readDigits 0 n.repr.toList = n := by
  rw [Nat.toList_repr]
  calc Decimal.readDigits 0 (Nat.toDigits 10 n)
      = Nat.ofDigitChars 10 (Nat.toDigits 10 n) 0 := Nat.ofDigitChars_eq_foldl.symm
    _ = n := Nat.ofDigitChars_ten_toDigits

theorem numeral_append (n : Nat) {rest : List Char} (h : Leaves Char.isDigit rest) :
    numeral (n.repr.toList ++ rest) = some (n, rest) := by
  have hdigits : ∀ c ∈ n.repr.toList, c.isDigit = true := fun _ => isDigit_of_mem_repr
  obtain ⟨c, cs, hcs, -⟩ := exists_repr_eq_cons n
  rw [numeral, takeWhile_append hdigits h, dropWhile_append hdigits h]
  split
  · simp_all
  · rw [readDigits_repr]

end Numerals

section Words

/-- Beyond ASCII every character counts as a letter. -/
def isLetter (c : Char) : Bool := c.isAlpha || 128 ≤ c.toNat

def isWordChar (c : Char) : Bool := isLetter c || c.isDigit || c = '_'

/-- A letter or an underscore, then letters, digits and underscores. -/
def isIdentifier (name : String) : Bool :=
  match name.toList with
  | [] => false
  | c :: cs => (isLetter c || c = '_') && cs.all isWordChar

/-- Takes the longest run of word characters, which may be empty. -/
def word (cs : List Char) : String × List Char :=
  (String.ofList (cs.takeWhile isWordChar), cs.dropWhile isWordChar)

theorem isDigit_eq_false {c : Char} (h : (isLetter c || c = '_') = true) : c.isDigit = false := by
  rw [Bool.eq_false_iff, ne_eq, Char.isDigit_iff_toNat]
  rintro ⟨-, hdigit⟩
  have hhigh : c.toNat ≤ 57 := hdigit
  rcases Bool.or_eq_true_iff.mp h with hletter | hunderscore
  · rcases Bool.or_eq_true_iff.mp hletter with halpha | hbeyond
    · rcases Bool.or_eq_true_iff.mp halpha with hupper | hlower
      · have hlow : 65 ≤ c.toNat := (of_decide_eq_true hupper).1
        omega
      · have hlow : 97 ≤ c.toNat := of_decide_eq_true (Bool.and_eq_true_iff.mp hlower).1
        omega
    · have hlow : 128 ≤ c.toNat := of_decide_eq_true hbeyond
      omega
  · obtain rfl := of_decide_eq_true hunderscore
    exact absurd hhigh (by decide)

theorem exists_of_isIdentifier {name : String} (h : isIdentifier name = true) :
    ∃ c cs, name.toList = c :: cs ∧ c.isDigit = false ∧ ∀ d ∈ c :: cs, isWordChar d = true := by
  rw [isIdentifier] at h
  split at h
  · cases h
  · next c cs hname =>
    obtain ⟨hfirst, hothers⟩ := Bool.and_eq_true_iff.mp h
    refine ⟨c, cs, hname, isDigit_eq_false hfirst, List.forall_mem_cons.mpr ⟨?_, ?_⟩⟩
    · grind [isWordChar]
    · exact List.all_eq_true.mp hothers

theorem word_append {name : String} (h : isIdentifier name = true) {rest : List Char}
    (hrest : Leaves isWordChar rest) : word (name.toList ++ rest) = (name, rest) := by
  obtain ⟨c, cs, hname, -, hchars⟩ := exists_of_isIdentifier h
  rw [← hname] at hchars
  rw [word, takeWhile_append hchars hrest, dropWhile_append hchars hrest, String.ofList_toList]

end Words

section Lists

variable {α : Type} {item : Reader α} {mark rest : List Char} {write : α → List Char}

/-- Takes the items one after the other as long as the mark stands between them. -/
def separated (item : Reader α) (mark cs : List Char) : List α × List Char :=
  match item cs with
  | none => ([], cs)
  | some (a, cs) =>
    let (as, cs) := Reader.many (fun cs => (cs.dropPrefix? mark).bind item) cs
    (a :: as, cs)

theorem dropPrefix?_append (mark rest : List Char) :
    (mark ++ rest).dropPrefix? mark = some rest :=
  List.dropPrefix?_append_of_beq rest BEq.rfl

/-- What is written of a list behind its first item. -/
theorem takes_marked {Ends : List Char → Prop} {as : List α}
    (hitem : ∀ a ∈ as, ∀ rest, Ends rest → item (write a ++ rest) = some (a, rest))
    (hmark : mark ≠ []) (hends : ∀ cs, Ends (mark ++ cs)) (hrest : Ends rest) :
    let text := (as.map write).flatMap (mark ++ ·) ++ rest
    Ends text ∧ Reader.Takes (fun cs => (cs.dropPrefix? mark).bind item) text as rest := by
  induction as with
  | nil => exact ⟨hrest, .done rest⟩
  | cons a as ih =>
    obtain ⟨htail, htakes⟩ := ih fun b hb => hitem b (List.mem_cons_of_mem a hb)
    simp only [List.map_cons, List.flatMap_cons, List.append_assoc]
    refine ⟨hends _, .more ?_ ?_ htakes⟩
    · rw [dropPrefix?_append, Option.bind_some]
      exact hitem a List.mem_cons_self _ htail
    · have hlength := List.length_pos_iff.mpr hmark
      simp only [List.length_append]
      omega

theorem separated_joinWith {Ends : List Char → Prop} {as : List α}
    (hitem : ∀ a ∈ as, ∀ rest, Ends rest → item (write a ++ rest) = some (a, rest))
    (hmark : mark ≠ []) (hends : ∀ cs, Ends (mark ++ cs)) (hrest : Ends rest)
    (hnoItem : item rest = none) (hnoMark : rest.dropPrefix? mark = none) :
    separated item mark (joinWith mark (as.map write) ++ rest) = (as, rest) := by
  cases as with
  | nil => simp only [List.map_nil, joinWith, List.nil_append, separated, hnoItem]
  | cons a as =>
    obtain ⟨htail, htakes⟩ :=
      takes_marked (fun b hb => hitem b (List.mem_cons_of_mem a hb)) hmark hends hrest
    have hend : (rest.dropPrefix? mark).bind item = none := by rw [hnoMark, Option.bind_none]
    rw [List.map_cons, Document.joinWith_cons, List.append_assoc, separated,
      hitem a List.mem_cons_self _ htail]
    simp only [Reader.many_of_takes htakes hend]

end Lists

end SymbolicAlgebra.Text
