import SymbolicAlgebra.Document.Value
import SymbolicAlgebra.Text.Blank

/-!
# Reading a document

A document is a list of sections, a section a title with key and value lists, such as
`title key: value, value key: value`. Nothing but blank space separates these, so how far a list of
values, a pair or a section reaches shows only where the next one cannot be read.

A reader takes the beginning of a text and returns what it read with the rest, or fails and takes
nothing. The combinators are the usual ones over readers that can be tried: a failure is no error of
the document but ends a repetition, and what the failed try had taken is given back.
-/

namespace SymbolicAlgebra.Document

/-- A failure may come after several steps of a reader; the text is then read on, by whatever is
tried in its place, from where the reader began. -/
abbrev Reader (α : Type) := List Char → Option (α × List Char)

namespace Reader

variable {α : Type}

/-- Repeats a reader until it fails, at most so many times. The repetition itself does not fail: the
rest begins where the failed try began. -/
def manyUpTo (r : Reader α) : Nat → List Char → List α × List Char
  | 0, cs => ([], cs)
  | n + 1, cs =>
    match r cs with
    | none => ([], cs)
    | some (a, rest) =>
      let (more, rest) := manyUpTo r n rest
      (a :: more, rest)

/-- Repeats a reader until it fails. There is no check that each reading makes progress, which a
general repetition would need so as not to go on forever: whatever is repeated here takes at least
one character, so the length of the text bounds the repetition. -/
def many (r : Reader α) (cs : List Char) : List α × List Char := manyUpTo r cs.length cs

/-- Fails where the first reading does; a later failure only ends the repetition. -/
def many1 (r : Reader α) : Reader (List α) := fun cs =>
  match many r cs with
  | ([], _) => none
  | (as, rest) => some (as, rest)

end Reader

/-- Spaces and tabs. -/
def isSpace (c : Char) : Bool := c = ' ' || c = '\t'

/-- Spaces, tabs and line breaks. -/
def isGap (c : Char) : Bool := c = ' ' || c = '\t' || c = '\r' || c = '\n'

def skipSpaces (cs : List Char) : List Char := cs.dropWhile isSpace

def skipGaps (cs : List Char) : List Char := cs.dropWhile isGap

def isNameStart (c : Char) : Bool := c.isAlpha || c = '_'

def isNameChar (c : Char) : Bool := c.isAlphanum || c = '_'

/-- Letters, digits and underscores of ASCII, no digit in front. -/
def identifier : Reader String
  | [] => none
  | c :: cs =>
    if isNameStart c then
      some (String.ofList (c :: cs.takeWhile isNameChar), cs.dropWhile isNameChar)
    else none

/-- What ends a value. -/
def isDelimiter (c : Char) : Bool := isGap c || c = ',' || c = ';'

def value : Reader Value := fun cs =>
  match cs.takeWhile (!isDelimiter ·) with
  | [] => none
  | token => some (.ofToken token, cs.dropWhile (!isDelimiter ·))

/-- A separator with optional spaces on both sides. Where the mark is not there, the spaces in front
are not taken either. -/
def mark (c : Char) (cs : List Char) : Option (List Char) :=
  match skipSpaces cs with
  | [] => none
  | d :: rest => if d = c then some (skipSpaces rest) else none

/-- A comma and a value. Without a value behind it the comma is given back. -/
def nextValue : Reader Value := fun cs => (mark ',' cs).bind value

/-- Values separated by commas, possibly none. The list ends in front of the first separator that no
value follows, and a text that begins with no value is not an error but an empty list. -/
def values (cs : List Char) : List Value × List Char :=
  match value cs with
  | none => ([], cs)
  | some (v, rest) =>
    let (more, rest) := Reader.many nextValue rest
    (v :: more, rest)

abbrev Pair := String × List Value

/-- A key, a colon and values; the text that follows is trimmed at both ends. -/
def pair : Reader Pair := fun cs => do
  let (key, cs) ← identifier cs
  let cs ← mark ':' cs
  let (vs, cs) := values (skipGaps cs)
  return ((key, vs), Text.trim cs)

structure Section where
  title : String
  pairs : List Pair

def titledSection : Reader Section := fun cs => do
  let (title, cs) ← identifier (skipSpaces cs)
  let (pairs, cs) ← Reader.many1 pair (skipGaps (Text.trim cs))
  return (⟨title, pairs⟩, skipGaps cs)

/-- Whether a line holds something other than a comment. -/
def isContent (line : List Char) : Bool :=
  match Text.trim line with
  | [] => false
  | '#' :: _ => false
  | '%' :: _ => false
  | ';' :: _ => false
  | '/' :: '/' :: _ => false
  | _ => true

/-- The text without blank lines and comment lines. -/
def withoutComments (cs : List Char) : List Char :=
  Text.joinWith ['\n'] ((Text.lines cs).filter isContent)

inductive Error where
  | empty
  | noSection
  | remaining (rest : String)

/-- A document without a readable section has no text of its own. -/
def Error.message? : Error → Option String
  | empty => some "document is empty"
  | noSection => none
  | remaining rest => some ("failed to parse entire document, remaining: '" ++ rest ++ "'")

def readSections (text : String) : Except Error (List Section) :=
  let cs := withoutComments text.toList
  if (Text.trim cs).isEmpty then .error .empty
  else
    match Reader.many1 titledSection cs with
    | none => .error .noSection
    | some (sections, rest) =>
      if (Text.trim rest).isEmpty then .ok sections
      else .error (.remaining (String.ofList rest))

end SymbolicAlgebra.Document
