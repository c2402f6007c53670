import SymbolicAlgebra.Dictionary
import SymbolicAlgebra.Document.Reader

/-!
# Documents

A document gives values by title and key. Sections of one title are merged, and of two entries with
the same title and key the later one counts. A template adds the keys that are expected, without
values where the text has none.
-/

namespace SymbolicAlgebra

/-- The values under each key; a key of a template may have none at all. -/
abbrev Entries := Dictionary (Option (List Document.Value))

abbrev Document := Dictionary Entries

namespace Document

def addPair (title : String) (d : Document) (pair : Pair) : Document :=
  Dictionary.insert title
    (Dictionary.insert pair.1 (some pair.2) ((Dictionary.get? d title).getD [])) d

def addSection (d : Document) (s : Section) : Document := s.pairs.foldl (addPair s.title) d

def ofSections (sections : List Section) : Document := sections.foldl addSection []

def read (text : String) : Except Error Document := (readSections text).map ofSections

def expectKey (entries : Entries) (key : String) : Entries :=
  if (Dictionary.get? entries key).isSome then entries else Dictionary.insert key none entries

/-- The document with all titles and keys of a template. -/
def expect (template : Dictionary (List String)) (d : Document) : Document :=
  template.foldl
    (fun d (title, keys) =>
      Dictionary.insert title (keys.foldl expectKey ((Dictionary.get? d title).getD [])) d)
    d

end Document

/-- A value that does not fit its key. -/
structure InvalidValue where
  key : String
  value : String

def InvalidValue.message (e : InvalidValue) : String :=
  "invalid value `" ++ e.value ++ "` for `" ++ e.key ++ "`"

/-- The single value under a key, if the key has values. -/
def Entries.single? (entries : Entries) (key : String) :
    Except InvalidValue (Option Document.Value) :=
  match Dictionary.get? entries key with
  | some (some [v]) => .ok (some v)
  | some (some vs) =>
    .error ⟨key, String.ofList (Text.joinWith [',', ' '] (vs.map Document.Value.chars))⟩
  | _ => .ok none

end SymbolicAlgebra
