import SymbolicAlgebra.Document.Basic
import SymbolicAlgebra.Expr.Terms
import SymbolicAlgebra.Log

/-!
# Settings of the simplifier

Settings come from the section `simplify` of a document. Keys that are absent keep their defaults;
the first key with a value that does not fit is reported.
-/

namespace SymbolicAlgebra

structure Settings where
  maxPasses : Nat := 20
  sortLevel : SortLevel := .exact
  longDivision : Bool := true
  logLevel : Option String := none

inductive SettingsError where
  | document (e : Document.Error)
  | invalidValue (e : InvalidValue)

def SettingsError.message? : SettingsError → Option String
  | document e => e.message?.map ("cannot parse settings document: " ++ ·)
  | invalidValue e => some e.message

namespace Settings

/-- The verbosity that a level name asks for; `off` and `none` ask for nothing. -/
def verbosityOf? (name : String) : Option Log.Verbosity :=
  if name.toList.map Char.toLower = "none".toList then some none else Log.Verbosity.ofName? name

def verbosity (s : Settings) : Except InvalidValue Log.Verbosity :=
  match s.logLevel with
  | none => .ok none
  | some name =>
    match verbosityOf? name with
    | some v => .ok v
    | none => .error ⟨"loglevel", name⟩

/-- A change of the settings by the value under a key, if there is one. -/
def withKey (entries : Entries) (key : String) (change : Settings → Document.Value → Option Settings)
    (s : Settings) : Except InvalidValue Settings :=
  match entries.single? key with
  | .error e => .error e
  | .ok none => .ok s
  | .ok (some v) =>
    match change s v with
    | some s => .ok s
    | none => .error ⟨key, v.toText⟩

def setMaxPasses (s : Settings) (v : Document.Value) : Option Settings :=
  match v.integer? with
  | some n => if 0 < n then some { s with maxPasses := n.toNat } else none
  | none => none

def setSortLevel (s : Settings) (v : Document.Value) : Option Settings :=
  (v.text?.bind SortLevel.ofName?).map fun level => { s with sortLevel := level }

def setLongDivision (s : Settings) (v : Document.Value) : Option Settings :=
  v.boolean?.map fun b => { s with longDivision := b }

def setLogLevel (s : Settings) (v : Document.Value) : Option Settings :=
  (verbosityOf? v.toText).map fun _ => { s with logLevel := some v.toText }

def ofEntries (entries : Entries) : Except InvalidValue Settings := do
  let s ← withKey entries "max_passes" setMaxPasses {}
  let s ← withKey entries "sort_level" setSortLevel s
  let s ← withKey entries "long_division" setLongDivision s
  withKey entries "loglevel" setLogLevel s

/-- The section that holds the settings. -/
def sectionTitle : String := "simplify"

/-- In the order in which they are checked. -/
def keys : List String := ["max_passes", "sort_level", "long_division", "loglevel"]

/-- What a document of settings is expected to have. -/
def template : Dictionary (List String) := [(sectionTitle, keys)]

def ofDocument (d : Document) : Except InvalidValue Settings :=
  match Dictionary.get? d sectionTitle with
  | some entries => ofEntries entries
  | none => .ok {}

def ofText (text : String) : Except SettingsError Settings :=
  match Document.read text with
  | .error e => .error (.document e)
  | .ok d => (ofDocument (d.expect template)).mapError .invalidValue

end Settings

end SymbolicAlgebra
