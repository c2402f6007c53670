/-!
# Log records

Records are values: a computation says what it reports, and the verbosity in force, which is a level
or nothing, selects from that.
-/

namespace SymbolicAlgebra.Log

inductive Level where
  | error | warn | info | debug | trace
  deriving DecidableEq

namespace Level

def all : List Level := [.error, .warn, .info, .debug, .trace]

def rank : Level → Nat
  | .error => 1
  | .warn => 2
  | .info => 3
  | .debug => 4
  | .trace => 5

def name : Level → String
  | .error => "error"
  | .warn => "warn"
  | .info => "info"
  | .debug => "debug"
  | .trace => "trace"

def label : Level → String
  | .error => "ERROR"
  | .warn => "WARN"
  | .info => "INFO"
  | .debug => "DEBUG"
  | .trace => "TRACE"

end Level

structure Record where
  level : Level
  text : String

def Record.line (r : Record) : String := r.level.label ++ " " ++ r.text

abbrev Verbosity := Option Level

def Verbosity.shows (v : Verbosity) (r : Record) : Bool :=
  match v with
  | some level => r.level.rank ≤ level.rank
  | none => false

/-- The level of a name in any case, or nothing for `off`; the outer option is empty for a word that
is no name. -/
def Verbosity.ofName? (text : String) : Option Verbosity :=
  let name := text.toList.map Char.toLower
  if name = "off".toList then some none
  else (Level.all.find? fun level => level.name.toList = name).map some

end SymbolicAlgebra.Log
