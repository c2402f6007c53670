import SymbolicAlgebra.Names
import SymbolicAlgebra.Number.Basic

/-!
# Reserved constants

A variable with the name of a reserved constant is no free variable, and the compiler takes its
value from here unless the name is declared as an argument. Of two entries with one name the later
one counts.
-/

namespace SymbolicAlgebra

structure Constants where
  entries : List (String × Number)

namespace Constants

def standard : Constants :=
  ⟨[("pi", .real Binary64.pi), ("e", .real Binary64.euler)]⟩

def value? (c : Constants) (name : String) : Option Number :=
  (c.entries.reverse.find? (·.1 == name)).map (·.2)

def isReserved (c : Constants) (name : String) : Bool := (c.value? name).isSome

def names (c : Constants) : List String := Names.ofList (c.entries.map (·.1))

end Constants

end SymbolicAlgebra
