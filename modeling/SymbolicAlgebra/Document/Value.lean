import SymbolicAlgebra.Decimal.Reader
import SymbolicAlgebra.Decimal.Rounding

/-!
# Values of a document

A token is an integer of 64 bits if it reads as one, else a double, else a truth value, else text.
-/

namespace SymbolicAlgebra.Document

inductive Value where
  | text (s : String)
  | float (x : Float)
  | integer (n : Int)
  | boolean (b : Bool)

namespace Value

def ofToken (token : List Char) : Value :=
  match Decimal.readWord? token with
  | some n => .integer n
  | none =>
    match Decimal.readFloat? token with
    | some x => .float x
    | none =>
      if token = "true".toList then .boolean true
      else if token = "false".toList then .boolean false
      else .text (String.ofList token)

def text? : Value → Option String
  | text s => some s
  | _ => none

def integer? : Value → Option Int
  | integer n => some n
  | _ => none

/-- An integer serves where a double is expected. -/
def float? : Value → Option Float
  | float x => some x
  | integer n => some (Binary64.ofInt n)
  | _ => none

def boolean? : Value → Option Bool
  | boolean b => some b
  | _ => none

def chars : Value → List Char
  | text s => s.toList
  | float x => Decimal.text x
  | integer n => n.repr.toList
  | boolean b => if b then "true".toList else "false".toList

def toText (v : Value) : String := String.ofList v.chars

end Value

end SymbolicAlgebra.Document
