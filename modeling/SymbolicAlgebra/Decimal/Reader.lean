import SymbolicAlgebra.Binary64

/-!
# Reading numerals

`readInt?` reads a decimal integer and `readFloat?` a decimal fraction with an optional exponent,
rounded once to the nearest double. Both take an optional sign, and the second also the names of
infinity and of the value that is not a number, in any case.
-/

namespace SymbolicAlgebra.Decimal

def digitValue (c : Char) : Nat := c.toNat - '0'.toNat

/-- The value of a run of digits read after `start`. -/
def readDigits (start : Nat) (cs : List Char) : Nat :=
  cs.foldl (fun n c => 10 * n + digitValue c) start

/-- A leading sign, and the text after it. -/
def takeSign : List Char → Bool × List Char
  | '-' :: rest => (true, rest)
  | '+' :: rest => (false, rest)
  | cs => (false, cs)

def readNat? (cs : List Char) : Option Nat :=
  if !cs.isEmpty && cs.all Char.isDigit then some (readDigits 0 cs) else none

def readInt? (cs : List Char) : Option Int :=
  let (negative, cs) := takeSign cs
  (readNat? cs).map fun n => if negative then -n else n

/-- Whether the integer fits a signed word of 64 bits. -/
def fitsWord (n : Int) : Bool := -9223372036854775808 ≤ n && n ≤ 9223372036854775807

def readWord? (cs : List Char) : Option Int := (readInt? cs).filter fitsWord

def lowercase (cs : List Char) : List Char := cs.map Char.toLower

/-- The double nearest to `coefficient * 10^exponent`. Beyond the range of doubles the power of ten
is not formed. -/
def toFloat (negative : Bool) (coefficient : Nat) (exponent : Int) : Float :=
  let point := exponent + coefficient.repr.length
  if coefficient = 0 ∨ point < -400 then Binary64.ofRatio negative 0 1
  else if 400 < point then Binary64.ofRatio negative (Nat.pow 2 1024) 1
  else
    Binary64.ofRatio negative (coefficient * Nat.pow 10 exponent.toNat)
      (Nat.pow 10 (-exponent).toNat)

/-- The exponent part: nothing, or an `e` with a signed integer. -/
def readExponent? : List Char → Option Int
  | [] => some 0
  | c :: rest => if c = 'e' ∨ c = 'E' then readInt? rest else none

def readFraction : List Char → List Char × List Char
  | '.' :: rest => (rest.takeWhile Char.isDigit, rest.dropWhile Char.isDigit)
  | cs => ([], cs)

def readUnsigned? (negative : Bool) (cs : List Char) : Option Float :=
  let whole := cs.takeWhile Char.isDigit
  let (fraction, rest) := readFraction (cs.dropWhile Char.isDigit)
  if whole.isEmpty && fraction.isEmpty then none
  else
    (readExponent? rest).map fun e =>
      toFloat negative (readDigits (readDigits 0 whole) fraction) (e - fraction.length)

def readFloat? (cs : List Char) : Option Float :=
  let (negative, cs) := takeSign cs
  let name := lowercase cs
  if name = "inf".toList ∨ name = "infinity".toList then
    some (if negative then -Binary64.infinity else Binary64.infinity)
  else if name = "nan".toList then some Binary64.nan
  else readUnsigned? negative cs

end SymbolicAlgebra.Decimal
