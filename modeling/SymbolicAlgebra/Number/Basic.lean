import SymbolicAlgebra.ComplexFloat
import SymbolicAlgebra.Gamma
import SymbolicAlgebra.Decimal.Rounding

/-!
# The number tower

A number is an integer, a rational that is no integer, a double or a pair of doubles whose
imaginary part is not zero. The first two are exact: each rational value has one exact number,
`ofRat`. A complex result with a zero imaginary part becomes real.

`same` is the equality of numbers: same tier and same value, where NaN equals NaN and the zeros
are equal.
-/

namespace SymbolicAlgebra

inductive Number where
  | integer (n : Int)
  | rational (q : Rat) (fractional : q.den ≠ 1)
  | real (x : Float)
  | complex (z : ComplexFloat) (nonreal : (z.im == 0) = false)

namespace Number

/-- The exact number of a rational value. -/
def ofRat (q : Rat) : Number :=
  if h : q.den = 1 then .integer q.num else .rational q h

/-- The quotient of two integers; over zero it is not finite. -/
def ofRatio (n d : Int) : Number :=
  if d = 0 then .real (Binary64.ofInt n / 0) else ofRat (n / d)

def ofComplex (z : ComplexFloat) : Number :=
  if h : z.im == 0 then .real z.re else .complex z (by simpa using h)

def nan : Number := .real Binary64.nan

/-- The imaginary unit. -/
def i : Number := .complex ComplexFloat.i (by decide)

instance : OfNat Number n := ⟨.integer n⟩

instance : Inhabited Number := ⟨0⟩

/-- Place in the tower, from integers up. -/
def tier : Number → Nat
  | integer _ => 0
  | rational _ _ => 1
  | real _ => 2
  | complex _ _ => 3

def isInteger : Number → Bool
  | integer _ => true
  | _ => false

def isReal : Number → Bool
  | complex _ _ => false
  | _ => true

def isExact : Number → Bool
  | integer _ => true
  | rational _ _ => true
  | _ => false

def isFinite : Number → Bool
  | integer _ => true
  | rational _ _ => true
  | real x => x.isFinite
  | complex z _ => z.isFinite

def isNaN : Number → Bool
  | integer _ => false
  | rational _ _ => false
  | real x => x.isNaN
  | complex z _ => z.isNaN

/-- Real and below zero. -/
def isNegative : Number → Bool
  | integer n => n < 0
  | rational q _ => q.num < 0
  | real x => x < 0
  | complex _ _ => false

def isZero : Number → Bool
  | integer n => n = 0
  | rational q _ => q.num = 0
  | real x => x == 0
  | complex z _ => z.isZero

def isOne : Number → Bool
  | integer n => n = 1
  | rational _ _ => false
  | real x => x == 1
  | complex z _ => z.re == 1 && z.im == 0

def same : Number → Number → Bool
  | integer m, integer n => m = n
  | rational p _, rational q _ => p = q
  | real x, real y => Binary64.same x y
  | complex z _, complex w _ => z.same w
  | _, _ => false

instance : BEq Number := ⟨same⟩

/-- The value of an exact number. -/
def toRat? : Number → Option Rat
  | integer n => some n
  | rational q _ => some q
  | _ => none

/-- The integer, where the number is one. -/
def toInt? : Number → Option Int
  | integer n => some n
  | _ => none

/-- The nearest double; none for a complex number. -/
def toFloat? : Number → Option Float
  | integer n => some (Binary64.ofInt n)
  | rational q _ => some (Binary64.ofRat q)
  | real x => some x
  | complex _ _ => none

def toComplex : Number → ComplexFloat
  | integer n => .ofReal (Binary64.ofInt n)
  | rational q _ => .ofReal (Binary64.ofRat q)
  | real x => .ofReal x
  | complex z _ => z

def ratText (q : Rat) : List Char := q.num.repr.toList ++ '/' :: q.den.repr.toList

/-- The imaginary part is written with its sign as an operator. -/
def complexText (z : ComplexFloat) : List Char :=
  if z.im < 0 then Decimal.text z.re ++ " - ".toList ++ Decimal.text (-z.im) ++ ['i']
  else Decimal.text z.re ++ " + ".toList ++ Decimal.text z.im ++ ['i']

def text : Number → List Char
  | integer n => n.repr.toList
  | rational q _ => ratText q
  | real x => Decimal.text x
  | complex z _ => complexText z

end Number

end SymbolicAlgebra
