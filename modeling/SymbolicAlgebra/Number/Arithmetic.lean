import SymbolicAlgebra.Decimal.Reader
import SymbolicAlgebra.Number.Basic

/-!
# Arithmetic of numbers

Exact operands give the exact number of the rational result. Otherwise both operands are widened to
doubles, or to complex numbers if one of them is complex. Division by an exact zero and powers
outside the exact range are inexact too. The range is tested on words, in which the least one is its
own absolute value.
-/

namespace SymbolicAlgebra.Number

def maxExactExponent : Nat := 4096

def widened (onReal : Float → Float → Float)
    (onComplex : ComplexFloat → ComplexFloat → ComplexFloat) (a b : Number) : Number :=
  match a.toFloat?, b.toFloat? with
  | some x, some y => .real (onReal x y)
  | _, _ => ofComplex (onComplex a.toComplex b.toComplex)

def add (a b : Number) : Number :=
  match a.toRat?, b.toRat? with
  | some p, some q => ofRat (p + q)
  | _, _ => widened (· + ·) .add a b

def sub (a b : Number) : Number :=
  match a.toRat?, b.toRat? with
  | some p, some q => ofRat (p - q)
  | _, _ => widened (· - ·) .sub a b

def mul (a b : Number) : Number :=
  match a.toRat?, b.toRat? with
  | some p, some q => ofRat (p * q)
  | _, _ => widened (· * ·) .mul a b

def div (a b : Number) : Number :=
  match a.toRat?, b.toRat? with
  | some p, some q =>
    if q = 0 then widened (· / ·) .div a b else ofRat (p / q)
  | _, _ => widened (· / ·) .div a b

def neg : Number → Number
  | integer n => .integer (-n)
  | rational q h => .rational (-q) (by simpa using h)
  | real x => .real (-x)
  | complex z _ => ofComplex z.neg

def abs : Number → Number
  | integer n => .integer n.natAbs
  | rational q h => if q.num < 0 then .rational (-q) (by simpa using h) else .rational q h
  | real x => .real x.abs
  | complex z _ => .real z.norm

/-- The integer as a word, where the number is one that fits. -/
def toWord? (a : Number) : Option Int64 := (a.toInt?.filter Decimal.fitsWord).map .ofInt

def hasExactPower (base : Rat) (e : Int64) : Bool :=
  e.abs.toInt ≤ maxExactExponent && !(base = 0 && e < 0)

/-- A real base and exponent have a real power if the base is not negative, or the exponent is an
integer or not finite. -/
def inexactPow (a b : Number) : Number :=
  match a.toFloat?, b.toFloat? with
  | some x, some y =>
    if 0 ≤ x || Binary64.isIntegral y || !y.isFinite then .real (Binary64.pow x y)
    else ofComplex (a.toComplex.pow b.toComplex)
  | _, _ => ofComplex (a.toComplex.pow b.toComplex)

/-- An exact power is computed with the low half of the exponent. -/
def pow (a b : Number) : Number :=
  match a.toRat?, b.toWord? with
  | some base, some e =>
    if hasExactPower base e then ofRat (base ^ e.toInt32.toInt) else inexactPow a b
  | _, _ => inexactPow a b

end SymbolicAlgebra.Number
