import SymbolicAlgebra.Binary64
import SymbolicAlgebra.Decimal.Basic

/-!
# Doubles as decimal numerals

`shortest` gives the fewest digits that read back as the same double and, of those, the numeral
nearest to it; `significant` gives a fixed number of digits of the exact value. Both look at the
grid of numerals with `n` digits on which the value lies, and all arithmetic is in naturals.

`text` and `roundedText` are the two written forms of a double.
-/

namespace SymbolicAlgebra.Decimal

structure Magnitude where
  numerator : Nat
  denominator : Nat

def Magnitude.ofBinary (m : Nat) (e : Int) : Magnitude :=
  ⟨m * Nat.pow 2 e.toNat, Nat.pow 2 (-e).toNat⟩

def Magnitude.belowPower (v : Magnitude) (p : Int) : Bool :=
  v.numerator * Nat.pow 10 (-p).toNat < v.denominator * Nat.pow 10 p.toNat

/-- The least `p` with the magnitude below `10^p`. Its binary logarithm fixes `p` up to two, since
`log10 2` is close to `30103 / 100000`. -/
def Magnitude.decimalPoint (v : Magnitude) : Int :=
  let binary : Int := (v.numerator.log2 : Int) - v.denominator.log2 - 1
  let p := binary * 30103 / 100000
  if v.belowPower p then p
  else if v.belowPower (p + 1) then p + 1
  else if v.belowPower (p + 2) then p + 2
  else p + 3

def Magnitude.inUnits (v : Magnitude) (k : Int) : Magnitude :=
  ⟨v.numerator * Nat.pow 10 (-k).toNat, v.denominator * Nat.pow 10 k.toNat⟩

/-- The numbers that round to a positive double: `low ≤ x ≤ high` in quarters of its last place,
the ends themselves only for an even mantissa. Below a power of two the doubles are twice as
dense. -/
structure Interval where
  low : Nat
  value : Nat
  high : Nat
  closed : Bool
  exponent : Int

def Interval.ofParts (p : Binary64.Parts) : Interval :=
  let m := p.mantissa
  let lowGap :=
    if m = Binary64.fractionWeight ∧ Binary64.minExponent < p.exponent then 1 else 2
  { low := 4 * m - lowGap
    value := 4 * m
    high := 4 * m + 2
    closed := m % 2 = 0
    exponent := p.exponent - 2 }

/-- The multiple of `10^k` nearest to the value among its two neighbours that lie in the interval;
a tie goes to the greater one. -/
def Interval.onGrid (i : Interval) (k : Int) : Option Nat :=
  let unit := (Magnitude.ofBinary 1 i.exponent).inUnits k
  let scaled := i.value * unit.numerator
  let below := scaled / unit.denominator
  let inside (c : Nat) : Bool :=
    let c := c * unit.denominator
    let low := i.low * unit.numerator
    let high := i.high * unit.numerator
    if i.closed then low ≤ c && c ≤ high else low < c && c < high
  let down := inside below
  let up := inside (below + 1)
  if up && (!down || unit.denominator ≤ 2 * (scaled % unit.denominator)) then some (below + 1)
  else if down then some below
  else none

/-- Tries `n` digits, then one more, up to seventeen, which always suffice. -/
def Interval.shortestFrom (i : Interval) (point : Int) : (fuel n : Nat) → Decimal
  | 0, n => ⟨((i.onGrid (point - n)).getD 0), point - n⟩
  | fuel + 1, n =>
    match i.onGrid (point - n) with
    | some c => ⟨c, point - n⟩
    | none => i.shortestFrom point fuel (n + 1)

def shortest (p : Binary64.Parts) : Decimal :=
  let point := (Magnitude.ofBinary p.mantissa p.exponent).decimalPoint
  ((Interval.ofParts p).shortestFrom point 16 1).stripZeros 20

def significant (n : Nat) (p : Binary64.Parts) : Decimal :=
  if p.mantissa = 0 then ⟨0, 0⟩
  else
    let v := Magnitude.ofBinary p.mantissa p.exponent
    let k := v.decimalPoint - n
    let scaled := v.inUnits k
    let c := Binary64.roundHalfEven scaled.numerator scaled.denominator
    if c = Nat.pow 10 n then ⟨Nat.pow 10 (n - 1), k + 1⟩ else ⟨c, k⟩

def signed (negative : Bool) (text : List Char) : List Char :=
  if negative then '-' :: text else text

def specialText (x : Float) : Option (List Char) :=
  if x.isNaN then some "NaN".toList
  else if x.isFinite then none
  else some (signed (x < 0) "inf".toList)

def text (x : Float) : List Char :=
  match specialText x with
  | some t => t
  | none =>
    let p := Binary64.parts x
    signed p.negative (if p.mantissa = 0 then ['0'] else (shortest p).positional)

def scientificZero (n : Nat) : List Char :=
  '0' :: (if n ≤ 1 then [] else '.' :: zeros (n - 1)) ++ ['e', '0']

def roundedText (n : Nat) (x : Float) : List Char :=
  match specialText x with
  | some t => t
  | none =>
    let p := Binary64.parts x
    signed p.negative (if p.mantissa = 0 then scientificZero n else (significant n p).scientific)

end SymbolicAlgebra.Decimal
