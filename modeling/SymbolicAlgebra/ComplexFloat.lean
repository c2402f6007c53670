import SymbolicAlgebra.Binary64

/-!
# Complex numbers over doubles

Pairs of doubles with plain double arithmetic in a fixed order of operations, so that rounding and
the signs of zeros are determined. Roots and logarithms are principal values.
-/

namespace SymbolicAlgebra

structure ComplexFloat where
  re : Float
  im : Float

namespace ComplexFloat

def ofReal (x : Float) : ComplexFloat := ⟨x, 0⟩

def one : ComplexFloat := ⟨1, 0⟩
def i : ComplexFloat := ⟨0, 1⟩

def add (z w : ComplexFloat) : ComplexFloat := ⟨z.re + w.re, z.im + w.im⟩
def sub (z w : ComplexFloat) : ComplexFloat := ⟨z.re - w.re, z.im - w.im⟩
def neg (z : ComplexFloat) : ComplexFloat := ⟨-z.re, -z.im⟩

def mul (z w : ComplexFloat) : ComplexFloat :=
  ⟨z.re * w.re - z.im * w.im, z.re * w.im + z.im * w.re⟩

def normSq (z : ComplexFloat) : Float := z.re * z.re + z.im * z.im

def div (z w : ComplexFloat) : ComplexFloat :=
  let n := w.normSq
  ⟨(z.re * w.re + z.im * w.im) / n, (z.im * w.re - z.re * w.im) / n⟩

def inv (z : ComplexFloat) : ComplexFloat :=
  let n := z.normSq
  ⟨z.re / n, -z.im / n⟩

def scale (z : ComplexFloat) (r : Float) : ComplexFloat := ⟨z.re * r, z.im * r⟩

def addReal (z : ComplexFloat) (r : Float) : ComplexFloat := ⟨z.re + r, z.im⟩

/-- A real number divided by a complex one. -/
def realDiv (r : Float) (z : ComplexFloat) : ComplexFloat :=
  let n := z.normSq
  ⟨r * z.re / n, (0 - r * z.im) / n⟩

/-- The double nearest to `sqrt n * 2^e`. The root is taken with 64 more bits and marked when it
is not exact, so a tie is told from a near tie. -/
def sqrtScaled (n : Nat) (e : Int) : Float :=
  let wide := n * Nat.pow 2 128
  let root := Nat.sqrt wide
  let marked := 2 * root + if root * root = wide then 0 else 1
  let e := e - 65
  Binary64.ofRatio false (marked * Nat.pow 2 e.toNat) (Nat.pow 2 (-e).toNat)

/-- The length of a pair, free of overflow on the way. -/
def hypot (x y : Float) : Float :=
  if x.isInf || y.isInf then Binary64.infinity
  else if x.isNaN || y.isNaN then Binary64.nan
  else
    let p := Binary64.parts x
    let q := Binary64.parts y
    let e := if p.exponent ≤ q.exponent then p.exponent else q.exponent
    let a := p.mantissa * Nat.pow 2 (p.exponent - e).toNat
    let b := q.mantissa * Nat.pow 2 (q.exponent - e).toNat
    sqrtScaled (a * a + b * b) e

def norm (z : ComplexFloat) : Float := hypot z.re z.im

/-- The sign of a zero real part only counts beside a zero imaginary part. -/
def arg (z : ComplexFloat) : Float :=
  Float.atan2 z.im (if z.re == 0 && !(z.im == 0) then 0 else z.re)

def ofPolar (r theta : Float) : ComplexFloat := ⟨r * theta.cos, r * theta.sin⟩

def log (z : ComplexFloat) : ComplexFloat := ⟨z.norm.log, z.arg⟩

/-- Infinite and undefined real parts are decided before the polar form. -/
def exp (z : ComplexFloat) : ComplexFloat :=
  if z.re.isInf then
    if z.re < 0 then
      if z.im.isFinite then ofPolar z.re.exp z.im else ⟨0, 0⟩
    else if z.im == 0 then z
    else if z.im.isFinite then ofPolar z.re.exp z.im
    else ⟨z.re, Binary64.nan⟩
  else if z.re.isNaN && z.im == 0 then z
  else ofPolar z.re.exp z.im

def isZero (z : ComplexFloat) : Bool := z.re == 0 && z.im == 0

def pow (z w : ComplexFloat) : ComplexFloat :=
  if w.isZero then one else exp (mul w z.log)

/-- On the axes the root is taken of a real number; the sign of a zero imaginary part tells the
sides of the branch cut apart. -/
def sqrt (z : ComplexFloat) : ComplexFloat :=
  let side (x : Float) : Float := if Binary64.isNegative z.im then -x else x
  if z.im == 0 then
    if Binary64.isNegative z.re then ⟨0, side (-z.re).sqrt⟩ else ⟨z.re.sqrt, z.im⟩
  else if z.re == 0 then
    let x := (z.im.abs / 2).sqrt
    ⟨x, side x⟩
  else ofPolar z.norm.sqrt (z.arg / 2)

def sin (z : ComplexFloat) : ComplexFloat := ⟨z.re.sin * z.im.cosh, z.re.cos * z.im.sinh⟩
def cos (z : ComplexFloat) : ComplexFloat := ⟨z.re.cos * z.im.cosh, -z.re.sin * z.im.sinh⟩

def tan (z : ComplexFloat) : ComplexFloat :=
  let re := z.re + z.re
  let im := z.im + z.im
  let d := re.cos + im.cosh
  ⟨re.sin / d, im.sinh / d⟩

def arcsin (z : ComplexFloat) : ComplexFloat :=
  mul i.neg (add (sqrt (sub one (mul z z))) (mul i z)).log

def arccos (z : ComplexFloat) : ComplexFloat :=
  mul i.neg (add (mul i (sqrt (sub one (mul z z)))) z).log

/-- The poles are `i` and `-i`. -/
def arctan (z : ComplexFloat) : ComplexFloat :=
  if z.re == 0 && z.im == 1 then ⟨0, Binary64.infinity⟩
  else if z.re == 0 && z.im == -1 then ⟨0, -Binary64.infinity⟩
  else
    let iz := mul i z
    div (sub (add one iz).log (sub one iz).log) ⟨0, 2⟩

def isFinite (z : ComplexFloat) : Bool := z.re.isFinite && z.im.isFinite

def isNaN (z : ComplexFloat) : Bool := z.re.isNaN || z.im.isNaN

def same (z w : ComplexFloat) : Bool := Binary64.same z.re w.re && Binary64.same z.im w.im

end ComplexFloat

end SymbolicAlgebra
