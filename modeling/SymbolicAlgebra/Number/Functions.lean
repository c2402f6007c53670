import SymbolicAlgebra.Number.Arithmetic

/-!
# Elementary functions of numbers

A function takes its real branch where that is defined and the complex branch elsewhere. Factorials
of small natural numbers are exact.
-/

namespace SymbolicAlgebra.Number

def viaReal (onReal : Float → Float) (onComplex : ComplexFloat → ComplexFloat) (a : Number) :
    Number :=
  match a.toFloat? with
  | some x => .real (onReal x)
  | none => ofComplex (onComplex a.toComplex)

/-- For functions whose real branch is defined on `[-1, 1]` only. -/
def viaUnitInterval (onReal : Float → Float) (onComplex : ComplexFloat → ComplexFloat)
    (a : Number) : Number :=
  match a.toFloat? with
  | some x =>
    if -1 ≤ x && x ≤ 1 then .real (onReal x) else ofComplex (onComplex a.toComplex)
  | none => ofComplex (onComplex a.toComplex)

def sin : Number → Number := viaReal .sin .sin
def cos : Number → Number := viaReal .cos .cos
def tan : Number → Number := viaReal .tan .tan
def cot : Number → Number := viaReal (fun x => 1 / x.tan) fun z => z.tan.inv

def arcsin : Number → Number := viaUnitInterval .asin .arcsin
def arccos : Number → Number := viaUnitInterval .acos .arccos
def arctan : Number → Number := viaReal .atan .arctan

/-- The complement of the arc tangent to a right angle, continuous on the real line. -/
def arccot : Number → Number :=
  viaReal (fun x => Binary64.pi / 2 - x.atan) fun z => .sub (.ofReal (Binary64.pi / 2)) z.arctan

/-- The logarithm of `a` to a base. -/
def log (base a : Number) : Number :=
  let general := ofComplex (.div a.toComplex.log base.toComplex.log)
  match base.toFloat?, a.toFloat? with
  | some b, some x => if 0 < b && 0 < x then .real (x.log / b.log) else general
  | _, _ => general

/-- The greatest argument of an exact factorial. -/
def maxExactFactorial : Nat := 2000

def natFactorial : Nat → Nat
  | 0 => 1
  | n + 1 => (n + 1) * natFactorial n

/-- A negative integer has no factorial. -/
def inexactFactorial (a : Number) : Number :=
  let general := ofComplex (Gamma.gamma (a.toComplex.addReal 1))
  match a.toFloat? with
  | some x => if x < 0 && Binary64.isIntegral x then nan else general
  | none => general

def factorial (a : Number) : Number :=
  match a.toInt? with
  | some (.ofNat n) =>
    if n ≤ maxExactFactorial then .integer (natFactorial n) else inexactFactorial a
  | some (.negSucc n) => if n < 9223372036854775808 then nan else inexactFactorial a
  | none => inexactFactorial a

end SymbolicAlgebra.Number
