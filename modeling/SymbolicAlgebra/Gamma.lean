import SymbolicAlgebra.ComplexFloat

/-!
# The gamma function

Lanczos' series with `g = 7` and nine coefficients, valid for a real part of at least `1/2`; the
reflection formula covers the rest of the plane.
-/

namespace SymbolicAlgebra.Gamma

open ComplexFloat Binary64

def leading : Float := 0.9999999999998099

/-- The coefficients of `1 / (z + 1)`, `1 / (z + 2)` and so on. -/
def coefficients : List Float :=
  [676.5203681218851, -1259.1392167224028, 771.3234287776531, -176.6150291621406,
    12.507343278686905, -0.13857109526572012, 9.984369578019572e-6, 1.5056327351493116e-7]

def series (z : ComplexFloat) : ComplexFloat :=
  (coefficients.zip [1, 2, 3, 4, 5, 6, 7, 8]).foldl
    (fun sum (c, k) => add sum (realDiv c (z.addReal k))) (ofReal leading)

def rightHalf (z : ComplexFloat) : ComplexFloat :=
  let z := z.addReal (-1)
  let t := (z.addReal 7).addReal 0.5
  mul (mul ((t.pow (z.addReal 0.5)).scale (2 * pi).sqrt) t.neg.exp) (series z)

def gamma (z : ComplexFloat) : ComplexFloat :=
  if z.re < 0.5 then
    div (ofReal pi) (mul (z.scale pi).sin (rightHalf (sub one z)))
  else rightHalf z

end SymbolicAlgebra.Gamma
