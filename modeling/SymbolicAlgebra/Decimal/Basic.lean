/-!
# Decimal numerals

A numeral is `coefficient * 10^exponent`. `positional` writes all places and never an exponent;
`scientific` writes one digit before the point and the exponent after an `e`.
-/

namespace SymbolicAlgebra

structure Decimal where
  coefficient : Nat
  exponent : Int

namespace Decimal

/-- The same numeral without trailing zeros in the coefficient, at most `fuel` of them. -/
def stripZeros : Nat → Decimal → Decimal
  | 0, d => d
  | fuel + 1, d =>
    if d.coefficient ≠ 0 ∧ d.coefficient % 10 = 0 then
      stripZeros fuel ⟨d.coefficient / 10, d.exponent + 1⟩
    else d

def digits (d : Decimal) : List Char := d.coefficient.repr.toList

def zeros (n : Nat) : List Char := List.replicate n '0'

def positional (d : Decimal) : List Char :=
  let ds := d.digits
  if 0 ≤ d.exponent then ds ++ zeros d.exponent.toNat
  else
    let places := (-d.exponent).toNat
    if places < ds.length then
      ds.take (ds.length - places) ++ '.' :: ds.drop (ds.length - places)
    else '0' :: '.' :: zeros (places - ds.length) ++ ds

def scientific (d : Decimal) : List Char :=
  match d.digits with
  | [] => []
  | first :: rest =>
    let point := if rest.isEmpty then [] else '.' :: rest
    first :: point ++ 'e' :: (d.exponent + rest.length).repr.toList

end Decimal

end SymbolicAlgebra
