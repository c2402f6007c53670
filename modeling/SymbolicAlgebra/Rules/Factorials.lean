import SymbolicAlgebra.Chain
import SymbolicAlgebra.Rules.Template

/-!
# Factorials

`(x + c)! * (x + c + 1)` is `(x + c + 1)!`, and `(x + a)! / (x + b)!` is a product of consecutive
factors, or one over such a product, when `a - b` is a small integer.
-/

namespace SymbolicAlgebra.Rules

open SymbolicAlgebra.Expr

def maxUnroll : Nat := 20

/-- A tree as a base and a literal added to it. -/
def offset : Expr → Expr × Number
  | sum x (num c) => (x, c)
  | t => (t, 0)

def shifted (base : Expr) (c : Number) : Expr := if c.isZero then base else sum base (num c)

def factorialTimesNext : Template
  | product (factorial inner) multiplier =>
    let (base, c) := offset inner
    let (other, d) := offset multiplier
    if base == other && c.add 1 == d then some (factorial multiplier) else none
  | _ => none

/-- The factors `x + (low + 1)` to `x + (low + count)`. -/
def risingFactors (base : Expr) (low : Number) (count : Nat) : List Expr :=
  (List.range count).map fun (k : Nat) => shifted base (low.add (.integer (k + 1)))

def factorialQuotient : Template
  | quotient (factorial n) (factorial d) =>
    let (base, a) := offset n
    let (other, b) := offset d
    if base == other then
      match (a.sub b).toInt? with
      | some distance =>
        if distance = 0 ∨ maxUnroll ≤ distance.natAbs then none
        else if 0 < distance then
          Chain.linear product (risingFactors base b distance.natAbs)
        else
          (Chain.linear product (risingFactors base a distance.natAbs)).map (quotient (int 1))
      | none => none
    else none
  | _ => none

def collapseFactorialMultiplications : Expr → Expr := Template.rewrite [factorialTimesNext]

def expandFactorialDivisions : Expr → Expr := Template.rewrite [factorialQuotient]

end SymbolicAlgebra.Rules
