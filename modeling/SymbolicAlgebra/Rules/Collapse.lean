import SymbolicAlgebra.Rules.Factors

/-!
# Collapsing

Differences of powers are written as products of conjugates, shared factors are taken out, and
powers with one exponent are merged.
-/

namespace SymbolicAlgebra.Rules

open SymbolicAlgebra.Expr

def conjugateProduct (a b : Expr) : Expr := product (difference a b) (sum a b)

/-- `a ^ c - b ^ d` to `(a ^ (c/2) - b ^ (d/2)) * (a ^ (c/2) + b ^ (d/2))` for literals `c` and
`d`. -/
def powerDifference : Template
  | difference (power a (num c)) (power b (num d)) =>
    some (conjugateProduct (power a (num (c.div 2))) (power b (num (d.div 2))))
  | _ => none

/-- `a ^ 2 - c` to `(a - c ^ (1/2)) * (a + c ^ (1/2))` for a literal `c`. -/
def squareMinusLiteral : Template
  | difference p (num c) =>
    p.squared?.map fun a => conjugateProduct a (literalPower c (.ofRat (1 / 2)))
  | _ => none

def equalExponents : Template
  | product (power a n) (power b m) => if n == m then some (power (product a b) n) else none
  | _ => none

def collapseFamily : List Template :=
  [powerDifference, squareMinusLiteral, factorTerms collapseOrder, equalExponents]

def collapse : Expr → Expr := Template.rewrite collapseFamily

end SymbolicAlgebra.Rules
