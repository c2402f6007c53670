import SymbolicAlgebra.Rules.Template

/-!
# Negative powers and multipliers

`a ^ -n` becomes `1 / a ^ n`, and `a + -c * b` becomes `a - c * b`.
-/

namespace SymbolicAlgebra.Rules

open SymbolicAlgebra.Expr

/-- `a ^ -n` to `1 / a ^ n` for an integer `n > 0`; the power of one is left out. -/
def negativePower : Template
  | power base (num (.integer n)) =>
    if n = -1 then some (quotient (int 1) base)
    else if n < 0 then some (quotient (int 1) (power base (int (-n))))
    else none
  | _ => none

/-- `a + c * b` to `a - -c * b` for a negative real literal `c`. -/
def negativeMultiplier : Template
  | sum a (product (num c) b) =>
    if c.isNegative then some (difference a (product (num c.neg) b)) else none
  | _ => none

def invertNegativePowers : Expr → Expr := Template.rewrite [negativePower]

def invertNegativeMultipliers : Expr → Expr := Template.rewrite [negativeMultiplier]

end SymbolicAlgebra.Rules
