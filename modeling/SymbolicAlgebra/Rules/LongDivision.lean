import SymbolicAlgebra.Polynomial
import SymbolicAlgebra.Rules.Template

/-!
# Polynomial long division

A quotient of two trees without numeric value becomes `q + r / d`, or just `q` when nothing remains,
if the divider succeeds for a free variable of the divisor. The variables are tried in order.
-/

namespace SymbolicAlgebra.Rules

open SymbolicAlgebra.Expr

def divisible (n d : Expr) : Bool := !n.canBeEvaluated && !d.canBeEvaluated

def mixed (d q r : Expr) : Expr :=
  if r.isZero then q else sum q (quotient r d)

def divideIn (divider : Divider) (n d : Expr) (name : String) : Option Expr :=
  (divider.divide? n d name).map fun (q, r) => mixed d q r

def divisionTemplate (divider : Divider) : Template
  | quotient n d =>
    if divisible n d then d.freeVariables.findSome? (divideIn divider n d) else none
  | _ => none

def longDivision (divider : Divider) : Expr → Expr := Template.rewrite [divisionTemplate divider]

/-- What the divider evaluates for the variables up to the first for which it succeeds. -/
def evaluatedFor (divider : Divider) (n d : Expr) : List String → List Expr
  | [] => []
  | name :: names =>
    divider.evaluated n d name ++
      if (divider.divide? n d name).isSome then [] else evaluatedFor divider n d names

/-- The trees that long division at the root evaluates. -/
def longDivisionEvaluated (divider : Divider) : Expr → List Expr
  | quotient n d => if divisible n d then evaluatedFor divider n d d.freeVariables else []
  | _ => []

end SymbolicAlgebra.Rules
