import SymbolicAlgebra.Rules.Template

/-!
# Preparing divisions

Brings quotients to the front and pulls literals out of them.
-/

namespace SymbolicAlgebra.Rules

open SymbolicAlgebra.Expr

def timesReciprocal : Template
  | product a (quotient one b) => if one.isInt 1 then some (quotient a b) else none
  | _ => none

def literalOutOfDividend : Template
  | quotient (product (num c) a) b => some (product (num c) (quotient a b))
  | _ => none

/-- `(c / a) * b` to `c * (b / a)` for a literal `c`. -/
def literalOutOfQuotient : Template
  | product (quotient (num c) a) b => some (product (num c) (quotient b a))
  | _ => none

def prepareDivisions : Expr → Expr :=
  Template.rewrite [timesReciprocal, literalOutOfDividend, literalOutOfQuotient]

end SymbolicAlgebra.Rules
