import SymbolicAlgebra.Rules.Template

/-!
# Shared factors

Two products may share a factor at either place; which pair of places is tried first is a matter of
the rule that asks. `factorTerms` takes a shared factor out of a sum or difference.
-/

namespace SymbolicAlgebra.Rules

open SymbolicAlgebra.Expr

inductive Place where
  | left | right
  deriving DecidableEq

def Place.factor : Place → Expr → Expr → Expr
  | .left, a, _ => a
  | .right, _, b => b

def Place.cofactor : Place → Expr → Expr → Expr
  | .left, _, b => b
  | .right, a, _ => a

/-- Pairs of places in two products, in the order in which they are compared. -/
abbrev FactorOrder := List (Place × Place)

def sumOrder : FactorOrder :=
  [(.left, .left), (.right, .left), (.left, .right), (.right, .right)]

def collapseOrder : FactorOrder :=
  [(.left, .left), (.left, .right), (.right, .left), (.right, .right)]

def quotientOrder : FactorOrder :=
  [(.right, .left), (.right, .right), (.left, .left), (.left, .right)]

structure SharedFactor where
  factor : Expr
  left : Expr
  right : Expr

/-- The first shared factor of two products, with what is left of each. -/
def sharedFactor? (order : FactorOrder) : Expr → Expr → Option SharedFactor
  | product a b, product c d =>
    (order.find? fun (i, j) => i.factor a b == j.factor c d).map fun (i, j) =>
      ⟨i.factor a b, i.cofactor a b, j.cofactor c d⟩
  | _, _ => none

/-- The other factor of a product that has the factor `a`. -/
def cofactor? (t a : Expr) : Option Expr :=
  match t with
  | product l r => if l == a then some r else if r == a then some l else none
  | _ => none

def factorProducts (order : FactorOrder) (join : Expr → Expr → Expr) (p q : Expr) : Option Expr :=
  (sharedFactor? order p q).map fun shared => product shared.factor (join shared.left shared.right)

def factorLeftTerm (join : Expr → Expr → Expr) (p q : Expr) : Option Expr :=
  (cofactor? q p).map fun b => product p (join (int 1) b)

def factorRightTerm (join : Expr → Expr → Expr) (p q : Expr) : Option Expr :=
  (cofactor? p q).map fun b => product q (join b (int 1))

def factorLeftDividend (p q : Expr) : Option Expr :=
  match p with
  | quotient a b => (cofactor? q a).map fun c => product a (sum (quotient (int 1) b) c)
  | _ => none

def factorRightDividend (p q : Expr) : Option Expr :=
  match q with
  | quotient a c => (cofactor? p a).map fun b => product a (sum b (quotient (int 1) c))
  | _ => none

def factorSum (order : FactorOrder) (p q : Expr) : Option Expr :=
  factorProducts order sum p q <|> factorLeftTerm sum p q <|> factorRightTerm sum p q <|>
    factorLeftDividend p q <|> factorRightDividend p q

def factorDifference (order : FactorOrder) (p q : Expr) : Option Expr :=
  factorProducts order difference p q <|> factorLeftTerm difference p q <|>
    factorRightTerm difference p q

def factorTerms (order : FactorOrder) : Template
  | sum p q => factorSum order p q
  | difference p q => factorDifference order p q
  | _ => none

end SymbolicAlgebra.Rules
