import SymbolicAlgebra.Expr.Traversal
import SymbolicAlgebra.Rules.Template

/-!
# Numeric folding

Arithmetic on literals and neutral elements. Division by zero and operations that would turn finite
literals into non-finite ones are left as they are; powers are folded for integer exponents only, so
that exact values stay exact.
-/

namespace SymbolicAlgebra.Folding

open SymbolicAlgebra.Expr

/-- The value of an operator on literals, where it may be folded. -/
def literalValue? : Operator → Number → Number → Option Number
  | .sum, a, b => some (a.add b)
  | .difference, a, b => some (a.sub b)
  | .product, a, b => some (a.mul b)
  | .quotient, a, b => if b.isZero then none else some (a.div b)
  | .power, a, b => if b.isInteger then some (a.pow b) else none

def literals : Template
  | binary op (num a) (num b) =>
    ((literalValue? op a b).filter fun value =>
      value.isFinite || !(a.isFinite && b.isFinite)).map num
  | _ => none

def sumWithZero : Template
  | sum a b => if b.isZero then some a else if a.isZero then some b else none
  | _ => none

/-- `a + -1 * t` to `a - t`. -/
def sumWithNegated : Template
  | sum a (product m t) => if m.isInt (-1) then some (difference a t) else none
  | _ => none

def negatedInSum : Template
  | sum (product m t) b => if m.isInt (-1) then some (difference b t) else none
  | _ => none

def differenceWithZero : Template
  | difference a b => if b.isZero then some a else if a.isZero then some (negate b) else none
  | _ => none

def differenceWithNegated : Template
  | difference a (product m t) => if m.isInt (-1) then some (sum a t) else none
  | _ => none

def productWithOne : Template
  | product a b => if a.isInt 1 then some b else if b.isInt 1 then some a else none
  | _ => none

/-- A product with zero and a finite factor. -/
def productWithZero : Template
  | product a b =>
    if (a.isZero && b.isFinite) || (b.isZero && a.isFinite) then some (int 0) else none
  | _ => none

def quotientByOne : Template
  | quotient a b => if b.isInt 1 then some a else none
  | _ => none

/-- A literal divisor is left to `literals`, which does not divide by zero. -/
def quotientOfZero : Template
  | quotient a b => if a.isZero && b.isFinite && !b.isNumber then some (int 0) else none
  | _ => none

def powerToOne : Template
  | power a b => if b.isInt 1 then some a else none
  | _ => none

def powerToZero : Template
  | power a b => if b.isInt 0 && a.isFinite then some (int 1) else none
  | _ => none

def powerOfOne : Template
  | power a b => if a.isInt 1 && b.isFinite then some (int 1) else none
  | _ => none

def family : List Template :=
  [literals, sumWithZero, sumWithNegated, negatedInSum, differenceWithZero, differenceWithNegated,
    productWithOne, productWithZero, quotientByOne, quotientOfZero, powerToOne, powerToZero,
    powerOfOne]

def foldNode : Expr → Expr := Template.rewrite family

def fold (t : Expr) : Expr := t.rewrite foldNode

end SymbolicAlgebra.Folding
