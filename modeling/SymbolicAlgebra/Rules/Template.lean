import SymbolicAlgebra.Expr.Equality
import SymbolicAlgebra.Number.Arithmetic

/-!
# Templates

A template looks at the root of a tree and either has a result or does not match. A family of
templates is a list, tried in order; the first match gives the result and a tree that matches none
stays as it is. `rewrite_of_forall` lifts a relation from the templates to the family.

The literal operations at the end compute with literals right away and build a node otherwise.
-/

namespace SymbolicAlgebra

abbrev Template := Expr → Option Expr

namespace Template

def first (family : List Template) : Template := fun t => family.findSome? fun template => template t

def rewrite (family : List Template) (t : Expr) : Expr := (first family t).getD t

theorem rewrite_of_forall {R : Expr → Expr → Prop} {family : List Template} {t : Expr}
    (refl : R t t) (h : ∀ template ∈ family, ∀ u, template t = some u → R t u) :
    R t (rewrite family t) := by
  unfold rewrite first
  cases hf : family.findSome? fun template => template t with
  | none => exact refl
  | some u =>
    obtain ⟨template, hmem, hu⟩ := List.exists_of_findSome?_eq_some hf
    exact h template hmem u hu

end Template

namespace Expr

def plus : Expr → Expr → Expr
  | num x, num y => num (x.add y)
  | a, b => sum a b

def minus : Expr → Expr → Expr
  | num x, num y => num (x.sub y)
  | a, b => difference a b

def times : Expr → Expr → Expr
  | num x, num y => num (x.mul y)
  | a, b => product a b

def negated : Expr → Expr
  | num x => num x.neg
  | a => negate a

/-- A power of literals, computed for an integer exponent and a finite value. -/
def literalPower (base exponent : Number) : Expr :=
  if exponent.isInteger && (base.pow exponent).isFinite then num (base.pow exponent)
  else power (num base) (num exponent)

def half : Expr := num (.ofRat (1 / 2))

/-- The base of a square. -/
def squared? : Expr → Option Expr
  | power base exponent => if exponent.isInt 2 then some base else none
  | _ => none

end Expr

end SymbolicAlgebra
