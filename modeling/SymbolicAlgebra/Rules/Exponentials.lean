import SymbolicAlgebra.Rules.Template

/-!
# Exponential substitution

Sines and cosines of `a * x + b` are written over `t = e ^ (i x)`. `linearParts?` finds `a` and `b`.
-/

namespace SymbolicAlgebra.Rules

open SymbolicAlgebra.Expr

def multiplier? (x : Expr) : Expr → Option Expr
  | product p q =>
    if p == x && q.isNumber then some q
    else if q == x && p.isNumber then some p
    else none
  | _ => none

/-- The slope of a term: one for `x` itself, `a` for its multiple by a literal `a`. -/
def sumParts? (x p q : Expr) : Option (Expr × Expr) :=
  if p == x then some (int 1, q)
  else if q == x then some (int 1, p)
  else
    match multiplier? x p, multiplier? x q with
    | some a, _ => some (a, q)
    | none, some a => some (a, p)
    | none, none => none

def differenceParts? (x p q : Expr) : Option (Expr × Expr) :=
  if p == x then some (int 1, negated q)
  else if q == x then some (int (-1), p)
  else
    match multiplier? x p, multiplier? x q with
    | some a, _ => some (a, negated q)
    | none, some a => some (negated a, p)
    | none, none => none

/-- `a` and `b` of a tree `a * x + b`, where `a` is a literal. -/
def linearParts? (x t : Expr) : Option (Expr × Expr) :=
  if t == x then some (int 1, int 0)
  else
    match multiplier? x t with
    | some a => some (a, int 0)
    | none =>
      match t with
      | sum p q => sumParts? x p q
      | difference p q => differenceParts? x p q
      | _ => none

def phase (b : Expr) : Expr := power (var "e") (times b (num .i))

def twoI : Expr := num (.complex ⟨0, 2⟩ (by decide))

/-- `t^a e^(b i) / (2 i) - t^(-a) e^(-b i) / (2 i)`. -/
def exponentialSin (t a b : Expr) : Expr :=
  difference (product (power t a) (quotient (phase b) twoI))
    (quotient (product (power t (negated a)) (phase (negated b))) twoI)

def exponentialCos (t a b : Expr) : Expr :=
  sum (product (power t a) (quotient (phase b) (int 2)))
    (quotient (product (power t (negated a)) (phase (negated b))) (int 2))

def exponentialTemplate (x t : Expr) : Template
  | sin angle => (linearParts? x angle).map fun (a, b) => exponentialSin t a b
  | cos angle => (linearParts? x angle).map fun (a, b) => exponentialCos t a b
  | _ => none

def exponentialSubstitution (x t : Expr) : Expr → Expr :=
  Template.rewrite [exponentialTemplate x t]

end SymbolicAlgebra.Rules
