import SymbolicAlgebra.Rules.Template

/-!
# Power algebra

Products and quotients of powers over one base or with one exponent, powers of powers, and powers
of products and quotients with a literal in them. `powerFamily` lists the templates in the order in
which they are tried.
-/

namespace SymbolicAlgebra.Rules

open SymbolicAlgebra.Expr

/-- `v * a ^ b` to `a ^ b * v` for a variable `v`. -/
def powerBeforeVariable : Template
  | product v (power a b) => if v.isVariable then some (product (power a b) v) else none
  | _ => none

def powerTimesBase : Template
  | product (power a n) q => if a == q then some (power a (plus n (int 1))) else none
  | _ => none

def baseTimesPower : Template
  | product p (power a n) => if a == p then some (power a (plus n (int 1))) else none
  | _ => none

def productOverBase : Template
  | product (power a n) (power b m) => if a == b then some (power a (plus n m)) else none
  | _ => none

def quotientOverBase : Template
  | quotient (power a n) (power b m) => if a == b then some (power a (minus n m)) else none
  | _ => none

def powerOfPower : Template
  | power (power a b) c => some (power a (times b c))
  | _ => none

def productOverExponent : Template
  | product (power a n) (power b m) => if n == m then some (power (product a b) n) else none
  | _ => none

def quotientOverExponent : Template
  | quotient (power a n) (power b m) => if n == m then some (power (quotient a b) n) else none
  | _ => none

def baseOverPower : Template
  | quotient p (power a n) => if a == p then some (power a (minus (int 1) n)) else none
  | _ => none

def powerOverBase : Template
  | quotient (power a n) q => if a == q then some (power a (minus n (int 1))) else none
  | _ => none

/-- `c ^ log c a` to `a` for a literal `c`. -/
def powerOfLog : Template
  | power (num c) (log base a) => if base == num c then some a else none
  | _ => none

/-- `a ^ n` times a product `l * r` with `a` in it to `a ^ (n + 1)` times the other factor. -/
def absorbedIntoPower (a n l r : Expr) : Option Expr :=
  if l == a then some (product (power a (plus n (int 1))) r)
  else if r == a then some (product (power a (plus n (int 1))) l)
  else none

def powerTimesProduct : Template
  | product (power a n) (product l r) => absorbedIntoPower a n l r
  | _ => none

def productTimesPower : Template
  | product (product l r) (power a n) => absorbedIntoPower a n l r
  | _ => none

def powerOfLiteralProduct : Template
  | power (product (num c) a) (num d) => some (product (literalPower c d) (power a (num d)))
  | _ => none

def reciprocal : Template
  | power base exponent => if exponent.isInt (-1) then some (quotient (int 1) base) else none
  | _ => none

def literalQuotientTimesBase : Template
  | product (power (quotient (num c) a) (num d)) q =>
    if q == a then
      some (product (literalPower c d) (power a (num ((Number.integer 1).sub d))))
    else none
  | _ => none

/-- `(c / a) ^ d * a ^ k` to `c ^ d * a ^ (k - d)` for literals `c`, `d` and `k`. -/
def literalQuotientTimesPower : Template
  | product (power (quotient (num c) a) (num d)) (power b (num k)) =>
    if b == a then some (product (literalPower c d) (power a (num (k.sub d)))) else none
  | _ => none

def baseAndExponent : Expr → Expr × Expr
  | power b n => (b, n)
  | t => (t, int 1)

/-- `(a / b ^ n) / b ^ m` to `a / b ^ (n + m)`. -/
def nestedQuotient : Template
  | quotient (quotient a inner) q =>
    let (b, n) := baseAndExponent inner
    let (d, m) := baseAndExponent q
    if b == d then some (quotient a (power b (plus n m))) else none
  | _ => none

def powerFamily : List Template :=
  [powerBeforeVariable, powerTimesBase, baseTimesPower, productOverBase, quotientOverBase,
    powerOfPower, productOverExponent, quotientOverExponent, baseOverPower, powerOverBase,
    powerOfLog, powerTimesProduct, productTimesPower, powerOfLiteralProduct, reciprocal,
    literalQuotientTimesBase, literalQuotientTimesPower, nestedQuotient]

def powers : Expr → Expr := Template.rewrite powerFamily

end SymbolicAlgebra.Rules
