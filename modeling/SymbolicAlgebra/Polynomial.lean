import SymbolicAlgebra.Chain
import SymbolicAlgebra.Program.Evaluation

/-!
# Polynomials in one variable

A polynomial is the list of its coefficients from the constant term up, without trailing zeros.
`ofExpr?` reads one from a tree, `toExpr` writes it highest power first, and `divide?` is long
division. Subtrees that do not mention the variable are evaluated; `evaluated` lists them in the
order in which that happens.
-/

namespace SymbolicAlgebra

abbrev Polynomial := List Number

namespace Polynomial

def maxDegree : Nat := 64

def trim (p : Polynomial) : Polynomial := (p.reverse.dropWhile Number.isZero).reverse

def zipTerms (f : Number → Number → Number) : Polynomial → Polynomial → Polynomial
  | [], [] => []
  | a :: p, [] => f a 0 :: zipTerms f p []
  | [], b :: q => f 0 b :: zipTerms f [] q
  | a :: p, b :: q => f a b :: zipTerms f p q

/-- Adds a multiple of the first list to the front of the second. -/
def addMultiple (factor : Number) : List Number → List Number → List Number
  | b :: q, c :: total => c.add (factor.mul b) :: addMultiple factor q total
  | _, total => total

/-- Adds the product of `p` and `q` to a list of their product's length, one coefficient of `p`
after the other. -/
def addProduct (q : Polynomial) : Polynomial → List Number → List Number
  | [], total => total
  | a :: p, total =>
    match addMultiple a q total with
    | [] => []
    | c :: rest => c :: addProduct q p rest

def multiply? (p q : Polynomial) : Option Polynomial :=
  if p.isEmpty || q.isEmpty then some []
  else if maxDegree + 2 < p.length + q.length then none
  else some (addProduct q p (List.replicate (p.length + q.length - 1) 0))

def power? (p : Polynomial) : Nat → Option Polynomial
  | 0 => some [1]
  | n + 1 => (power? p n).bind fun q => multiply? q p

def degreeExponent? : Expr → Option Nat
  | .num (.integer (.ofNat n)) => if n ≤ maxDegree then some n else none
  | _ => none

def divisor? (b : Expr) : Option Number := b.value?.filter fun value => !value.isZero

/-- A tree that is no polynomial operation over the variable must have a value. -/
def constant? (name : String) (t : Expr) : Option Polynomial :=
  if !t.contains (.var name) && t.canBeEvaluated then t.value?.map fun value => [value] else none

def ofExpr? (name : String) : Expr → Option Polynomial
  | .num value => some (trim [value])
  | .var x => if x = name then some [0, 1] else (constant? name (.var x)).map trim
  | .binary op a b =>
    match op with
    | .sum =>
      (ofExpr? name a).bind fun p => (ofExpr? name b).map fun q => trim (zipTerms .add p q)
    | .difference =>
      (ofExpr? name a).bind fun p => (ofExpr? name b).map fun q => trim (zipTerms .sub p q)
    | .product =>
      (ofExpr? name a).bind fun p =>
        (ofExpr? name b).bind fun q => (multiply? p q).map trim
    | .quotient =>
      if b.contains (.var name) then (constant? name (.quotient a b)).map trim
      else
        (divisor? b).bind fun d => (ofExpr? name a).map fun p => trim (p.map (·.div d))
    | .power =>
      (degreeExponent? b).bind fun n =>
        (ofExpr? name a).bind fun p => (power? p n).map trim
  | .apply f a => (constant? name (.apply f a)).map trim
  | .log base a => (constant? name (.log base a)).map trim
  | .derivative a v order => (constant? name (.derivative a v order)).map trim
  | .integral a v order => (constant? name (.integral a v order)).map trim
  | .limit a v destination side => (constant? name (.limit a v destination side)).map trim
  | .tensor dims elements => (constant? name (.tensor dims elements)).map trim

def evaluatedConstant (name : String) (t : Expr) : List Expr :=
  if t.contains (.var name) then [] else [t]

/-- The subtrees that reading the tree evaluates. -/
def evaluated (name : String) : Expr → List Expr
  | .num _ => []
  | .var x => if x = name then [] else evaluatedConstant name (.var x)
  | .binary op a b =>
    match op with
    | .quotient =>
      if b.contains (.var name) then []
      else b :: if (divisor? b).isSome then evaluated name a else []
    | .power => if (degreeExponent? b).isSome then evaluated name a else []
    | _ => evaluated name a ++ if (ofExpr? name a).isSome then evaluated name b else []
  | t => evaluatedConstant name t

def monomial (name : String) : Nat → Expr
  | 0 => .int 1
  | 1 => .var name
  | power => .power (.var name) (.int power)

def term (name : String) (power : Nat) (coefficient : Number) : Expr :=
  if power = 0 then .num coefficient
  else if coefficient.isOne then monomial name power
  else .product (.num coefficient) (monomial name power)

def termsFrom (name : String) : Nat → Polynomial → List Expr
  | _, [] => []
  | power, a :: p =>
    if a.isZero then termsFrom name (power + 1) p
    else term name power a :: termsFrom name (power + 1) p

def toExpr (name : String) (p : Polynomial) : Expr :=
  (Chain.linear .sum (termsFrom name 0 p).reverse).getD (.int 0)

def subtractMultiple (factor : Number) : List Number → List Number → List Number
  | a :: p, b :: q => b.sub (factor.mul a) :: subtractMultiple factor p q
  | _, q => q

/-- `n` steps of long division on lists from the highest coefficient down, for a divisor with
leading coefficient `lead`: the quotient and what remains. -/
def divisionSteps (lead : Number) (rest : List Number) : Nat → List Number → List Number × List Number
  | n + 1, a :: p =>
    let factor := a.div lead
    let (quotient, remainder) := divisionSteps lead rest n (subtractMultiple factor rest p)
    (factor :: quotient, remainder)
  | _, p => ([], p)

/-- Quotient and remainder, for a divisor of at least degree one and at most that of the
dividend. -/
def divide? (p d : Polynomial) : Option (Polynomial × Polynomial) :=
  match d.reverse with
  | lead :: next :: rest =>
    if p.length < d.length then none
    else
      let (quotient, remainder) :=
        divisionSteps lead (next :: rest) (p.length - d.length + 1) p.reverse
      some (trim quotient.reverse, trim remainder.reverse)
  | _ => none

end Polynomial

structure Divider where
  divide? (dividend divisor : Expr) (name : String) : Option (Expr × Expr)
  evaluated (dividend divisor : Expr) (name : String) : List Expr := []

namespace Divider

def univariate : Divider where
  divide? dividend divisor name := do
    let p ← Polynomial.ofExpr? name dividend
    let d ← Polynomial.ofExpr? name divisor
    let (quotient, remainder) ← Polynomial.divide? p d
    return (Polynomial.toExpr name quotient, Polynomial.toExpr name remainder)
  evaluated dividend divisor name :=
    Polynomial.evaluated name dividend ++
      if (Polynomial.ofExpr? name dividend).isSome then Polynomial.evaluated name divisor else []

def never : Divider where
  divide? _ _ _ := none

end Divider

end SymbolicAlgebra
