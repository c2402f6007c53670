import SymbolicAlgebra.Rules.Template

/-!
# Trigonometric identities

Products of sine and cosine, complementary arcs, a function applied to its inverse, squares of sine
and cosine, and the expansions that undo them.
-/

namespace SymbolicAlgebra.Rules

open SymbolicAlgebra.Expr

def halfSinDouble (a : Expr) : Expr := product half (sin (product (int 2) a))

def rightAngle : Expr := quotient (var "pi") (int 2)

def sinTimesCos : Template
  | product (sin a) (cos b) => if a == b then some (halfSinDouble a) else none
  | product (cos a) (sin b) => if a == b then some (halfSinDouble a) else none
  | _ => none

/-- The two arcs of one value that add up to a right angle. -/
def complementaryArcs : Template
  | sum (arcsin a) (arccos b) => if a == b then some rightAngle else none
  | sum (arccos a) (arcsin b) => if a == b then some rightAngle else none
  | sum (arctan a) (arccot b) => if a == b then some rightAngle else none
  | sum (arccot a) (arctan b) => if a == b then some rightAngle else none
  | _ => none

def inverseCancellation : Template
  | arcsin (sin a) => some a
  | arccos (cos a) => some a
  | arctan (tan a) => some a
  | arccot (cot a) => some a
  | sin (arcsin a) => some a
  | cos (arccos a) => some a
  | tan (arctan a) => some a
  | cot (arccot a) => some a
  | _ => none

/-- The angle of a squared sine. -/
def sinSquared? (t : Expr) : Option Expr :=
  match t.squared? with
  | some (sin a) => some a
  | _ => none

def cosSquared? (t : Expr) : Option Expr :=
  match t.squared? with
  | some (cos a) => some a
  | _ => none

/-- `result a` if both angles are there and are the same. -/
def sameAngle (a b : Option Expr) (result : Expr → Expr) : Option Expr :=
  match a, b with
  | some a, some b => if a == b then some (result a) else none
  | _, _ => none

def sinSquaredPlusCosSquared : Template
  | sum p q => sameAngle (sinSquared? p) (cosSquared? q) fun _ => int 1
  | _ => none

def cosSquaredPlusSinSquared : Template
  | sum p q => sameAngle (cosSquared? p) (sinSquared? q) fun _ => int 1
  | _ => none

def sinSquaredMinusCosSquared : Template
  | difference p q =>
    sameAngle (sinSquared? p) (cosSquared? q) fun a => negate (cos (product (int 2) a))
  | _ => none

def cosSquaredMinusSinSquared : Template
  | difference p q => sameAngle (cosSquared? p) (sinSquared? q) fun a => cos (product (int 2) a)
  | _ => none

def trigonometricFamily : List Template :=
  [sinTimesCos, complementaryArcs, inverseCancellation, sinSquaredPlusCosSquared,
    cosSquaredPlusSinSquared, sinSquaredMinusCosSquared, cosSquaredMinusSinSquared]

def trigonometric : Expr → Expr := Template.rewrite trigonometricFamily

/-- One half, exact or as a double. -/
def isHalf : Expr → Bool
  | num c => c == .ofRat (1 / 2) || c == .real 0.5
  | _ => false

def expandHalfSinDouble : Template
  | product c (sin (product two a)) =>
    if isHalf c && two.isInt 2 then some (product (sin a) (cos a)) else none
  | _ => none

def expandCosDouble : Template
  | cos (product two a) =>
    if two.isInt 2 then some (difference (power (cos a) (int 2)) (power (sin a) (int 2))) else none
  | _ => none

def expandTrigonometric : Expr → Expr := Template.rewrite [expandHalfSinDouble, expandCosDouble]

def expandSinSum : Template
  | sin (sum a b) => some (sum (product (sin a) (cos b)) (product (sin b) (cos a)))
  | sin (difference a b) => some (difference (product (sin a) (cos b)) (product (sin b) (cos a)))
  | _ => none

def expandAngleSums : Expr → Expr := Template.rewrite [expandSinSum]

end SymbolicAlgebra.Rules
