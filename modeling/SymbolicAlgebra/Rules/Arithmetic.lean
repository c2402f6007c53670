import SymbolicAlgebra.Rules.Factors

/-!
# Rules of arithmetic

Literals lead products and trail sums, like terms are merged, shared factors are taken out, nested
quotients are flattened and equal parts of quotients cancelled. `commonFamily` lists the templates
in the order in which they are tried.
-/

namespace SymbolicAlgebra.Rules

open SymbolicAlgebra.Expr

def literalBehindFunctions : Template
  | product (product (num c) f) g =>
    if f.isFunction && g.isFunction then some (product (product f g) (num c)) else none
  | _ => none

def quotientByQuotient : Template
  | quotient a (quotient b c) => some (quotient (product a c) b)
  | _ => none

def quotientOfQuotient : Template
  | quotient (quotient a b) c => some (quotient a (product b c))
  | _ => none

def timesQuotient : Template
  | product a (quotient b c) => some (quotient (product a b) c)
  | _ => none

def functionMultipleTimesLiteral : Template
  | product (product (num c) f) (num d) =>
    if f.isFunction then some (product (num (c.mul d)) f) else none
  | _ => none

def literalTimesFunctionMultiple : Template
  | product (num d) (product (num c) f) =>
    if f.isFunction then some (product (num (c.mul d)) f) else none
  | _ => none

def functionMultiples : Template
  | product (product (num c) f) (product (num d) g) =>
    if f.isFunction && g.isFunction then some (product (product f g) (num (c.mul d))) else none
  | _ => none

def functionsBeforeLeftRest : Template
  | sum (sum f a) g =>
    if f.isFunction && g.isFunction then some (sum (sum f g) a) else none
  | _ => none

def functionsBeforeRightRest : Template
  | sum g (sum f a) =>
    if f.isFunction && g.isFunction then some (sum (sum f g) a) else none
  | _ => none

def literalLeadsProduct : Template
  | product a (num c) =>
    if a.isVariable || a.isFunction then some (product (num c) a) else none
  | _ => none

def literalTrailsSum : Template
  | sum (num c) a =>
    if a.isVariable || a.isFunction then some (sum a (num c)) else none
  | _ => none

def likeTerms : Template
  | sum (product (num c) v) (product (num d) w) =>
    if v.isVariable && v == w then some (product (num (c.add d)) v) else none
  | difference (product (num c) v) (product (num d) w) =>
    if v.isVariable && v == w then some (product (num (c.sub d)) v) else none
  | _ => none

/-- Nothing is taken out of `1 + 1 / b`, which would only be written again. -/
def termPlusQuotient : Template
  | sum p (quotient a b) =>
    if a == p && !p.isInt 1 then some (product p (sum (int 1) (quotient (int 1) b))) else none
  | _ => none

def quotientPlusTerm : Template
  | sum (quotient a b) q =>
    if a == q && !q.isInt 1 then some (product q (sum (quotient (int 1) b) (int 1))) else none
  | _ => none

def doubled : Template
  | sum p q => if p == q then some (product (int 2) p) else none
  | _ => none

/-- Not where a literal is infinite or NaN: such a difference is not zero. -/
def equalDifference : Template
  | difference p q => if p == q && p.isFinite then some (int 0) else none
  | _ => none

def equalFactors : Template
  | product p q => if p == q then some (power p (int 2)) else none
  | _ => none

def variableMultipleTimesLiteral : Template
  | product (product (num c) v) (num d) =>
    if v.isVariable then some (product (num (c.mul d)) v) else none
  | _ => none

def literalTimesVariableMultiple : Template
  | product (num d) (product (num c) v) =>
    if v.isVariable then some (product (num (c.mul d)) v) else none
  | _ => none

def variableSumPlusLiteral : Template
  | sum (sum v (num c)) (num d) => if v.isVariable then some (sum v (num (c.add d))) else none
  | _ => none

def literalPlusVariableSum : Template
  | sum (num d) (sum v (num c)) => if v.isVariable then some (sum v (num (c.add d))) else none
  | _ => none

/-- `a * (a * b)` to `a ^ 2 * b`. -/
def factorTimesProduct : Template
  | product p q => (cofactor? q p).map (product (power p (int 2)))
  | _ => none

def productTimesFactor : Template
  | product p q => (cofactor? p q).map (product (power q (int 2)))
  | _ => none

def negatedPlusTerm : Template
  | sum (product m a) q => if m.isInt (-1) then some (difference q a) else none
  | _ => none

def termPlusNegated : Template
  | sum p (product m b) => if m.isInt (-1) then some (difference p b) else none
  | _ => none

/-- `v ^ 2 - a ^ 2` for equal variables and equal second terms. -/
def squareDifference (v a w b : Expr) : Option Expr :=
  if v.isVariable && v == w && a == b then
    some (difference (power v (int 2)) (power a (int 2)))
  else none

def conjugates : Template
  | product (difference v a) (sum w b) => squareDifference v a w b
  | product (sum v a) (difference w b) => squareDifference v a w b
  | _ => none

/-- `a / a` to `1` for a finite `a` other than the literal zero. -/
def equalQuotient : Template
  | quotient p q => if p == q && p.isFinite && !p.isZero then some (int 1) else none
  | _ => none

def cancelDivisor : Template
  | quotient p q => cofactor? p q
  | _ => none

/-- `(a * b) / (b * c)` to `a / c`. -/
def cancelSharedFactor : Template
  | quotient p q =>
    (sharedFactor? quotientOrder p q).map fun shared => quotient shared.left shared.right
  | _ => none

def oppositeDifferences : Template
  | quotient (difference a b) (difference c d) =>
    if a == d && b == c then some (int (-1)) else none
  | _ => none

def swappedSums : Template
  | quotient (sum a b) (sum c d) => if a == d && b == c then some (int 1) else none
  | _ => none

/-- `c / (d * a)` to `(c / d) / a`. Unlike folding it divides by the literal zero too. -/
def literalOverLeftMultiple : Template
  | quotient (num c) (product (num d) a) => some (quotient (num (c.div d)) a)
  | _ => none

def literalOverRightMultiple : Template
  | quotient (num c) (product a (num d)) => some (quotient (num (c.div d)) a)
  | _ => none

def literalTimesMultiple : Template
  | product (num c) (product (num d) a) => some (product (num (c.mul d)) a)
  | _ => none

def quotientTimes : Template
  | product (quotient a b) c => some (quotient (product a c) b)
  | _ => none

def multipleOverLiteral : Template
  | quotient (product (num c) a) (num d) => some (product (num (c.div d)) a)
  | _ => none

def commonFamily : List Template :=
  [literalBehindFunctions, quotientByQuotient, quotientOfQuotient, timesQuotient,
    functionMultipleTimesLiteral, literalTimesFunctionMultiple, functionMultiples,
    functionsBeforeLeftRest, functionsBeforeRightRest, literalLeadsProduct, literalTrailsSum,
    likeTerms, factorTerms sumOrder, termPlusQuotient, quotientPlusTerm, doubled, equalDifference,
    equalFactors, variableMultipleTimesLiteral, literalTimesVariableMultiple,
    variableSumPlusLiteral, literalPlusVariableSum, factorTimesProduct, productTimesFactor,
    negatedPlusTerm, termPlusNegated, conjugates, equalQuotient, cancelDivisor, cancelSharedFactor,
    oppositeDifferences, swappedSums, literalOverLeftMultiple, literalOverRightMultiple,
    literalTimesMultiple, quotientTimes, multipleOverLiteral]

def common : Expr → Expr := Template.rewrite commonFamily

end SymbolicAlgebra.Rules
