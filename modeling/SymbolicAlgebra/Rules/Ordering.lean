import SymbolicAlgebra.Expr.Terms

/-!
# Rebuilding chains

`canonicalSort` makes the terms of a chain that agree at a sort level adjacent, `balance` hangs the
terms of a chain evenly. Both take a chain apart into its terms and join them again, so that
negated summands become subtrahends and inverted factors divisors once more.
-/

namespace SymbolicAlgebra.Rules

open SymbolicAlgebra.Expr

def isSumLike : Expr → Bool
  | sum _ _ => true
  | difference _ _ => true
  | _ => false

def isProductLike : Expr → Bool
  | product _ _ => true
  | quotient _ _ => true
  | _ => false

/-- A summand `-1 * t` is subtracted, unless `t` is itself a chain of summands. -/
def joinSum (a b : Expr) : Expr :=
  match b with
  | product m t => if m.isInt (-1) && !isSumLike t then difference a t else sum a b
  | _ => sum a b

/-- A factor `t ^ -1` divides, unless `t` is itself a chain of factors. -/
def joinProduct (a b : Expr) : Expr :=
  match b with
  | power t n => if n.isInt (-1) && !isProductLike t then quotient a t else product a b
  | _ => product a b

structure TermChain where
  terms : List Expr
  join : Expr → Expr → Expr

def termChain? : Expr → Option TermChain
  | sum a b => some ⟨(sum a b).summands, joinSum⟩
  | difference a b => some ⟨(difference a b).summands, joinSum⟩
  | product a b => some ⟨(product a b).factors, joinProduct⟩
  | quotient a b => some ⟨(quotient a b).factors, joinProduct⟩
  | _ => none

def hangGroups (join : Expr → Expr → Expr) (groups : List (List Expr)) : Option Expr :=
  Chain.linear join (groups.filterMap (Chain.linear join))

def changed (t : Expr) : Option Expr → Expr
  | some t' => if t' == t then t else t'
  | none => t

/-- A chain in which no two terms agree stays as it is. -/
def canonicalSort (level : SortLevel) (t : Expr) : Expr :=
  match termChain? t with
  | some ⟨terms, join⟩ =>
    let groups := level.groups terms
    if groups.length = terms.length then t else changed t (hangGroups join groups)
  | none => t

def balance (t : Expr) : Expr :=
  match termChain? t with
  | some ⟨terms, join⟩ =>
    if terms.length < 3 then t else changed t (Chain.balanced join terms)
  | none => t

end SymbolicAlgebra.Rules
