import SymbolicAlgebra.Constants
import SymbolicAlgebra.Expr.Traversal
import SymbolicAlgebra.Text.Blank

/-!
# Variables of a tree

A variable is free unless its name is that of a reserved constant. `freeVariables` is their set,
`variablesInOrder` lists each at its first occurrence in `preorder`. A tree can be evaluated if it
has no free variables and neither calculus nodes nor tensors.
-/

namespace SymbolicAlgebra.Expr

mutual

def freeVariablesIn (constants : Constants) : Expr → List String
  | num _ => []
  | var name => if constants.isReserved name then [] else [name]
  | binary _ a b => Names.union (freeVariablesIn constants a) (freeVariablesIn constants b)
  | apply _ a => freeVariablesIn constants a
  | log base a => Names.union (freeVariablesIn constants base) (freeVariablesIn constants a)
  | derivative a v _ => Names.union (freeVariablesIn constants a) (freeVariablesIn constants v)
  | integral a v _ => Names.union (freeVariablesIn constants a) (freeVariablesIn constants v)
  | limit a v destination _ =>
    Names.union (freeVariablesIn constants a)
      (Names.union (freeVariablesIn constants v) (freeVariablesIn constants destination))
  | tensor _ elements => freeVariablesInList constants elements

def freeVariablesInList (constants : Constants) : List Expr → List String
  | [] => []
  | t :: ts => Names.union (freeVariablesIn constants t) (freeVariablesInList constants ts)

end

def freeVariables : Expr → List String := freeVariablesIn .standard

def variablesInOrder (t : Expr) : List String :=
  let free := (t.preorder.filterMap varName?).filter fun name => !Constants.standard.isReserved name
  free.eraseDups

/-- The variables named in a text, separated by commas. -/
def variablesOfText (text : String) : List Expr :=
  let names := (Text.splitOn ',' text.toList).map Text.trim
  (names.filter fun name => !name.isEmpty).map fun name => var (String.ofList name)

/-- Whether `x` is a subtree. A free variable is looked up in the set of free variables. -/
def contains (t x : Expr) : Bool :=
  match x with
  | var name =>
    if Constants.standard.isReserved name then t.preorder.any (· == x)
    else t.freeVariables.contains name
  | _ => t.preorder.any (· == x)

/-- Calculus nodes and tensors have no numeric value. -/
def isInert : Expr → Bool
  | derivative _ _ _ => true
  | integral _ _ _ => true
  | limit _ _ _ _ => true
  | tensor _ _ => true
  | _ => false

def canBeEvaluated (t : Expr) : Bool := t.freeVariables.isEmpty && !t.preorder.any isInert

end SymbolicAlgebra.Expr
