import SymbolicAlgebra.Chain
import SymbolicAlgebra.Expr.Variables

/-!
# Terms of a chain

A nested sum or difference is a list of summands, a nested product or quotient a list of factors: a
subtrahend `t` is the summand `-1 * t`, a divisor `t` the factor `t ^ -1`.

A sort level says which terms count as alike. The levels grow coarser from `exact` to `loose`.
-/

namespace SymbolicAlgebra

namespace Expr

/-- The summands of a tree, or of its negation. -/
def summandsAs (negated : Bool) : Expr → List Expr
  | sum a b => summandsAs negated a ++ summandsAs negated b
  | difference a b => summandsAs negated a ++ summandsAs (!negated) b
  | t => [if negated then negate t else t]

/-- The factors of a tree, or of its inverse. -/
def factorsAs (inverted : Bool) : Expr → List Expr
  | product a b => factorsAs inverted a ++ factorsAs inverted b
  | quotient a b => factorsAs inverted a ++ factorsAs (!inverted) b
  | t => [if inverted then power t (int (-1)) else t]

def summands : Expr → List Expr := summandsAs false

def factors : Expr → List Expr := factorsAs false

mutual

/-- The tree with all literals made alike. -/
def shape : Expr → Expr
  | num _ => int 0
  | var name => var name
  | binary op a b => binary op (shape a) (shape b)
  | apply f a => apply f (shape a)
  | log base a => log (shape base) (shape a)
  | derivative a v order => derivative (shape a) (shape v) order
  | integral a v order => integral (shape a) (shape v) order
  | limit a v destination side => limit (shape a) (shape v) (shape destination) side
  | tensor dims elements => tensor dims (shapeList elements)

def shapeList : List Expr → List Expr
  | [] => []
  | t :: ts => shape t :: shapeList ts

end

end Expr

inductive SortLevel where
  | exact | shape | loose
  deriving DecidableEq

namespace SortLevel

def all : List SortLevel := [.exact, .shape, .loose]

def name : SortLevel → String
  | .exact => "exact"
  | .shape => "shape"
  | .loose => "loose"

def ofName? (text : String) : Option SortLevel :=
  all.find? fun level => level.name.toList = text.toList.map Char.toLower

def unknownName : String := "Matching variant not found"

/-- The trees themselves, their shapes, or their sets of free variables. -/
def agree : SortLevel → Expr → Expr → Bool
  | .exact, t, t' => t == t'
  | .shape, t, t' => t.shape == t'.shape
  | .loose, t, t' => t.freeVariables == t'.freeVariables

def groups (level : SortLevel) (terms : List Expr) : List (List Expr) :=
  Chain.groups level.agree terms

def sort (level : SortLevel) (terms : List Expr) : List Expr := (level.groups terms).flatten

end SortLevel

end SymbolicAlgebra
