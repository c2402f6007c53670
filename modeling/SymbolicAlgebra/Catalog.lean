import SymbolicAlgebra.Rules.Arithmetic
import SymbolicAlgebra.Rules.Collapse
import SymbolicAlgebra.Rules.Divisions
import SymbolicAlgebra.Rules.Exponentials
import SymbolicAlgebra.Rules.Factorials
import SymbolicAlgebra.Rules.LongDivision
import SymbolicAlgebra.Rules.Negatives
import SymbolicAlgebra.Rules.Ordering
import SymbolicAlgebra.Rules.Powers
import SymbolicAlgebra.Rules.Trigonometry

/-!
# Rules and catalogs

A rule is a named function on trees. Simplifying rules are driven to a fixpoint; expanding rules
grow or reshape trees, some of them undo a simplifying rule, and they are applied on request only.
A catalog is a list of rules in the order of application.
-/

namespace SymbolicAlgebra

inductive RuleKind where
  | simplifying | expanding
  deriving DecidableEq

def RuleKind.name : RuleKind → String
  | simplifying => "Simplifying"
  | expanding => "Expanding"

/-- `evaluated` lists the trees whose value is asked for when the rule is applied to a root. -/
structure Rule where
  name : String
  kind : RuleKind
  apply : Expr → Expr
  evaluated : Expr → List Expr := fun _ => []

namespace Rule

/-- The rule applied to every node, from the leaves up. -/
def applyEverywhere (r : Rule) (t : Expr) : Expr := t.rewrite r.apply

/-- What the evaluations report while the rule is applied to every node. -/
def records (r : Rule) (t : Expr) : List Log.Record :=
  ((t.sites r.apply).flatMap r.evaluated).flatMap Expr.evalRecords

def describe (r : Rule) : String := "Rule(" ++ r.name ++ ", " ++ r.kind.name ++ ")"

end Rule

abbrev Catalog := List Rule

namespace Catalog

def longDivisionName : String := "long_division"

/-- Every family in the order of application. -/
def withDivider (level : SortLevel) (divider : Divider) : Catalog :=
  [{ name := "invert_negative_powers", kind := .simplifying, apply := Rules.invertNegativePowers },
    { name := "invert_negative_multipliers", kind := .simplifying,
      apply := Rules.invertNegativeMultipliers },
    { name := "collapse_factorial_multiplications", kind := .simplifying,
      apply := Rules.collapseFactorialMultiplications },
    { name := "expand_factorial_divisions", kind := .simplifying,
      apply := Rules.expandFactorialDivisions },
    { name := "prepare_divisions", kind := .expanding, apply := Rules.prepareDivisions },
    { name := "trigonometric", kind := .simplifying, apply := Rules.trigonometric },
    { name := "expand_trigonometric", kind := .expanding, apply := Rules.expandTrigonometric },
    { name := "powers", kind := .simplifying, apply := Rules.powers },
    { name := "common", kind := .simplifying, apply := Rules.common },
    { name := "expand_angle_sums", kind := .expanding, apply := Rules.expandAngleSums },
    { name := "collapse", kind := .expanding, apply := Rules.collapse },
    { name := longDivisionName, kind := .simplifying, apply := Rules.longDivision divider,
      evaluated := Rules.longDivisionEvaluated divider },
    { name := "canonical_sort", kind := .simplifying, apply := Rules.canonicalSort level },
    { name := "optimize", kind := .expanding, apply := Rules.balance }]

def standard (level : SortLevel) : Catalog := withDivider level .univariate

def push (c : Catalog) (r : Rule) : Catalog := c ++ [r]

/-- Adds the rule that writes sines and cosines of `x` over `t`. -/
def withExponentialSubstitution (c : Catalog) (x t : String) : Catalog :=
  c.push
    { name := "exponential_substitution", kind := .expanding,
      apply := Rules.exponentialSubstitution (.var x) (.var t) }

def without (c : Catalog) (name : String) : Catalog := c.filter fun r => r.name ≠ name

def get? (c : Catalog) (name : String) : Option Rule := c.find? fun r => r.name = name

def ofKind (c : Catalog) (kind : RuleKind) : Catalog := c.filter fun r => r.kind = kind

def names (c : Catalog) : List String := c.map (·.name)

end Catalog

end SymbolicAlgebra
