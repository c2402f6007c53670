import SymbolicAlgebra.Expr.Text
import SymbolicAlgebra.Number.Functions

/-!
# Operations on numbers

What an operator or function node computes from the values of its children.
-/

namespace SymbolicAlgebra

def Operator.value : Operator → Number → Number → Number
  | .sum => .add
  | .difference => .sub
  | .product => .mul
  | .quotient => .div
  | .power => .pow

def Elementary.value : Elementary → Number → Number
  | .sin => .sin
  | .cos => .cos
  | .tan => .tan
  | .cot => .cot
  | .arcsin => .arcsin
  | .arccos => .arccos
  | .arctan => .arctan
  | .arccot => .arccot
  | .factorial => .factorial

/-- An operation of the stack machine; the operands of the logarithm are base and argument. -/
inductive Opcode where
  | binary (op : Operator)
  | apply (f : Elementary)
  | log
  deriving DecidableEq

namespace Opcode

def all : List Opcode :=
  [.binary .sum, .binary .difference, .binary .product, .binary .quotient, .binary .power,
    .apply .sin, .apply .cos, .apply .tan, .apply .cot, .apply .arcsin, .apply .arccos,
    .apply .arctan, .apply .arccot, .apply .factorial, .log]

def name : Opcode → String
  | binary op => op.name
  | apply f => f.name
  | log => "log"

def ofName? (text : String) : Option Opcode := all.find? fun op => op.name = text

def arity : Opcode → Nat
  | binary _ => 2
  | apply _ => 1
  | log => 2

/-- The value for operands in tree order. A missing operand counts as NaN, one too many is
ignored. -/
def value (op : Opcode) (operands : List Number) : Number :=
  let a := operands.getD 0 .nan
  let b := operands.getD 1 .nan
  match op with
  | binary op => op.value a b
  | apply f => f.value a
  | log => Number.log a b

end Opcode

end SymbolicAlgebra
