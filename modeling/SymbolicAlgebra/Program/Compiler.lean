import SymbolicAlgebra.Expr.Variables
import SymbolicAlgebra.Program.Basic

/-!
# From trees to programs

The children of a node are compiled from left to right before its operation, so the value of a
subtree is what its instructions leave on the stack. A name that is declared as an argument wins over
a reserved constant. Calculus nodes and tensors have no instructions.
-/

namespace SymbolicAlgebra

inductive CompileError where
  | unboundVariable (name : String)
  | duplicateVariable (name : String)
  | unsupportedNode (kind : String)
  deriving DecidableEq

def CompileError.message : CompileError → String
  | unboundVariable name => "variable `" ++ name ++ "` is not bound to an argument slot"
  | duplicateVariable name => "variable `" ++ name ++ "` is declared more than once"
  | unsupportedNode kind => "node `" ++ kind ++ "` cannot be compiled"

namespace Expr

/-- The place of a name among the declared ones. -/
def slot? (names : List String) (name : String) : Option (Fin names.length) :=
  names.findFinIdx? (· == name)

/-- The instruction of a variable. -/
def variableCode (constants : Constants) (names : List String) (name : String) :
    Except CompileError (Instruction names.length) :=
  match slot? names name, constants.value? name with
  | some slot, _ => .ok (.argument slot)
  | none, some value => .ok (.constant value)
  | none, none => .error (.unboundVariable name)

def code (constants : Constants) (names : List String) :
    Expr → Except CompileError (List (Instruction names.length))
  | num value => .ok [.constant value]
  | var name => (variableCode constants names name).map fun i => [i]
  | binary op a b => do
    let left ← code constants names a
    let right ← code constants names b
    return left ++ right ++ [.call (.binary op) 2]
  | apply f a => do
    let operand ← code constants names a
    return operand ++ [.call (.apply f) 1]
  | log base a => do
    let left ← code constants names base
    let right ← code constants names a
    return left ++ right ++ [.call .log 2]
  | derivative _ _ _ => .error (.unsupportedNode "derivative")
  | integral _ _ _ => .error (.unsupportedNode "integral")
  | limit _ _ _ _ => .error (.unsupportedNode "limit")
  | tensor _ _ => .error (.unsupportedNode "tensor")

/-- The first name that equals one of the names before it. -/
def firstRepeated : (before : List String) → List String → Option String
  | _, [] => none
  | before, name :: names =>
    if before.contains name then some name else firstRepeated (name :: before) names

def compileWith (constants : Constants) (t : Expr) (names : List String) :
    Except CompileError Program :=
  match firstRepeated [] names with
  | some name => .error (.duplicateVariable name)
  | none => (code constants names t).map fun code => ⟨names.length, code⟩

def compile (t : Expr) (names : List String) : Except CompileError Program :=
  t.compileWith .standard names

/-- What a compilation reports. -/
def compileRecord (t : Expr) (p : Program) : Log.Record :=
  ⟨.debug, "compiled " ++ t.complexity.repr ++ " nodes into " ++ p.code.length.repr ++
    " instructions over " ++ p.arity.repr ++ " arguments"⟩

end Expr

end SymbolicAlgebra
