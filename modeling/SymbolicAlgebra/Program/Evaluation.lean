import SymbolicAlgebra.Program.Compiler

/-!
# The value of a tree

A tree without free variables, calculus nodes and tensors is evaluated by compiling it without
arguments and calling the program.
-/

namespace SymbolicAlgebra

inductive EvalError where
  | notEvaluable (t : Expr)
  | compile (e : CompileError)
  | call (e : CallError)

def EvalError.message : EvalError → String
  | notEvaluable t => "expression `" ++ t.text ++ "` has free variables or calculus nodes"
  | compile e => e.message
  | call e => e.message

namespace Expr

def eval (t : Expr) : Except EvalError Number :=
  if t.canBeEvaluated then
    match t.compile [] with
    | .ok p => (p.call []).mapError .call
    | .error e => .error (.compile e)
  else .error (.notEvaluable t)

/-- The value, where there is one. -/
def value? (t : Expr) : Option Number := t.eval.toOption

/-- What an evaluation reports. -/
def evalRecords (t : Expr) : List Log.Record :=
  if t.canBeEvaluated then
    match t.compile [] with
    | .ok p => t.compileRecord p :: p.records []
    | .error _ => []
  else []

end Expr

end SymbolicAlgebra
