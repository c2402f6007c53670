import SymbolicAlgebra.Log
import SymbolicAlgebra.Program.Opcode

/-!
# Programs of the stack machine

A program over `n` arguments is a list of instructions that push a constant, push an argument, or
replace operands on the stack by the value of an operation. The stack is a list with its top in
front. A call ends well if exactly one value is left.

`results` lists the values of the operations of a run, and `maxDepth` computes the greatest stack
length from the instructions alone.
-/

namespace SymbolicAlgebra

inductive Instruction (arity : Nat) where
  | constant (value : Number)
  | argument (slot : Fin arity)
  | call (op : Opcode) (count : Nat)

structure Program where
  arity : Nat
  code : List (Instruction arity)

inductive CallError where
  | arity (expected found : Nat)
  | stackImbalance (depth : Nat)
  deriving DecidableEq

def CallError.message : CallError → String
  | arity expected found => "expected " ++ expected.repr ++ " arguments, got " ++ found.repr
  | stackImbalance depth =>
    "stack holds " ++ depth.repr ++ " values at the end of the program, expected exactly 1"

namespace Instruction

variable {n : Nat}

def step (args : Fin n → Number) (stack : List Number) :
    Instruction n → Except CallError (List Number)
  | constant value => .ok (value :: stack)
  | argument slot => .ok (args slot :: stack)
  | call op count =>
    if stack.length < count then .error (.stackImbalance stack.length)
    else .ok (op.value (stack.take count).reverse :: stack.drop count)

def execute (args : Fin n → Number) :
    List (Instruction n) → List Number → Except CallError (List Number)
  | [], stack => .ok stack
  | i :: code, stack =>
    match i.step args stack with
    | .ok stack => execute args code stack
    | .error e => .error e

/-- The stack before the first instruction and after each one that was executed. -/
def stackHistory (args : Fin n → Number) :
    List (Instruction n) → List Number → List (List Number)
  | [], stack => [stack]
  | i :: code, stack =>
    match i.step args stack with
    | .ok next => stack :: stackHistory args code next
    | .error _ => [stack]

/-- The operations executed, each with its value. -/
def results (args : Fin n → Number) :
    List (Instruction n) → List Number → List (Opcode × Number)
  | [], _ => []
  | i :: code, stack =>
    match i, i.step args stack with
    | call op _, .ok (value :: rest) => (op, value) :: results args code (value :: rest)
    | _, .ok stack => results args code stack
    | _, .error _ => []

/-- The stack length after an instruction, as far as it is known without the values. -/
def depthAfter (depth : Nat) : Instruction n → Nat
  | constant _ => depth + 1
  | argument _ => depth + 1
  | call _ count => depth - count + 1

def maxDepthFrom : (depth greatest : Nat) → List (Instruction n) → Nat
  | _, greatest, [] => greatest
  | depth, greatest, i :: code =>
    let depth := i.depthAfter depth
    maxDepthFrom depth (if greatest < depth then depth else greatest) code

end Instruction

namespace Program

def maxDepth (p : Program) : Nat := Instruction.maxDepthFrom 0 0 p.code

def finish : List Number → Except CallError Number
  | [value] => .ok value
  | stack => .error (.stackImbalance stack.length)

def run (p : Program) (args : Fin p.arity → Number) : Except CallError Number :=
  match Instruction.execute args p.code [] with
  | .ok stack => finish stack
  | .error e => .error e

def call (p : Program) (args : List Number) : Except CallError Number :=
  if h : args.length = p.arity then p.run fun slot => args.get (slot.cast h.symm)
  else .error (.arity p.arity args.length)

/-- A call on doubles; a complex result is no double. -/
def callFloat (p : Program) (args : List Float) : Except CallError Float :=
  match p.call (args.map Number.real) with
  | .ok value => .ok (value.toFloat?.getD Binary64.nan)
  | .error e => .error e

def toFunction (p : Program) (args : List Float) : Float :=
  match p.callFloat args with
  | .ok x => x
  | .error _ => Binary64.nan

/-- What a call reports: each operation with its value. -/
def records (p : Program) (args : List Number) : List Log.Record :=
  if h : args.length = p.arity then
    (Instruction.results (fun slot => args.get (slot.cast h.symm)) p.code []).map
      fun (op, value) => ⟨.trace, op.name ++ " -> " ++ String.ofList value.text⟩
  else []

end Program

end SymbolicAlgebra
