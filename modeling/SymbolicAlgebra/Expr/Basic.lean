import SymbolicAlgebra.Number.Basic

/-!
# Expression trees

Leaves are numbers and variables. Inner nodes are the five operators, the functions of one argument,
the logarithm to a base, the calculus nodes, which are carried along and never evaluated, and
tensors with their elements row by row.

`children` and `withChildren` take a node apart and put it together again. `induction` is the
induction principle with a hypothesis for every element of a tensor.
-/

namespace SymbolicAlgebra

inductive Operator where
  | sum | difference | product | quotient | power
  deriving DecidableEq

inductive Elementary where
  | sin | cos | tan | cot | arcsin | arccos | arctan | arccot | factorial
  deriving DecidableEq

/-- The side from which a limit is approached. -/
inductive Side where
  | left | right | both
  deriving DecidableEq

inductive Expr where
  | num (value : Number)
  | var (name : String)
  | binary (op : Operator) (a b : Expr)
  | apply (f : Elementary) (a : Expr)
  | log (base a : Expr)
  | derivative (a v : Expr) (order : Nat)
  | integral (a v : Expr) (order : Nat)
  | limit (a v destination : Expr) (side : Side)
  | tensor (dims : List Nat) (elements : List Expr)

namespace Expr

@[match_pattern] abbrev sum (a b : Expr) : Expr := binary .sum a b
@[match_pattern] abbrev difference (a b : Expr) : Expr := binary .difference a b
@[match_pattern] abbrev product (a b : Expr) : Expr := binary .product a b
@[match_pattern] abbrev quotient (a b : Expr) : Expr := binary .quotient a b
@[match_pattern] abbrev power (a b : Expr) : Expr := binary .power a b

@[match_pattern] abbrev sin (a : Expr) : Expr := apply .sin a
@[match_pattern] abbrev cos (a : Expr) : Expr := apply .cos a
@[match_pattern] abbrev tan (a : Expr) : Expr := apply .tan a
@[match_pattern] abbrev cot (a : Expr) : Expr := apply .cot a
@[match_pattern] abbrev arcsin (a : Expr) : Expr := apply .arcsin a
@[match_pattern] abbrev arccos (a : Expr) : Expr := apply .arccos a
@[match_pattern] abbrev arctan (a : Expr) : Expr := apply .arctan a
@[match_pattern] abbrev arccot (a : Expr) : Expr := apply .arccot a
@[match_pattern] abbrev factorial (a : Expr) : Expr := apply .factorial a

abbrev int (n : Int) : Expr := num (.integer n)

def negate (a : Expr) : Expr := product (int (-1)) a

/-- The natural logarithm. -/
def ln (a : Expr) : Expr := log (var "e") a

instance : Inhabited Expr := ⟨int 0⟩

@[elab_as_elim, induction_eliminator]
theorem induction {motive : Expr → Prop} (num : ∀ value, motive (num value))
    (var : ∀ name, motive (var name))
    (binary : ∀ op a b, motive a → motive b → motive (binary op a b))
    (apply : ∀ f a, motive a → motive (apply f a))
    (log : ∀ base a, motive base → motive a → motive (log base a))
    (derivative : ∀ a v order, motive a → motive v → motive (derivative a v order))
    (integral : ∀ a v order, motive a → motive v → motive (integral a v order))
    (limit : ∀ a v destination side, motive a → motive v → motive destination →
      motive (limit a v destination side))
    (tensor : ∀ dims elements, (∀ e ∈ elements, motive e) → motive (tensor dims elements)) :
    ∀ t, motive t
  | .num value => num value
  | .var name => var name
  | .binary op a b =>
    binary op a b
      (induction num var binary apply log derivative integral limit tensor a)
      (induction num var binary apply log derivative integral limit tensor b)
  | .apply f a =>
    apply f a (induction num var binary apply log derivative integral limit tensor a)
  | .log base a =>
    log base a
      (induction num var binary apply log derivative integral limit tensor base)
      (induction num var binary apply log derivative integral limit tensor a)
  | .derivative a v order =>
    derivative a v order
      (induction num var binary apply log derivative integral limit tensor a)
      (induction num var binary apply log derivative integral limit tensor v)
  | .integral a v order =>
    integral a v order
      (induction num var binary apply log derivative integral limit tensor a)
      (induction num var binary apply log derivative integral limit tensor v)
  | .limit a v destination side =>
    limit a v destination side
      (induction num var binary apply log derivative integral limit tensor a)
      (induction num var binary apply log derivative integral limit tensor v)
      (induction num var binary apply log derivative integral limit tensor destination)
  | .tensor dims elements =>
    tensor dims elements fun e _ =>
      induction num var binary apply log derivative integral limit tensor e

/-- A tensor whose element count is the product of its dimensions. -/
def tensor? (dims : List Nat) (elements : List Expr) : Option Expr :=
  if dims.foldl (· * ·) 1 = elements.length then some (tensor dims elements) else none

def children : Expr → List Expr
  | num _ => []
  | var _ => []
  | binary _ a b => [a, b]
  | apply _ a => [a]
  | log base a => [base, a]
  | derivative a v _ => [a, v]
  | integral a v _ => [a, v]
  | limit a v destination _ => [a, v, destination]
  | tensor _ elements => elements

/-- The same kind of node over other children, if their number is right. -/
def withChildren : Expr → List Expr → Option Expr
  | num value, [] => some (num value)
  | var name, [] => some (var name)
  | binary op _ _, [a, b] => some (binary op a b)
  | apply f _, [a] => some (apply f a)
  | log _ _, [base, a] => some (log base a)
  | derivative _ _ order, [a, v] => some (derivative a v order)
  | integral _ _ order, [a, v] => some (integral a v order)
  | limit _ _ _ side, [a, v, destination] => some (limit a v destination side)
  | tensor dims old, new => if new.length = old.length then some (tensor dims new) else none
  | _, _ => none

def number? : Expr → Option Number
  | num value => some value
  | _ => none

def varName? : Expr → Option String
  | var name => some name
  | _ => none

def isNumber (t : Expr) : Bool := t.number?.isSome

def isVariable (t : Expr) : Bool := t.varName?.isSome

/-- Whether the node is the literal of an integer. -/
def isInt (t : Expr) (n : Int) : Bool :=
  match t with
  | num (.integer m) => m = n
  | _ => false

/-- Whether the node is a literal of value zero. -/
def isZero : Expr → Bool
  | num value => value.isZero
  | _ => false

/-- The elementary functions, the logarithm and the calculus nodes. -/
def isFunction : Expr → Bool
  | apply _ _ => true
  | log _ _ => true
  | derivative _ _ _ => true
  | integral _ _ _ => true
  | limit _ _ _ _ => true
  | _ => false

mutual

/-- The number of nodes. -/
def complexity : Expr → Nat
  | num _ => 1
  | var _ => 1
  | binary _ a b => 1 + (complexity a + complexity b)
  | apply _ a => 1 + complexity a
  | log base a => 1 + (complexity base + complexity a)
  | derivative a v _ => 1 + (complexity a + complexity v)
  | integral a v _ => 1 + (complexity a + complexity v)
  | limit a v destination _ => 1 + (complexity a + complexity v + complexity destination)
  | tensor _ elements => 1 + complexityList elements

def complexityList : List Expr → Nat
  | [] => 0
  | t :: ts => complexity t + complexityList ts

end

mutual

/-- Whether all literals are finite. -/
def isFinite : Expr → Bool
  | num value => value.isFinite
  | var _ => true
  | binary _ a b => isFinite a && isFinite b
  | apply _ a => isFinite a
  | log base a => isFinite base && isFinite a
  | derivative a v _ => isFinite a && isFinite v
  | integral a v _ => isFinite a && isFinite v
  | limit a v destination _ => isFinite a && isFinite v && isFinite destination
  | tensor _ elements => isFiniteList elements

def isFiniteList : List Expr → Bool
  | [] => true
  | t :: ts => isFinite t && isFiniteList ts

end

@[simp] theorem complexityList_nil : complexityList [] = 0 := rfl

@[simp] theorem complexityList_cons (t : Expr) (ts : List Expr) :
    complexityList (t :: ts) = t.complexity + complexityList ts := rfl

@[simp] theorem complexityList_append (ts us : List Expr) :
    complexityList (ts ++ us) = complexityList ts + complexityList us := by
  induction ts with
  | nil => simp
  | cons t ts ih => simp [ih, Nat.add_assoc]

theorem complexity_eq (t : Expr) : t.complexity = 1 + complexityList t.children := by
  cases t <;> simp [complexity, children, Nat.add_assoc]

@[simp] theorem isFiniteList_eq (ts : List Expr) : isFiniteList ts = ts.all isFinite := by
  induction ts with
  | nil => rfl
  | cons t ts ih => simp [isFiniteList, ih]

end Expr

end SymbolicAlgebra
