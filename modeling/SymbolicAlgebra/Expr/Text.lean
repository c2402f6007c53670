import SymbolicAlgebra.Expr.Basic

/-!
# The text of a tree

Every operator is written with its parentheses, so the text shows the shape of the tree. Literals
that are negative or complex stand in parentheses of their own.
-/

namespace SymbolicAlgebra

def Operator.symbol : Operator → Char
  | .sum => '+'
  | .difference => '-'
  | .product => '*'
  | .quotient => '/'
  | .power => '^'

def Operator.name : Operator → String
  | .sum => "sum"
  | .difference => "difference"
  | .product => "product"
  | .quotient => "quotient"
  | .power => "power"

def Elementary.name : Elementary → String
  | .sin => "sin"
  | .cos => "cos"
  | .tan => "tan"
  | .cot => "cot"
  | .arcsin => "arcsin"
  | .arccos => "arccos"
  | .arctan => "arctan"
  | .arccot => "arccot"
  | .factorial => "factorial"

def Side.name : Side → String
  | .left => "left"
  | .right => "right"
  | .both => "both"

namespace Expr

def numberChars (value : Number) : List Char :=
  if value.isNegative || !value.isReal then '(' :: value.text ++ [')'] else value.text

def natChars (n : Nat) : List Char := n.repr.toList

def separator : List Char := [',', ' ']

def dimsChars : List Nat → List Char
  | [] => []
  | [d] => natChars d
  | d :: ds => natChars d ++ 'x' :: dimsChars ds

mutual

def chars : Expr → List Char
  | num value => numberChars value
  | var name => name.toList
  | binary op a b => '(' :: chars a ++ ' ' :: op.symbol :: ' ' :: chars b ++ [')']
  | apply .factorial a => '(' :: chars a ++ [')', '!']
  | apply f a => f.name.toList ++ '(' :: chars a ++ [')']
  | log base a => "log(".toList ++ chars base ++ separator ++ chars a ++ [')']
  | derivative a v order =>
    "derivative(".toList ++ chars a ++ separator ++ chars v ++ separator ++ natChars order ++ [')']
  | integral a v order =>
    "integral(".toList ++ chars a ++ separator ++ chars v ++ separator ++ natChars order ++ [')']
  | limit a v destination side =>
    "limit(".toList ++ chars a ++ separator ++ chars v ++ separator ++ chars destination ++
      separator ++ side.name.toList ++ [')']
  | tensor dims elements =>
    "tensor<".toList ++ dimsChars dims ++ ">[".toList ++ charsList elements ++ [']']

def charsList : List Expr → List Char
  | [] => []
  | [t] => chars t
  | t :: ts => chars t ++ separator ++ charsList ts

end

def text (t : Expr) : String := String.ofList t.chars

end Expr

end SymbolicAlgebra
