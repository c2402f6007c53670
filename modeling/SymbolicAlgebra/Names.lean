/-!
# Sets of names

A set of names is a list in increasing order without repetitions, the order being that of the code
points. `union` keeps both; membership is membership in either set.
-/

namespace SymbolicAlgebra.Names

/-- Lexicographic by code point; a proper beginning comes first. -/
def precedesChars : List Char → List Char → Bool
  | [], [] => false
  | [], _ :: _ => true
  | _ :: _, [] => false
  | c :: cs, d :: ds => c.toNat < d.toNat || (c = d && precedesChars cs ds)

def precedes (x y : String) : Bool := precedesChars x.toList y.toList

def insert (x : String) : List String → List String
  | [] => [x]
  | y :: ys => if x = y then y :: ys else if precedes x y then x :: y :: ys else y :: insert x ys

def union (xs ys : List String) : List String := xs.foldr insert ys

def ofList (xs : List String) : List String := union xs []

@[simp] theorem mem_insert {x y : String} {ys : List String} :
    x ∈ insert y ys ↔ x = y ∨ x ∈ ys := by
  induction ys with
  | nil => simp [insert]
  | cons z zs ih =>
    unfold insert
    split
    · next h => subst h; simp
    · split
      · simp
      · simp [ih, or_left_comm]

@[simp] theorem mem_union {x : String} {xs ys : List String} :
    x ∈ union xs ys ↔ x ∈ xs ∨ x ∈ ys := by
  induction xs with
  | nil => simp [union]
  | cons z zs ih =>
    have h : union (z :: zs) ys = insert z (union zs ys) := rfl
    simp [h, ih, or_assoc]

end SymbolicAlgebra.Names
