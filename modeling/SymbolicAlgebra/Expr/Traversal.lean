import SymbolicAlgebra.Expr.Equality

/-!
# Traversal and rewriting

`preorder` lists a node before its descendants, from left to right; `walk` lists the same nodes by
keeping a stack of subtrees. `rewrite` applies a function to every node from the leaves up, each
node seen with its children already rewritten. `sites` lists the nodes the function is applied to,
in the order in which that happens.
-/

namespace SymbolicAlgebra.Expr

mutual

def preorder : Expr → List Expr
  | num value => [num value]
  | var name => [var name]
  | binary op a b => binary op a b :: (preorder a ++ preorder b)
  | apply f a => apply f a :: preorder a
  | log base a => log base a :: (preorder base ++ preorder a)
  | derivative a v order => derivative a v order :: (preorder a ++ preorder v)
  | integral a v order => integral a v order :: (preorder a ++ preorder v)
  | limit a v destination side =>
    limit a v destination side :: (preorder a ++ (preorder v ++ preorder destination))
  | tensor dims elements => tensor dims elements :: preorderList elements

def preorderList : List Expr → List Expr
  | [] => []
  | t :: ts => preorder t ++ preorderList ts

end

@[simp] theorem preorderList_eq (ts : List Expr) : preorderList ts = ts.flatMap preorder := by
  induction ts with
  | nil => rfl
  | cons t ts ih => simp [preorderList, ih]

theorem preorder_eq (t : Expr) : t.preorder = t :: t.children.flatMap preorder := by
  cases t <;> simp [preorder, children]

theorem length_flatMap_preorder {ts : List Expr}
    (h : ∀ t ∈ ts, t.preorder.length = t.complexity) :
    (ts.flatMap preorder).length = complexityList ts := by
  induction ts with
  | nil => rfl
  | cons t ts ih =>
    simp only [List.flatMap_cons, List.length_append, complexityList_cons]
    rw [h t List.mem_cons_self, ih fun u hu => h u (List.mem_cons_of_mem t hu)]

theorem length_preorder (t : Expr) : t.preorder.length = t.complexity := by
  induction t with
  | tensor dims elements ih =>
    rw [preorder_eq, complexity_eq, List.length_cons, children, length_flatMap_preorder ih,
      Nat.add_comm]
  | _ => simp_all [preorder, complexity] <;> omega

/-- Takes the tree on top of the stack and puts its children in its place. -/
def walk : List Expr → List Expr
  | [] => []
  | t :: stack => t :: walk (t.children ++ stack)
termination_by stack => complexityList stack
decreasing_by simp [complexity_eq t]

theorem walk_eq (stack : List Expr) : walk stack = stack.flatMap preorder := by
  fun_induction walk stack with
  | case1 => rfl
  | case2 t stack ih => rw [ih, List.flatMap_append, List.flatMap_cons, preorder_eq t]; rfl

mutual

def rewrite (f : Expr → Expr) : Expr → Expr
  | num value => f (num value)
  | var name => f (var name)
  | binary op a b => f (binary op (rewrite f a) (rewrite f b))
  | apply g a => f (apply g (rewrite f a))
  | log base a => f (log (rewrite f base) (rewrite f a))
  | derivative a v order => f (derivative (rewrite f a) (rewrite f v) order)
  | integral a v order => f (integral (rewrite f a) (rewrite f v) order)
  | limit a v destination side =>
    f (limit (rewrite f a) (rewrite f v) (rewrite f destination) side)
  | tensor dims elements => f (tensor dims (rewriteList f elements))

def rewriteList (f : Expr → Expr) : List Expr → List Expr
  | [] => []
  | t :: ts => rewrite f t :: rewriteList f ts

end

@[simp] theorem rewriteList_eq (f : Expr → Expr) (ts : List Expr) :
    rewriteList f ts = ts.map (rewrite f) := by
  induction ts with
  | nil => rfl
  | cons t ts ih => simp [rewriteList, ih]

mutual

def sites (f : Expr → Expr) : Expr → List Expr
  | num value => [num value]
  | var name => [var name]
  | binary op a b => sites f a ++ sites f b ++ [binary op (rewrite f a) (rewrite f b)]
  | apply g a => sites f a ++ [apply g (rewrite f a)]
  | log base a => sites f base ++ sites f a ++ [log (rewrite f base) (rewrite f a)]
  | derivative a v order =>
    sites f a ++ sites f v ++ [derivative (rewrite f a) (rewrite f v) order]
  | integral a v order =>
    sites f a ++ sites f v ++ [integral (rewrite f a) (rewrite f v) order]
  | limit a v destination side =>
    sites f a ++ sites f v ++ sites f destination ++
      [limit (rewrite f a) (rewrite f v) (rewrite f destination) side]
  | tensor dims elements => sitesList f elements ++ [tensor dims (rewriteList f elements)]

def sitesList (f : Expr → Expr) : List Expr → List Expr
  | [] => []
  | t :: ts => sites f t ++ sitesList f ts

end

/-- Replaces every subtree that is the same as `x`, from the leaves up. -/
def substitute (t x value : Expr) : Expr := t.rewrite fun node => if node == x then value else node

/-- The replacement of a tree; of two entries for the same tree the later one counts. -/
def replacement? (entries : List (Expr × Expr)) (t : Expr) : Option Expr :=
  (entries.reverse.find? fun entry => entry.1 == t).map (·.2)

/-- Replaces every subtree that has an entry, all at once, from the leaves up. -/
def substituteAll (t : Expr) (entries : List (Expr × Expr)) : Expr :=
  t.rewrite fun node => (replacement? entries node).getD node

end SymbolicAlgebra.Expr
