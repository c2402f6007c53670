import SymbolicAlgebra.Proofs.Expr.Containment
import SymbolicAlgebra.Proofs.Program.Substitution

/-!
# Views of a tree

A walk keeps the trees it has still to visit on a stack. What it gives is the preorder, item by item,
so it ends after as many items as the tree has nodes. Containment is decided by a look-up for free
variables and by a search for anything else, and the free variables are collected from the leaves up.
Both can be read off the walk. In the order in which the walk first comes by them, the free variables
are arguments over which the tree compiles.
-/

namespace SymbolicAlgebra.Expr

variable {t u : Expr} {x : String}

section FirstOccurrences

variable {ts : List Expr}

theorem idxOf_var_self (x : String) (ts : List Expr) : (var x :: ts).idxOf (var x) = 0 := by
  rw [List.idxOf_cons, beq_var_iff.mpr rfl]
  rfl

theorem idxOf_var_cons (h : u ≠ var x) : (u :: ts).idxOf (var x) = ts.idxOf (var x) + 1 := by
  have hother : (u == var x) = false := Bool.eq_false_iff.mpr fun hsame => h (beq_var_iff.mp hsame)
  rw [List.idxOf_cons, hother]
  rfl

theorem pairwise_idxOf_cons {names : List String} (hu : ∀ x ∈ names, u ≠ var x)
    (h : names.Pairwise fun x y => ts.idxOf (var x) < ts.idxOf (var y)) :
    names.Pairwise fun x y => (u :: ts).idxOf (var x) < (u :: ts).idxOf (var y) := by
  refine h.imp_of_mem fun hx hy hlt => ?_
  rw [idxOf_var_cons (hu _ hx), idxOf_var_cons (hu _ hy)]
  exact Nat.succ_lt_succ hlt

/-- The induction is for all conditions `p` at once, because a name that has come up is from then on
passed over like the names that do not satisfy `p`. -/
theorem pairwise_eraseDups (ts : List Expr) (p : String → Bool) :
    ((ts.filterMap varName?).filter p).eraseDups.Pairwise fun x y =>
      ts.idxOf (var x) < ts.idxOf (var y) := by
  induction ts generalizing p with
  | nil => exact List.Pairwise.nil
  | cons u ts ih =>
    cases hu : u.varName? with
    | none =>
      rw [List.filterMap_cons_none hu]
      refine pairwise_idxOf_cons (fun x _ heq => ?_) (ih p)
      rw [varName?_eq_some_iff.mpr heq] at hu
      cases hu
    | some name =>
      obtain rfl := varName?_eq_some_iff.mp hu
      rw [List.filterMap_cons_some hu]
      by_cases hp : p name = true
      · rw [List.filter_cons_of_pos hp, List.eraseDups_cons, List.filter_filter]
        have hne : ∀ y ∈ ((ts.filterMap varName?).filter
            fun y => !(y == name) && p y).eraseDups, var name ≠ var y := by
          intro y hy heq
          simp [var.inj heq] at hy
        refine List.pairwise_cons.mpr ⟨fun y hy => ?_, pairwise_idxOf_cons hne (ih _)⟩
        rw [idxOf_var_self, idxOf_var_cons (hne y hy)]
        exact Nat.succ_pos _
      · rw [List.filter_cons_of_neg hp]
        refine pairwise_idxOf_cons (fun y hy heq => ?_) (ih p)
        rw [List.mem_eraseDups, List.mem_filter] at hy
        exact hp (var.inj heq ▸ hy.2)

end FirstOccurrences

theorem mem_variablesInOrder : x ∈ t.variablesInOrder ↔ x ∈ t.freeVariables := by
  rw [mem_freeVariables, variablesInOrder, List.mem_eraseDups, List.mem_filter, List.mem_filterMap]
  simp only [varName?_eq_some_iff, exists_eq_right, Bool.not_eq_true']

theorem pairwise_variablesInOrder (t : Expr) :
    t.variablesInOrder.Pairwise fun x y =>
      t.preorder.idxOf (var x) < t.preorder.idxOf (var y) :=
  pairwise_eraseDups t.preorder _

theorem nodup_variablesInOrder (t : Expr) : t.variablesInOrder.Nodup := by
  refine (pairwise_variablesInOrder t).imp ?_
  rintro x y hlt rfl
  exact Nat.lt_irrefl _ hlt

/-- The free variables are arguments enough, and no name is declared twice. -/
theorem exists_compile_variablesInOrder :
    (∃ p, t.compile t.variablesInOrder = .ok p) ↔ ∀ y ∈ t.preorder, y.isInert = false := by
  have hnames : firstRepeated [] t.variablesInOrder = none :=
    firstRepeated_eq_none.mpr ⟨nodup_variablesInOrder t, fun _ _ => List.not_mem_nil⟩
  rw [compile, exists_compileWith]
  exact ⟨fun h => h.2.2, fun h => ⟨hnames, fun _ => mem_variablesInOrder.mpr, h⟩⟩

theorem walk_singleton (t : Expr) : walk [t] = t.preorder := by
  rw [walk_eq, List.flatMap_singleton]

/-- A walk gives a node before the walks of its children, from left to right, and as many items as
there are nodes. A tree is contained just if some item is the same tree. The variables in order are
the free ones, each once, a variable before those that the walk comes by later. The tree compiles over
them just if the walk comes by no calculus node and no tensor. -/
theorem walk_agrees (t : Expr) :
    (walk [t] = t.preorder ∧ t.preorder = t :: t.children.flatMap preorder ∧
        (walk [t]).length = t.complexity) ∧
      (∀ x, t.contains x = true ↔ ∃ y ∈ walk [t], (y == x) = true) ∧
      (t.variablesInOrder.Nodup ∧ (∀ x, x ∈ t.variablesInOrder ↔ x ∈ t.freeVariables) ∧
        t.variablesInOrder.Pairwise fun x y =>
          (walk [t]).idxOf (var x) < (walk [t]).idxOf (var y)) ∧
      ((∃ p, t.compile t.variablesInOrder = .ok p) ↔ ∀ y ∈ walk [t], y.isInert = false) := by
  rw [walk_singleton]
  exact ⟨⟨rfl, preorder_eq t, length_preorder t⟩, fun _ => contains_iff,
    ⟨nodup_variablesInOrder t, fun _ => mem_variablesInOrder, pairwise_variablesInOrder t⟩,
    exists_compile_variablesInOrder⟩

example :
    let t := sum (product (var "y") (var "pi")) (sin (sum (var "x") (var "y")))
    t.variablesInOrder = ["y", "x"] ∧ t.freeVariables = ["x", "y"] := by
  decide

end SymbolicAlgebra.Expr
