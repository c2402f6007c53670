import SymbolicAlgebra.Proofs.Expr.Rewriting
import SymbolicAlgebra.Proofs.Expr.Variables

/-!
# Marks of a tree

The marks of a tree are its free variables, the kinds of its calculus nodes and tensors, and the
dimensions of each tensor together with the number of its elements. Whether a tree compiles shows in
its marks.
-/

namespace SymbolicAlgebra

inductive Mark where
  | free (name : String)
  | inert (kind : String)
  | tensor (dims : List Nat) (count : Nat)

namespace Expr

/-- The kind of a node without a numeric value. -/
def inertKind? : Expr → Option String
  | derivative _ _ _ => some "derivative"
  | integral _ _ _ => some "integral"
  | limit _ _ _ _ => some "limit"
  | tensor _ _ => some "tensor"
  | _ => none

def nodeMarks : Expr → List Mark
  | var name => if Constants.standard.isReserved name then [] else [.free name]
  | derivative _ _ _ => [.inert "derivative"]
  | integral _ _ _ => [.inert "integral"]
  | limit _ _ _ _ => [.inert "limit"]
  | tensor dims elements => [.inert "tensor", .tensor dims elements.length]
  | _ => []

def marks (t : Expr) : List Mark := t.preorder.flatMap nodeMarks

theorem marks_eq (t : Expr) : t.marks = t.nodeMarks ++ t.children.flatMap marks := by
  rw [marks, preorder_eq, List.flatMap_cons, List.flatMap_assoc]
  rfl

@[simp, grind =] theorem marks_num (value : Number) : (num value).marks = [] := rfl

@[simp, grind =] theorem marks_reserved {name : String}
    (h : Constants.standard.isReserved name = true) : (var name).marks = [] := by
  simp [marks_eq, nodeMarks, children, h]

@[simp, grind =] theorem marks_binary (op : Operator) (a b : Expr) :
    (binary op a b).marks = a.marks ++ b.marks := by
  simp [marks_eq (binary op a b), nodeMarks, children]

@[simp, grind =] theorem marks_apply (f : Elementary) (a : Expr) : (apply f a).marks = a.marks := by
  simp [marks_eq (apply f a), nodeMarks, children]

@[simp, grind =] theorem marks_log (base a : Expr) :
    (log base a).marks = base.marks ++ a.marks := by
  simp [marks_eq (log base a), nodeMarks, children]

theorem free_mem_nodeMarks {t : Expr} {name : String} :
    .free name ∈ t.nodeMarks ↔ t = var name ∧ Constants.standard.isReserved name = false := by
  cases t with
  | var x => by_cases hreserved : Constants.standard.isReserved x = true <;> grind [nodeMarks]
  | _ => simp [nodeMarks]

theorem inert_mem_nodeMarks {t : Expr} {kind : String} :
    .inert kind ∈ t.nodeMarks ↔ t.inertKind? = some kind := by
  cases t with
  | var x => by_cases hreserved : Constants.standard.isReserved x = true <;>
      simp [nodeMarks, inertKind?, hreserved]
  | _ => simp [nodeMarks, inertKind?, eq_comm]

theorem tensor_mem_nodeMarks {t : Expr} {dims : List ℕ} {count : ℕ} :
    .tensor dims count ∈ t.nodeMarks ↔
      ∃ elements, t = tensor dims elements ∧ elements.length = count := by
  cases t with
  | var x => by_cases hreserved : Constants.standard.isReserved x = true <;>
      simp [nodeMarks, hreserved]
  | _ => simp [nodeMarks, eq_comm]

theorem inert_mem_marks {t : Expr} {kind : String} :
    .inert kind ∈ t.marks ↔ ∃ x ∈ t.preorder, x.inertKind? = some kind := by
  simp only [marks, List.mem_flatMap, inert_mem_nodeMarks]

theorem tensor_mem_marks {t : Expr} {dims : List ℕ} {count : ℕ} :
    .tensor dims count ∈ t.marks ↔
      ∃ elements, tensor dims elements ∈ t.preorder ∧ elements.length = count := by
  simp only [marks, List.mem_flatMap, tensor_mem_nodeMarks]
  grind

theorem free_mem_marks {t : Expr} {name : String} :
    .free name ∈ t.marks ↔ name ∈ t.freeVariables := by
  rw [mem_freeVariables, marks, List.mem_flatMap]
  simp only [free_mem_nodeMarks]
  grind

/-- The kind of a node and its dimensions stay when its children are replaced. -/
theorem nodeMarks_of_withChildren {t u : Expr} {ts : List Expr} (h : t.withChildren ts = some u) :
    u.nodeMarks = t.nodeMarks := by
  unfold withChildren at h
  split at h
  case h_9 =>
    split_ifs at h with hlength
    cases h
    rw [nodeMarks, nodeMarks, hlength]
  case h_10 => cases h
  all_goals
    cases h
    rfl

/-- Every tensor has as many elements as its dimensions ask for. -/
def TensorsFit (t : Expr) : Prop :=
  ∀ dims elements, tensor dims elements ∈ t.preorder → dims.prod = elements.length

theorem TensorsFit.of_mem_children {t c : Expr} (h : t.TensorsFit) (hc : c ∈ t.children) :
    c.TensorsFit := by
  intro dims elements hmem
  refine h dims elements ?_
  rw [preorder_eq]
  exact List.mem_cons_of_mem t (List.mem_flatMap.mpr ⟨c, hc, hmem⟩)

theorem TensorsFit.prod_eq {dims : List ℕ} {elements : List Expr}
    (h : (tensor dims elements).TensorsFit) : dims.prod = elements.length :=
  h dims elements (preorder_eq _ ▸ List.mem_cons_self)

end Expr

end SymbolicAlgebra
