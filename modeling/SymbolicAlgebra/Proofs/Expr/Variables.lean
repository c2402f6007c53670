import SymbolicAlgebra.Expr.Variables
import SymbolicAlgebra.Proofs.Names

/-!
# Free variables and nodes

The free variables of a tree are the names of its variable nodes that are not reserved. A tree
contains a variable just if that variable occurs in it, reserved or not.
-/

namespace SymbolicAlgebra.Expr

variable {constants : Constants}

theorem mem_freeVariablesInList {ts : List Expr} {name : String} :
    name ∈ freeVariablesInList constants ts ↔ ∃ t ∈ ts, name ∈ freeVariablesIn constants t := by
  induction ts with
  | nil => simp [freeVariablesInList]
  | cons t ts ih => simp [freeVariablesInList, Names.mem_union, ih]

theorem mem_freeVariablesIn {t : Expr} {name : String} :
    name ∈ freeVariablesIn constants t ↔
      var name ∈ t.preorder ∧ constants.isReserved name = false := by
  induction t with
  | num value => simp [freeVariablesIn, preorder]
  | var x =>
    by_cases hreserved : constants.isReserved x = true <;>
      grind [freeVariablesIn, preorder]
  | tensor dims elements ih =>
    simp only [freeVariablesIn, mem_freeVariablesInList, preorder, preorderList_eq, List.mem_cons,
      List.mem_flatMap, reduceCtorEq, false_or]
    grind
  | _ =>
    simp only [freeVariablesIn, Names.mem_union, preorder, List.mem_cons, List.mem_append,
      reduceCtorEq, false_or]
    grind

theorem mem_freeVariables {t : Expr} {name : String} :
    name ∈ t.freeVariables ↔
      var name ∈ t.preorder ∧ Constants.standard.isReserved name = false :=
  mem_freeVariablesIn

/-- A reserved name is nowhere free. -/
theorem isReserved_of_mem_freeVariables {t : Expr} {name : String} (h : name ∈ t.freeVariables) :
    Constants.standard.isReserved name = false :=
  (mem_freeVariables.mp h).2

theorem pairwise_freeVariablesIn (constants : Constants) (t : Expr) :
    (t.freeVariablesIn constants).Pairwise (· < ·) := by
  induction t with
  | num c => exact List.Pairwise.nil
  | var x =>
    rw [freeVariablesIn]
    split_ifs <;> simp
  | tensor dims elements ih =>
    rw [freeVariablesIn]
    induction elements with
    | nil => exact List.Pairwise.nil
    | cons e elements ihe =>
      exact Names.pairwise_union (ihe fun x hx => ih x (List.mem_cons_of_mem e hx)) _
  | apply f a ih => exact ih
  | binary op a b _ ihb => exact Names.pairwise_union ihb _
  | log base a _ iha => exact Names.pairwise_union iha _
  | derivative a v order _ ihv => exact Names.pairwise_union ihv _
  | integral a v order _ ihv => exact Names.pairwise_union ihv _
  | limit a v destination side _ _ ihd => exact Names.pairwise_union (Names.pairwise_union ihd _) _

/-- Being increasing lists, the sets of free variables are equal as soon as they have the same
members. -/
theorem freeVariables_eq_iff {t u : Expr} :
    t.freeVariables = u.freeVariables ↔ ∀ x, x ∈ t.freeVariables ↔ x ∈ u.freeVariables := by
  refine ⟨fun h x => by rw [h], fun h => ?_⟩
  exact (pairwise_freeVariablesIn .standard t).eq_of_mem_iff (pairwise_freeVariablesIn .standard u)
    fun {x} => h x

theorem beq_var_iff {t : Expr} {name : String} : (t == var name) = true ↔ t = var name := by
  change t.same (var name) = true ↔ t = var name
  cases t <;> simp [same]

theorem varName?_eq_some_iff {t : Expr} {name : String} :
    t.varName? = some name ↔ t = var name := by
  cases t <;> simp [varName?]

/-- The look-up of a free variable and the search for a reserved one find the same variables. -/
theorem contains_var {t : Expr} {name : String} :
    t.contains (var name) = true ↔ var name ∈ t.preorder := by
  simp only [contains]
  split
  case isTrue => simp [beq_var_iff]
  case isFalse hreserved =>
    rw [List.contains_iff_mem, mem_freeVariables]
    simp [hreserved]

/-- How often a variable occurs in a tree. -/
def occurrences (x : String) (t : Expr) : ℕ := (t.preorder.filterMap varName?).count x

section Occurrences

variable {x : String}

@[simp] theorem occurrences_num (c : Number) : (num c).occurrences x = 0 := by
  simp [occurrences, preorder, varName?, List.filterMap_cons]

theorem occurrences_var (name : String) :
    (var name).occurrences x = if name = x then 1 else 0 := by
  simp [occurrences, preorder, varName?, List.count_singleton]

@[simp] theorem occurrences_binary (op : Operator) (a b : Expr) :
    (binary op a b).occurrences x = a.occurrences x + b.occurrences x := by
  simp [occurrences, preorder, varName?, List.filterMap_cons]

@[simp] theorem occurrences_apply (f : Elementary) (a : Expr) :
    (apply f a).occurrences x = a.occurrences x := by
  simp [occurrences, preorder, varName?, List.filterMap_cons]

theorem contains_var_iff_occurrences {t : Expr} :
    t.contains (var x) = true ↔ t.occurrences x ≠ 0 := by
  have hname : var x ∈ t.preorder ↔ x ∈ t.preorder.filterMap varName? := by
    simp only [List.mem_filterMap, varName?_eq_some_iff, exists_eq_right]
  rw [contains_var, hname, occurrences, ne_eq, List.count_eq_zero, not_not]

end Occurrences

theorem freeVariables_of_canBeEvaluated {t : Expr} (h : t.canBeEvaluated = true) :
    t.freeVariables = [] := by
  rw [canBeEvaluated, Bool.and_eq_true, List.isEmpty_iff] at h
  exact h.1

end SymbolicAlgebra.Expr
