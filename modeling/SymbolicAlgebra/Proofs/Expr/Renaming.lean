import Mathlib.Logic.Equiv.Basic
import SymbolicAlgebra.Expr.Terms
import SymbolicAlgebra.Program.Evaluation
import SymbolicAlgebra.Proofs.Expr.Substitution
import SymbolicAlgebra.Proofs.Expr.Variables
import SymbolicAlgebra.Proofs.Names

/-!
# Renamed trees

A renaming is an injective map of names that keeps the reserved names apart from the others and
leaves them as they are. Nothing that is asked about trees depends on the names in them: two trees
are the same, or alike at a sort level, if and only if the renamed trees are.
-/

namespace SymbolicAlgebra

structure Renaming where
  toFun : String → String
  injective : Function.Injective toFun
  reserved : ∀ x, Constants.standard.isReserved x = true → toFun x = x
  free : ∀ x, Constants.standard.isReserved x = false →
    Constants.standard.isReserved (toFun x) = false

namespace Renaming

variable (s : Renaming)

@[simp] theorem isReserved_toFun (x : String) :
    Constants.standard.isReserved (s.toFun x) = Constants.standard.isReserved x := by
  cases hx : Constants.standard.isReserved x with
  | true => rw [s.reserved x hx, hx]
  | false => exact s.free x hx

/-- Exchanges two names that are not reserved. -/
def swap {x y : String} (hx : Constants.standard.isReserved x = false)
    (hy : Constants.standard.isReserved y = false) : Renaming where
  toFun := Equiv.swap x y
  injective := (Equiv.swap x y).injective
  reserved z hz := Equiv.swap_apply_of_ne_of_ne (fun h => by simp [h, hx] at hz)
    (fun h => by simp [h, hy] at hz)
  free z hz := by
    rw [Equiv.swap_apply_def]
    split_ifs <;> assumption

end Renaming

namespace Expr

/-- The tree with every variable under its new name. -/
def rename (s : Renaming) (t : Expr) : Expr := t.replaceVariables fun x => var (s.toFun x)

variable {s : Renaming} {t u : Expr}

section Nodes

variable (s)

@[simp] theorem rename_num (c : Number) : (num c).rename s = num c := rfl

@[simp] theorem rename_var (x : String) : (var x).rename s = var (s.toFun x) := rfl

@[simp] theorem rename_binary (op : Operator) (a b : Expr) :
    (binary op a b).rename s = binary op (a.rename s) (b.rename s) := rfl

@[simp] theorem rename_apply (f : Elementary) (a : Expr) :
    (apply f a).rename s = apply f (a.rename s) := rfl

@[simp] theorem rename_log (base a : Expr) :
    (log base a).rename s = log (base.rename s) (a.rename s) := rfl

@[simp] theorem rename_derivative (a v : Expr) (order : ℕ) :
    (derivative a v order).rename s = derivative (a.rename s) (v.rename s) order := rfl

@[simp] theorem rename_integral (a v : Expr) (order : ℕ) :
    (integral a v order).rename s = integral (a.rename s) (v.rename s) order := rfl

@[simp] theorem rename_limit (a v destination : Expr) (side : Side) :
    (limit a v destination side).rename s =
      limit (a.rename s) (v.rename s) (destination.rename s) side := rfl

@[simp] theorem rename_tensor (dims : List ℕ) (elements : List Expr) :
    (tensor dims elements).rename s = tensor dims (elements.map (rename s)) :=
  replaceVariables_tensor _ dims elements

end Nodes

theorem sameList_map_rename {ts us : List Expr}
    (h : ∀ t ∈ ts, ∀ u, (t.rename s).same (u.rename s) = t.same u) :
    sameList (ts.map (rename s)) (us.map (rename s)) = sameList ts us := by
  induction ts generalizing us with
  | nil => cases us <;> rfl
  | cons t ts ih =>
    cases us with
    | nil => rfl
    | cons u us =>
      simp only [List.map_cons, sameList]
      rw [h t List.mem_cons_self, ih fun v hv => h v (List.mem_cons_of_mem t hv)]

/-- Two trees are the same if and only if the renamed trees are. -/
theorem same_rename (s : Renaming) (t u : Expr) : (t.rename s == u.rename s) = (t == u) := by
  change (t.rename s).same (u.rename s) = t.same u
  induction t generalizing u with
  | var x =>
    cases u <;> simp [same]
    exact s.injective.eq_iff
  | tensor dims elements ih => cases u <;> simp [same, sameList_map_rename ih]
  | _ => cases u <;> simp_all [same]

theorem isFunction_rename (s : Renaming) (t : Expr) : (t.rename s).isFunction = t.isFunction := by
  cases t <;> simp [isFunction]

theorem isVariable_rename (s : Renaming) (t : Expr) : (t.rename s).isVariable = t.isVariable := by
  cases t <;> simp [isVariable, varName?]

theorem isNumber_rename (s : Renaming) (t : Expr) : (t.rename s).isNumber = t.isNumber := by
  cases t <;> simp [isNumber, number?]

theorem isInt_rename (s : Renaming) (t : Expr) (n : ℤ) : (t.rename s).isInt n = t.isInt n := by
  cases t <;> simp [isInt]

theorem isZero_rename (s : Renaming) (t : Expr) : (t.rename s).isZero = t.isZero := by
  cases t <;> simp [isZero]

theorem isInert_rename (s : Renaming) (t : Expr) : (t.rename s).isInert = t.isInert := by
  cases t <;> simp [isInert]

theorem isFinite_rename (s : Renaming) (t : Expr) : (t.rename s).isFinite = t.isFinite := by
  induction t with
  | tensor dims elements ih =>
    rw [rename_tensor, isFinite, isFinite, isFiniteList_eq, isFiniteList_eq, List.all_map,
      Bool.eq_iff_iff, List.all_eq_true, List.all_eq_true]
    exact forall₂_congr fun e he => by rw [Function.comp_apply, ih e he]
  | _ => simp_all [isFinite]

theorem complexity_rename (s : Renaming) (t : Expr) : (t.rename s).complexity = t.complexity := by
  induction t with
  | tensor dims elements ih =>
    rw [rename_tensor, complexity, complexity]
    congr 1
    induction elements with
    | nil => rfl
    | cons e elements ihe =>
      rw [List.map_cons, complexityList_cons, complexityList_cons, ih e List.mem_cons_self,
        ihe fun x hx => ih x (List.mem_cons_of_mem e hx)]
  | _ => simp_all [complexity]

theorem preorder_rename (s : Renaming) (t : Expr) :
    (t.rename s).preorder = t.preorder.map (rename s) := by
  induction t with
  | tensor dims elements ih =>
    rw [rename_tensor, preorder, preorder, preorderList_eq, preorderList_eq, List.map_cons,
      rename_tensor, List.map_flatMap, List.flatMap_map]
    congr 1
    exact List.flatMap_congr ih
  | _ => simp_all [preorder]

theorem rewrite_rename {f : Expr → Expr} (h : ∀ t, f (t.rename s) = (f t).rename s) (t : Expr) :
    (t.rename s).rewrite f = (t.rewrite f).rename s := by
  induction t with
  | tensor dims elements ih =>
    rw [rename_tensor, rewrite, rewrite, rewriteList_eq, rewriteList_eq, List.map_map, ← h,
      rename_tensor, List.map_map]
    congr 2
    exact List.map_congr_left ih
  | _ => simp_all [rewrite, ← h]

/-! ## Free variables -/

theorem rename_eq_var {y : String} : t.rename s = var y ↔ ∃ x, t = var x ∧ s.toFun x = y := by
  cases t <;> simp

theorem mem_freeVariables_rename {y : String} :
    y ∈ (t.rename s).freeVariables ↔ ∃ x ∈ t.freeVariables, s.toFun x = y := by
  simp only [mem_freeVariables, preorder_rename, List.mem_map, rename_eq_var]
  constructor
  · rintro ⟨⟨_, hx, x, rfl, rfl⟩, hy⟩
    exact ⟨x, ⟨hx, s.isReserved_toFun x ▸ hy⟩, rfl⟩
  · rintro ⟨x, ⟨hx, hfree⟩, rfl⟩
    exact ⟨⟨var x, hx, x, rfl, rfl⟩, s.free x hfree⟩

theorem toFun_mem_freeVariables_rename {x : String} :
    s.toFun x ∈ (t.rename s).freeVariables ↔ x ∈ t.freeVariables := by
  rw [mem_freeVariables_rename]
  exact ⟨fun ⟨y, hy, h⟩ => s.injective h ▸ hy, fun h => ⟨x, h, rfl⟩⟩

theorem isEmpty_freeVariables_rename (s : Renaming) (t : Expr) :
    (t.rename s).freeVariables.isEmpty = t.freeVariables.isEmpty := by
  rw [Bool.eq_iff_iff, List.isEmpty_iff, List.isEmpty_iff, List.eq_nil_iff_forall_not_mem,
    List.eq_nil_iff_forall_not_mem]
  constructor
  · exact fun h x hx => h _ (toFun_mem_freeVariables_rename.mpr hx)
  · intro h y hy
    obtain ⟨x, hx, -⟩ := mem_freeVariables_rename.mp hy
    exact h x hx

theorem freeVariables_rename_eq_iff :
    (t.rename s).freeVariables = (u.rename s).freeVariables ↔
      t.freeVariables = u.freeVariables := by
  rw [freeVariables_eq_iff, freeVariables_eq_iff]
  constructor
  · intro h x
    rw [← toFun_mem_freeVariables_rename (s := s), h, toFun_mem_freeVariables_rename]
  · intro h y
    simp only [mem_freeVariables_rename, h]

/-! ## Values -/

/-- A tree with reserved names only stays as it is. -/
theorem rename_eq_self (s : Renaming) (h : t.freeVariables = []) : t.rename s = t := by
  have hreserved : ∀ x, var x ∈ t.preorder → Constants.standard.isReserved x = true := by
    intro x hx
    by_contra hfree
    have hmem := mem_freeVariables.mpr ⟨hx, by simpa using hfree⟩
    rw [h] at hmem
    cases hmem
  clear h
  induction t with
  | var x => rw [rename_var, s.reserved x (hreserved x List.mem_cons_self)]
  | tensor dims elements ih =>
    rw [preorder, preorderList_eq] at hreserved
    rw [rename_tensor, List.map_congr_left (g := id), List.map_id]
    exact fun e he => ih e he fun x hx =>
      hreserved x (List.mem_cons_of_mem _ (List.mem_flatMap.mpr ⟨e, he, hx⟩))
  | _ => simp_all [preorder]

theorem canBeEvaluated_rename (s : Renaming) (t : Expr) :
    (t.rename s).canBeEvaluated = t.canBeEvaluated := by
  rw [canBeEvaluated, canBeEvaluated, isEmpty_freeVariables_rename, preorder_rename, List.any_map]
  simp only [Function.comp_def, isInert_rename]

theorem value?_rename (s : Renaming) (t : Expr) : (t.rename s).value? = t.value? := by
  cases h : t.canBeEvaluated with
  | true =>
    rw [canBeEvaluated, Bool.and_eq_true, List.isEmpty_iff] at h
    rw [rename_eq_self s h.1]
  | false =>
    have hrename := canBeEvaluated_rename s t
    rw [h] at hrename
    simp [value?, eval, h, hrename, Except.toOption]

theorem contains_rename {x : String} (hx : Constants.standard.isReserved x = false) :
    (t.rename s).contains (var (s.toFun x)) = t.contains (var x) := by
  simp only [contains, Renaming.isReserved_toFun, hx, Bool.false_eq_true, if_false]
  rw [Bool.eq_iff_iff, List.contains_iff_mem, List.contains_iff_mem,
    toFun_mem_freeVariables_rename]

theorem shape_rename (s : Renaming) (t : Expr) : (t.rename s).shape = t.shape.rename s := by
  induction t with
  | tensor dims elements ih =>
    rw [rename_tensor, shape, shape, rename_tensor]
    congr 1
    induction elements with
    | nil => rfl
    | cons e elements ihe =>
      simp only [List.map_cons, shapeList]
      rw [ih e List.mem_cons_self, ihe fun x hx => ih x (List.mem_cons_of_mem e hx)]
  | _ => simp_all [shape]

end Expr

/-- Which terms count as alike does not depend on their names. -/
theorem SortLevel.agree_rename (level : SortLevel) (s : Renaming) (t u : Expr) :
    level.agree (t.rename s) (u.rename s) = level.agree t u := by
  cases level with
  | exact => exact Expr.same_rename s t u
  | shape => rw [agree, agree, Expr.shape_rename, Expr.shape_rename, Expr.same_rename]
  | loose =>
    rw [agree, agree, Bool.eq_iff_iff, beq_iff_eq, beq_iff_eq, Expr.freeVariables_rename_eq_iff]

end SymbolicAlgebra
