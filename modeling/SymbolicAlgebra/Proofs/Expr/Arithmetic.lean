import SymbolicAlgebra.Proofs.Expr.Rewriting
import SymbolicAlgebra.Proofs.Expr.Sameness
import SymbolicAlgebra.Proofs.Expr.Variables
import SymbolicAlgebra.Proofs.Number.Exact

/-!
# Arithmetic trees

A tree is exact if all its literals are. It is rational over some variables if it has no nodes but
literals, these variables and operators, and arithmetic if none of them is reserved and all exponents
are literal integers.
-/

namespace SymbolicAlgebra

namespace Expr

mutual

/-- Whether all literals are exact. -/
def isExact : Expr → Bool
  | num value => value.isExact
  | var _ => true
  | binary _ a b => isExact a && isExact b
  | apply _ a => isExact a
  | log base a => isExact base && isExact a
  | derivative a v _ => isExact a && isExact v
  | integral a v _ => isExact a && isExact v
  | limit a v destination _ => isExact a && isExact v && isExact destination
  | tensor _ elements => isExactList elements

def isExactList : List Expr → Bool
  | [] => true
  | t :: ts => isExact t && isExactList ts

end

def isIntegerLiteral : Expr → Bool
  | num value => value.isInteger
  | _ => false

def isArithmetic : Expr → Bool
  | num _ => true
  | var name => !Constants.standard.isReserved name
  | binary op a b =>
    match op with
    | .power => isArithmetic a && b.isIntegerLiteral
    | _ => isArithmetic a && isArithmetic b
  | _ => false

def isRationalOver (allowed : String → Bool) : Expr → Bool
  | num _ => true
  | var name => allowed name
  | binary _ a b => isRationalOver allowed a && isRationalOver allowed b
  | _ => false

/-- Whether a variable of that name is free. -/
def unreserved (name : String) : Bool := !Constants.standard.isReserved name

/-- Whether a variable is free or the one that is named. -/
def unreservedOr (name : String) (x : String) : Bool := x == name || unreserved x

@[simp] theorem isExactList_eq (ts : List Expr) : isExactList ts = ts.all isExact := by
  induction ts with
  | nil => rfl
  | cons t ts ih => simp [isExactList, ih]

@[simp, grind =] theorem isExact_num (c : Number) : (num c).isExact = c.isExact := rfl

@[simp, grind =] theorem isExact_binary (op : Operator) (a b : Expr) :
    (binary op a b).isExact = (a.isExact && b.isExact) := rfl

@[simp, grind =] theorem isArithmetic_num (c : Number) : (num c).isArithmetic = true := rfl

@[simp, grind =] theorem isArithmetic_sum (a b : Expr) :
    (sum a b).isArithmetic = (a.isArithmetic && b.isArithmetic) := rfl

@[simp, grind =] theorem isArithmetic_difference (a b : Expr) :
    (difference a b).isArithmetic = (a.isArithmetic && b.isArithmetic) := rfl

@[simp, grind =] theorem isArithmetic_product (a b : Expr) :
    (product a b).isArithmetic = (a.isArithmetic && b.isArithmetic) := rfl

@[simp, grind =] theorem isArithmetic_quotient (a b : Expr) :
    (quotient a b).isArithmetic = (a.isArithmetic && b.isArithmetic) := rfl

@[simp, grind =] theorem isArithmetic_power (a b : Expr) :
    (power a b).isArithmetic = (a.isArithmetic && b.isIntegerLiteral) := rfl

@[simp, grind =] theorem isArithmetic_apply (f : Elementary) (a : Expr) :
    (apply f a).isArithmetic = false := rfl

@[simp, grind =] theorem isIntegerLiteral_log (base a : Expr) :
    (log base a).isIntegerLiteral = false := rfl

@[simp, grind =] theorem isIntegerLiteral_num (c : Number) :
    (num c).isIntegerLiteral = c.isInteger := rfl

theorem isIntegerLiteral_iff {t : Expr} : t.isIntegerLiteral = true ↔ ∃ n, t = int n := by
  cases t <;> simp [isIntegerLiteral, Number.isInteger_iff]

theorem isInt_iff {t : Expr} {n : ℤ} : t.isInt n = true ↔ t = int n := by
  unfold isInt
  split <;> simp_all

theorem isArithmetic_of_isIntegerLiteral {t : Expr} (h : t.isIntegerLiteral = true) :
    t.isArithmetic = true := by
  obtain ⟨n, rfl⟩ := isIntegerLiteral_iff.mp h
  rfl

theorem isArithmetic_binary {op : Operator} {a b : Expr} (h : (binary op a b).isArithmetic = true) :
    a.isArithmetic = true ∧ b.isArithmetic = true := by
  obtain ⟨ha, hb⟩ :
      a.isArithmetic = true ∧ (b.isArithmetic = true ∨ b.isIntegerLiteral = true) := by
    cases op <;> simp_all
  exact ⟨ha, hb.elim id isArithmetic_of_isIntegerLiteral⟩

theorem isRationalOver_binary {allowed : String → Bool} {op : Operator} {a b : Expr}
    (h : (binary op a b).isRationalOver allowed = true) :
    a.isRationalOver allowed = true ∧ b.isRationalOver allowed = true :=
  Bool.and_eq_true_iff.mp h

theorem isRationalOver_mono {allowed allowed' : String → Bool} {t : Expr}
    (h : ∀ x, var x ∈ t.preorder → allowed x = true → allowed' x = true)
    (ht : t.isRationalOver allowed = true) : t.isRationalOver allowed' = true := by
  induction t with
  | num c => rfl
  | var x => exact h x (by simp [preorder]) ht
  | binary op a b iha ihb =>
    obtain ⟨ha, hb⟩ := isRationalOver_binary ht
    rw [isRationalOver, iha (fun x hx => h x (by simp [preorder, hx])) ha,
      ihb (fun x hx => h x (by simp [preorder, hx])) hb]
    rfl
  | _ => cases ht

theorem allowed_of_mem_preorder {allowed : String → Bool} {t : Expr}
    (ht : t.isRationalOver allowed = true) {x : String} (hx : var x ∈ t.preorder) :
    allowed x = true := by
  induction t with
  | num c => simp [preorder] at hx
  | var y =>
    simp only [preorder, List.mem_singleton, var.injEq] at hx
    exact hx ▸ ht
  | binary op a b iha ihb =>
    obtain ⟨ha, hb⟩ := isRationalOver_binary ht
    simp only [preorder, List.mem_cons, reduceCtorEq, List.mem_append, false_or] at hx
    exact hx.elim (iha ha) (ihb hb)
  | _ => cases ht

theorem isRationalOver_unreservedOr {t : Expr} (name : String)
    (h : t.isRationalOver unreserved = true) : t.isRationalOver (unreservedOr name) = true :=
  isRationalOver_mono (fun x _ hx => by rw [unreservedOr, hx, Bool.or_true]) h

theorem isRationalOver_unreserved {t : Expr} {name : String}
    (h : t.isRationalOver (unreservedOr name) = true) (hname : t.contains (var name) = false) :
    t.isRationalOver unreserved = true := by
  refine isRationalOver_mono (fun x hx hallowed => ?_) h
  have hne : x ≠ name := by
    rintro rfl
    rw [contains_var.mpr hx] at hname
    cases hname
  simpa [unreservedOr, hne] using hallowed

theorem isRationalOver_of_isArithmetic {t : Expr} (h : t.isArithmetic = true) :
    t.isRationalOver unreserved = true := by
  induction t with
  | num c => rfl
  | var x => exact h
  | binary op a b iha ihb =>
    obtain ⟨ha, hb⟩ := isArithmetic_binary h
    rw [isRationalOver, iha ha, ihb hb]
    rfl
  | _ => cases h

theorem isFinite_of_isExact {t : Expr} (h : t.isExact = true) : t.isFinite = true := by
  induction t with
  | num c => cases c <;> first | rfl | cases h
  | tensor dims elements ih =>
    simp only [isExact, isExactList_eq, List.all_eq_true] at h
    simp only [isFinite, isFiniteList_eq, List.all_eq_true]
    exact fun e he => ih e he (h e he)
  | _ => simp_all [isExact, isFinite]

theorem isExact_rewrite {f : Expr → Expr} {t : Expr}
    (h : ∀ x ∈ t.sites f, (f x).isExact = true) : (t.rewrite f).isExact = true := by
  obtain ⟨u, -, hrewrite, hsites⟩ := exists_rewritten_node f t
  rw [hrewrite]
  exact h u (by simp [hsites])

/-- On trees with exact literals the structural equality is equality. -/
theorem eq_of_same {t u : Expr} (ht : t.isExact = true) (h : t.same u = true) : t = u := by
  induction t generalizing u with
  | num c =>
    cases u <;> simp only [same, Bool.false_eq_true] at h
    rw [Number.eq_of_same ht h]
  | tensor dims elements ih =>
    cases u <;> simp only [same, Bool.false_eq_true, Bool.and_eq_true, decide_eq_true_eq] at h
    simp only [isExact, isExactList_eq, List.all_eq_true] at ht
    have helements := map_eq_of_sameList (f := id) (fun e he u => ih e he (ht e he)) h.2
    rw [List.map_id, List.map_id] at helements
    rw [h.1, helements]
  | _ =>
    cases u <;> simp only [same, Bool.false_eq_true, Bool.and_eq_true, decide_eq_true_eq,
      beq_iff_eq] at h
    all_goals
      simp only [isExact, Bool.and_eq_true] at ht
      grind

end Expr

end SymbolicAlgebra
