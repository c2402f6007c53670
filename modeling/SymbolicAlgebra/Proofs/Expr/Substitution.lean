import SymbolicAlgebra.Proofs.Expr.Rewriting

/-!
# Trees for variables

`replaceVariables` puts a tree in the place of every variable. To substitute for distinct variables
all at once is to replace variables: no other node is one of the trees to be replaced, and what has
been put in is not looked at again.
-/

namespace SymbolicAlgebra.Expr

/-- The tree that stands for a variable; any other node stays. -/
def replaceVariable (σ : String → Expr) : Expr → Expr
  | var name => σ name
  | t => t

def replaceVariables (σ : String → Expr) (t : Expr) : Expr := t.rewrite (replaceVariable σ)

section Nodes

variable (σ : String → Expr)

@[simp] theorem replaceVariables_num (value : Number) :
    (num value).replaceVariables σ = num value := rfl

@[simp] theorem replaceVariables_var (name : String) : (var name).replaceVariables σ = σ name := rfl

@[simp] theorem replaceVariables_binary (op : Operator) (a b : Expr) :
    (binary op a b).replaceVariables σ =
      binary op (a.replaceVariables σ) (b.replaceVariables σ) := rfl

@[simp] theorem replaceVariables_apply (f : Elementary) (a : Expr) :
    (apply f a).replaceVariables σ = apply f (a.replaceVariables σ) := rfl

@[simp] theorem replaceVariables_log (base a : Expr) :
    (log base a).replaceVariables σ = log (base.replaceVariables σ) (a.replaceVariables σ) := rfl

@[simp] theorem replaceVariables_derivative (a v : Expr) (order : ℕ) :
    (derivative a v order).replaceVariables σ =
      derivative (a.replaceVariables σ) (v.replaceVariables σ) order := rfl

@[simp] theorem replaceVariables_integral (a v : Expr) (order : ℕ) :
    (integral a v order).replaceVariables σ =
      integral (a.replaceVariables σ) (v.replaceVariables σ) order := rfl

@[simp] theorem replaceVariables_limit (a v destination : Expr) (side : Side) :
    (limit a v destination side).replaceVariables σ =
      limit (a.replaceVariables σ) (v.replaceVariables σ) (destination.replaceVariables σ) side :=
  rfl

@[simp] theorem replaceVariables_tensor (dims : List ℕ) (elements : List Expr) :
    (tensor dims elements).replaceVariables σ =
      tensor dims (elements.map (replaceVariables σ)) := by
  rw [replaceVariables, rewrite, rewriteList_eq]
  rfl

end Nodes

theorem replacement?_cons (entry : Expr × Expr) (entries : List (Expr × Expr)) (t : Expr) :
    replacement? (entry :: entries) t =
      (replacement? entries t).or (if entry.1 == t then some entry.2 else none) := by
  unfold replacement?
  rw [List.reverse_cons, List.find?_append, Option.map_or, List.find?_singleton]
  split_ifs <;> rfl

/-- The entry of a variable among entries for distinct variables. -/
theorem replacement?_var {names : List String} (hnames : names.Nodup) (values : List Expr)
    (name : String) :
    replacement? ((names.map var).zip values) (var name) = (names.zip values).lookup name := by
  induction names generalizing values with
  | nil => rfl
  | cons x names ih =>
    obtain ⟨hx, hnames⟩ := List.nodup_cons.mp hnames
    cases values with
    | nil => rfl
    | cons value values =>
      have hsame : (var x == var name) = (x == name) := rfl
      rw [List.map_cons, List.zip_cons_cons, List.zip_cons_cons, replacement?_cons, ih hnames,
        List.lookup_cons, hsame]
      by_cases hname : x = name
      · subst hname
        have hnone : (names.zip values).lookup x = none := by
          rw [List.lookup_eq_none_iff]
          intro entry hentry
          simpa using fun h : x = entry.1 => hx (h ▸ (List.of_mem_zip hentry).1)
        simp [hnone]
      · have hname' : (name == x) = false := by simpa using Ne.symm hname
        simp [hname, hname']

theorem replacement?_eq_none {t : Expr} (ht : t.isVariable = false) (names : List String)
    (values : List Expr) : replacement? ((names.map var).zip values) t = none := by
  induction names generalizing values with
  | nil => rfl
  | cons x names ih =>
    cases values with
    | nil => rfl
    | cons value values =>
      have hsame : (var x == t) = false := by
        cases t with
        | var name => cases ht
        | _ => rfl
      rw [List.map_cons, List.zip_cons_cons, replacement?_cons, ih, hsame]
      rfl

/-- A substitution for distinct variables replaces each of them by its tree. -/
theorem substituteAll_eq_replaceVariables {names : List String} (hnames : names.Nodup)
    (values : List Expr) (t : Expr) :
    t.substituteAll ((names.map var).zip values) =
      t.replaceVariables fun name => ((names.zip values).lookup name).getD (var name) := by
  unfold substituteAll replaceVariables
  congr 1
  funext node
  cases node with
  | var name => rw [replacement?_var hnames, replaceVariable]
  | _ =>
    rw [replacement?_eq_none rfl]
    rfl

end SymbolicAlgebra.Expr
