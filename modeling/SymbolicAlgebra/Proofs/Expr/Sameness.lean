import SymbolicAlgebra.Expr.Equality

/-!
# Same trees

The structural equality looks at a literal through the equality of numbers. A function of trees that
does not tell same elements apart does not tell same lists apart.
-/

namespace SymbolicAlgebra.Expr

theorem map_eq_of_sameList {α : Type} {f : Expr → α} {ts us : List Expr}
    (h : ∀ t ∈ ts, ∀ u, t.same u = true → f t = f u) (hsame : sameList ts us = true) :
    ts.map f = us.map f := by
  induction ts generalizing us with
  | nil =>
    cases us with
    | nil => rfl
    | cons u us => cases hsame
  | cons t ts ih =>
    cases us with
    | nil => cases hsame
    | cons u us =>
      simp only [sameList, Bool.and_eq_true] at hsame
      have htail := ih (fun v hv => h v (List.mem_cons_of_mem t hv)) hsame.2
      rw [List.map_cons, List.map_cons, h t List.mem_cons_self u hsame.1, htail]

theorem complexityList_eq_foldr (ts : List Expr) :
    complexityList ts = (ts.map complexity).foldr (· + ·) 0 := by
  induction ts with
  | nil => rfl
  | cons t ts ih => rw [complexityList_cons, List.map_cons, List.foldr_cons, ih]

theorem complexity_eq_of_same {t u : Expr} (h : t.same u = true) :
    t.complexity = u.complexity := by
  induction t generalizing u with
  | tensor dims elements ih =>
    cases u <;> simp only [same, Bool.false_eq_true, Bool.and_eq_true, decide_eq_true_eq] at h
    have helements := map_eq_of_sameList (fun e he u => ih e he) h.2
    simp only [complexity, complexityList_eq_foldr, helements]
  | _ =>
    cases u <;> simp only [same, Bool.false_eq_true, Bool.and_eq_true] at h
    all_goals simp only [complexity] <;> grind

end SymbolicAlgebra.Expr
