import SymbolicAlgebra.Proofs.Expr.Rewriting
import SymbolicAlgebra.Proofs.Polynomial.Reading
import SymbolicAlgebra.Proofs.Rules.Shape

/-!
# Long division settles

A written polynomial has no quotient. The only quotient that long division writes is that of the
remainder by the divisor: the divisor is a polynomial in one variable only, and the remainder, read
again in that variable, is too short. So after one round no quotient of the tree can be divided.
-/

namespace SymbolicAlgebra.Rules

open SymbolicAlgebra.Expr SymbolicAlgebra.Polynomial

variable {divider : Divider} {t n d q r : Expr} {name : String}

theorem longDivision_eq (divider : Divider) (t : Expr) :
    longDivision divider t = (divisionTemplate divider t).getD t := by
  cases h : divisionTemplate divider t <;> simp [longDivision, Template.rewrite, Template.first, h]

/-- No node of the tree is divided. -/
def Settled (divider : Divider) (t : Expr) : Prop :=
  ∀ u ∈ t.preorder, divisionTemplate divider u = none

namespace Settled

theorem iff_children :
    Settled divider t ↔
      divisionTemplate divider t = none ∧ ∀ c ∈ t.children, Settled divider c := by
  simp only [Settled, preorder_eq t, List.forall_mem_cons, List.forall_mem_flatMap]

theorem num (c : Number) : Settled divider (num c) := by
  simp [Settled, preorder, divisionTemplate]

theorem var (x : String) : Settled divider (var x) := by
  simp [Settled, preorder, divisionTemplate]

theorem binary_iff {op : Operator} (hop : op ≠ .quotient) {a b : Expr} :
    Settled divider (binary op a b) ↔ Settled divider a ∧ Settled divider b := by
  rw [iff_children]
  cases op <;> simp_all [children, divisionTemplate]

theorem longDivision_eq_self (h : Settled divider t) {u : Expr} (hu : u ∈ t.preorder) :
    longDivision divider u = u := by
  rw [longDivision_eq, h u hu, Option.getD_none]

theorem rewrite_eq (h : Settled divider t) : t.rewrite (longDivision divider) = t :=
  rewrite_eq_of_forall fun _ hu => h.longDivision_eq_self hu

theorem monomial (name : String) (k : ℕ) : Settled divider (monomial name k) := by
  unfold Polynomial.monomial
  split
  · exact .num _
  · exact .var name
  · exact (binary_iff (by decide)).mpr ⟨.var name, .num _⟩

theorem toExpr (name : String) (p : Polynomial) : Settled divider (toExpr name p) := by
  refine toExpr_keeps (P := Settled divider) (.num _)
    (fun ha hb => (binary_iff (by decide)).mpr ⟨ha, hb⟩) fun k _ c => ?_
  unfold term
  split_ifs
  · exact .num c
  · exact .monomial name k
  · exact (binary_iff (by decide)).mpr ⟨.num c, .monomial name k⟩

end Settled

/-- What remains cannot be divided by the same divisor in any variable. -/
theorem divisionTemplate_remainder (h : Divider.univariate.divide? n d name = some (q, r)) :
    divisionTemplate .univariate (quotient r d) = none := by
  obtain ⟨p, p', quotient, remainder, hp, hp', hdivide, rfl, rfl⟩ :=
    Divider.univariate_eq_some_iff.mp h
  have hshort : remainder.length < p'.length := (length_divide? hdivide).2
  simp only [divisionTemplate, ite_eq_right_iff]
  intro _
  refine List.findSome?_eq_none_iff.mpr fun x hx => ?_
  obtain rfl : x = name := eq_of_mem_freeVariables hp' hx
  rw [divideIn, Option.map_eq_none_iff, Option.eq_none_iff_forall_ne_some]
  intro answer hanswer
  obtain ⟨s, s', _, _, hs, hs', hagain, -⟩ := Divider.univariate_eq_some_iff.mp hanswer
  obtain rfl : s' = p' := Option.some.inj (hs'.symm.trans hp')
  have hdegree := isSome_divide?_iff.mp (Option.isSome_iff_exists.mpr ⟨_, hagain⟩)
  have hlength : s.length ≤ remainder.length := length_ofExpr?_toExpr hs
  unfold degree at hdegree
  omega

/-- Over settled children long division gives a settled tree. -/
theorem settled_longDivision (h : ∀ c ∈ t.children, Settled .univariate c) :
    Settled .univariate (longDivision .univariate t) := by
  rw [longDivision_eq]
  cases hu : divisionTemplate .univariate t with
  | none => exact Settled.iff_children.mpr ⟨hu, h⟩
  | some u =>
    obtain ⟨n, d, name, q, r, rfl, -, hdivide, rfl⟩ := exists_of_divisionTemplate hu
    have hremainder := divisionTemplate_remainder hdivide
    obtain ⟨-, -, quotient, remainder, -, -, -, rfl, rfl⟩ :=
      Divider.univariate_eq_some_iff.mp hdivide
    have hd : Settled .univariate d := h d (by simp [children])
    rw [Option.getD_some, mixed]
    split_ifs
    · exact .toExpr name quotient
    · refine (Settled.binary_iff (by decide)).mpr ⟨.toExpr name quotient, ?_⟩
      exact Settled.iff_children.mpr ⟨hremainder, by simp [children, hd, Settled.toExpr]⟩

/-- One round of the catalog's long division leaves no node that can be divided, so a second round
changes nothing. -/
theorem applyEverywhere_longDivision_settles (level : SortLevel) (t : Expr) :
    ∃ rule, (Catalog.standard level).get? Catalog.longDivisionName = some rule ∧
      rule.apply = longDivision .univariate ∧
      (∀ u ∈ (rule.applyEverywhere t).preorder, rule.apply u = u) ∧
      rule.applyEverywhere (rule.applyEverywhere t) = rule.applyEverywhere t := by
  have hsettled : Settled .univariate (t.rewrite (longDivision .univariate)) :=
    rewrite_induction (fun _ => settled_longDivision) t
  exact ⟨_, rfl, rfl, fun u => hsettled.longDivision_eq_self, hsettled.rewrite_eq⟩

end SymbolicAlgebra.Rules
