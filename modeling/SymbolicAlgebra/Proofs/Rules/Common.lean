import SymbolicAlgebra.Proofs.Expr.Arithmetic
import SymbolicAlgebra.Rules.Arithmetic

/-!
# The rules of arithmetic in groups

The templates of arithmetic by what they do: some only move subtrees, some compute with literals,
some take out or cancel a factor, the others compare subtrees. A property that a tree has just if its
operands have it is kept by all of them, as far as the computed literals have it. To be arithmetic is
such a property.
-/

namespace SymbolicAlgebra

namespace Rules

/-- Templates that only move subtrees. -/
def rearranging : List Template :=
  [literalBehindFunctions, quotientByQuotient, quotientOfQuotient, timesQuotient, quotientTimes,
    functionsBeforeLeftRest, functionsBeforeRightRest, literalLeadsProduct, literalTrailsSum]

/-- Templates that compute with two literals. -/
def computing : List Template :=
  [functionMultipleTimesLiteral, literalTimesFunctionMultiple, functionMultiples,
    variableMultipleTimesLiteral, literalTimesVariableMultiple, variableSumPlusLiteral,
    literalPlusVariableSum, literalTimesMultiple, literalOverLeftMultiple,
    literalOverRightMultiple, multipleOverLiteral, likeTerms]

/-- Templates that take out or cancel a factor. -/
def factoring : List Template :=
  [factorTerms sumOrder, factorTimesProduct, productTimesFactor, cancelDivisor, cancelSharedFactor]

/-- Templates that match a subtree against another one or against minus one. -/
def comparing : List Template :=
  [termPlusQuotient, quotientPlusTerm, doubled, equalDifference, equalFactors, equalQuotient,
    oppositeDifferences, swappedSums, negatedPlusTerm, termPlusNegated, conjugates]

theorem mem_commonFamily {template : Template} (h : template ∈ commonFamily) :
    template ∈ rearranging ∨ template ∈ computing ∨ template ∈ factoring ∨
      template ∈ comparing := by
  simp only [commonFamily, List.mem_cons, List.not_mem_nil, or_false] at h
  obtain rfl | rfl | rfl | rfl | rfl | rfl | rfl | rfl | rfl | rfl | rfl | rfl | rfl | rfl | rfl |
    rfl | rfl | rfl | rfl | rfl | rfl | rfl | rfl | rfl | rfl | rfl | rfl | rfl | rfl | rfl | rfl |
    rfl | rfl | rfl | rfl | rfl | rfl := h <;>
    simp [rearranging, computing, factoring, comparing]

/-- Computing templates that add, subtract or multiply. -/
def merging : List Template :=
  [functionMultipleTimesLiteral, literalTimesFunctionMultiple, functionMultiples,
    variableMultipleTimesLiteral, literalTimesVariableMultiple, variableSumPlusLiteral,
    literalPlusVariableSum, literalTimesMultiple, likeTerms]

/-- Computing templates that divide. -/
def dividing : List Template :=
  [literalOverLeftMultiple, literalOverRightMultiple, multipleOverLiteral]

theorem mem_computing {template : Template} (h : template ∈ computing) :
    template ∈ merging ∨ template ∈ dividing := by
  simp only [computing, merging, dividing, List.mem_cons, List.not_mem_nil, or_false] at h ⊢
  grind

open SymbolicAlgebra.Expr

/-- A property that a tree over operators has just if its operands have it. Of a power with an
integer exponent the base alone decides. -/
structure OperandWise (P : Expr → Prop) : Prop where
  binary_iff : ∀ {op a b}, op ≠ .power → (P (binary op a b) ↔ P a ∧ P b)
  power_iff : ∀ {a} {n : Int}, P (power a (int n)) ↔ P a
  of_int : ∀ n : Int, P (int n)

namespace OperandWise

variable {P : Expr → Prop} {t u p q a b : Expr} {template : Template}

section Operands

variable (h : OperandWise P)

include h

theorem sum_iff : P (sum a b) ↔ P a ∧ P b := h.binary_iff (by decide)

theorem difference_iff : P (difference a b) ↔ P a ∧ P b := h.binary_iff (by decide)

theorem product_iff : P (product a b) ↔ P a ∧ P b := h.binary_iff (by decide)

theorem quotient_iff : P (quotient a b) ↔ P a ∧ P b := h.binary_iff (by decide)

end Operands

section Factors

variable (h : OperandWise P)

include h

theorem of_cofactor? {r : Expr} (hr : cofactor? t p = some r) (ht : P t) : P r := by
  unfold cofactor? at hr
  split at hr
  · have := h.product_iff.mp ht
    grind
  · cases hr

theorem of_map_cofactor? {f : Expr → Expr} (hu : (cofactor? q p).map f = some u) (hq : P q)
    (hf : ∀ r, P r → P (f r)) : P u := by
  obtain ⟨r, hr, rfl⟩ := Option.map_eq_some_iff.mp hu
  exact hf r (h.of_cofactor? hr hq)

theorem of_sharedFactor? {order : FactorOrder} {shared : SharedFactor}
    (hshared : sharedFactor? order p q = some shared) (hp : P p) (hq : P q) :
    P shared.factor ∧ P shared.left ∧ P shared.right := by
  unfold sharedFactor? at hshared
  split at hshared
  · obtain ⟨⟨i, j⟩, -, rfl⟩ := Option.map_eq_some_iff.mp hshared
    rw [h.product_iff] at hp hq
    cases i <;> cases j <;> simp [Place.factor, Place.cofactor, hp, hq]
  · cases hshared

theorem of_factorProducts {order : FactorOrder} {op : Operator} (hop : op ≠ .power)
    (hu : factorProducts order (binary op) p q = some u) (hp : P p) (hq : P q) : P u := by
  obtain ⟨shared, hshared, rfl⟩ := Option.map_eq_some_iff.mp hu
  exact h.product_iff.mpr <|
    (h.of_sharedFactor? hshared hp hq).imp_right (h.binary_iff hop).mpr

theorem of_factorLeftTerm {op : Operator} (hop : op ≠ .power)
    (hu : factorLeftTerm (binary op) p q = some u) (hp : P p) (hq : P q) : P u :=
  h.of_map_cofactor? hu hq fun _ hr =>
    h.product_iff.mpr ⟨hp, (h.binary_iff hop).mpr ⟨h.of_int 1, hr⟩⟩

theorem of_factorRightTerm {op : Operator} (hop : op ≠ .power)
    (hu : factorRightTerm (binary op) p q = some u) (hp : P p) (hq : P q) : P u :=
  h.of_map_cofactor? hu hp fun _ hr =>
    h.product_iff.mpr ⟨hq, (h.binary_iff hop).mpr ⟨hr, h.of_int 1⟩⟩

theorem of_factorLeftDividend (hu : factorLeftDividend p q = some u) (hp : P p) (hq : P q) :
    P u := by
  unfold factorLeftDividend at hu
  split at hu
  · obtain ⟨ha, hb⟩ := h.quotient_iff.mp hp
    exact h.of_map_cofactor? hu hq fun _ hr =>
      h.product_iff.mpr ⟨ha, h.sum_iff.mpr ⟨h.quotient_iff.mpr ⟨h.of_int 1, hb⟩, hr⟩⟩
  · cases hu

theorem of_factorRightDividend (hu : factorRightDividend p q = some u) (hp : P p) (hq : P q) :
    P u := by
  unfold factorRightDividend at hu
  split at hu
  · obtain ⟨ha, hc⟩ := h.quotient_iff.mp hq
    exact h.of_map_cofactor? hu hp fun _ hr =>
      h.product_iff.mpr ⟨ha, h.sum_iff.mpr ⟨hr, h.quotient_iff.mpr ⟨h.of_int 1, hc⟩⟩⟩
  · cases hu

theorem of_factorTerms {order : FactorOrder} (hu : factorTerms order t = some u) (ht : P t) :
    P u := by
  unfold factorTerms at hu
  split at hu
  case h_1 p q =>
    obtain ⟨hp, hq⟩ := h.sum_iff.mp ht
    simp only [factorSum, Option.orElse_eq_orElse, Option.orElse_eq_or, Option.or_eq_some_iff] at hu
    obtain hu | ⟨-, hu | ⟨-, hu | ⟨-, hu | ⟨-, hu⟩⟩⟩⟩ := hu
    · exact h.of_factorProducts (by decide) hu hp hq
    · exact h.of_factorLeftTerm (by decide) hu hp hq
    · exact h.of_factorRightTerm (by decide) hu hp hq
    · exact h.of_factorLeftDividend hu hp hq
    · exact h.of_factorRightDividend hu hp hq
  case h_2 p q =>
    obtain ⟨hp, hq⟩ := h.difference_iff.mp ht
    simp only [factorDifference, Option.orElse_eq_orElse, Option.orElse_eq_or,
      Option.or_eq_some_iff] at hu
    obtain hu | ⟨-, hu | ⟨-, hu⟩⟩ := hu
    · exact h.of_factorProducts (by decide) hu hp hq
    · exact h.of_factorLeftTerm (by decide) hu hp hq
    · exact h.of_factorRightTerm (by decide) hu hp hq
  case h_3 => cases hu

end Factors

section Templates

variable (h : OperandWise P)

include h

theorem of_rearranging (hmem : template ∈ rearranging) (hu : template t = some u) (ht : P t) :
    P u := by
  have hsum : ∀ a b, P (sum a b) ↔ P a ∧ P b := fun _ _ => h.sum_iff
  have hproduct : ∀ a b, P (product a b) ↔ P a ∧ P b := fun _ _ => h.product_iff
  have hquotient : ∀ a b, P (quotient a b) ↔ P a ∧ P b := fun _ _ => h.quotient_iff
  simp only [rearranging, List.mem_cons, List.not_mem_nil, or_false] at hmem
  obtain rfl | rfl | rfl | rfl | rfl | rfl | rfl | rfl | rfl := hmem
  all_goals
    simp only [literalBehindFunctions, quotientByQuotient, quotientOfQuotient, timesQuotient,
      quotientTimes, functionsBeforeLeftRest, functionsBeforeRightRest, literalLeadsProduct,
      literalTrailsSum] at hu
    split at hu
    · grind
    · cases hu

theorem of_merging
    (hop : ∀ c d, P (num c) → P (num d) →
      P (num (c.add d)) ∧ P (num (c.sub d)) ∧ P (num (c.mul d)))
    (hmem : template ∈ merging) (hu : template t = some u) (ht : P t) : P u := by
  simp only [merging, List.mem_cons, List.not_mem_nil, or_false] at hmem
  obtain rfl | rfl | rfl | rfl | rfl | rfl | rfl | rfl | rfl := hmem
  all_goals
    simp only [functionMultipleTimesLiteral, literalTimesFunctionMultiple, functionMultiples,
      variableMultipleTimesLiteral, literalTimesVariableMultiple, variableSumPlusLiteral,
      literalPlusVariableSum, literalTimesMultiple, likeTerms] at hu
    split at hu <;> (try split_ifs at hu) <;> cases hu <;>
      simp_all [h.sum_iff, h.difference_iff, h.product_iff]

theorem of_dividing (hnum : ∀ c, P (num c)) (hmem : template ∈ dividing)
    (hu : template t = some u) (ht : P t) : P u := by
  have hproduct : ∀ a b, P (product a b) ↔ P a ∧ P b := fun _ _ => h.product_iff
  have hquotient : ∀ a b, P (quotient a b) ↔ P a ∧ P b := fun _ _ => h.quotient_iff
  simp only [dividing, List.mem_cons, List.not_mem_nil, or_false] at hmem
  obtain rfl | rfl | rfl := hmem
  all_goals
    simp only [literalOverLeftMultiple, literalOverRightMultiple, multipleOverLiteral] at hu
    split at hu <;> grind

theorem of_factoring (hmem : template ∈ factoring) (hu : template t = some u) (ht : P t) :
    P u := by
  simp only [factoring, List.mem_cons, List.not_mem_nil, or_false] at hmem
  obtain rfl | rfl | rfl | rfl | rfl := hmem
  case inl => exact h.of_factorTerms hu ht
  all_goals
    simp only [factorTimesProduct, productTimesFactor, cancelDivisor, cancelSharedFactor] at hu
    split at hu
    case h_2 => cases hu
    obtain ⟨hp, hq⟩ := (h.binary_iff (by decide)).mp ht
  · exact h.of_map_cofactor? hu hq fun _ hr => h.product_iff.mpr ⟨h.power_iff.mpr hp, hr⟩
  · exact h.of_map_cofactor? hu hp fun _ hr => h.product_iff.mpr ⟨h.power_iff.mpr hq, hr⟩
  · exact h.of_cofactor? hu hp
  · obtain ⟨shared, hshared, rfl⟩ := Option.map_eq_some_iff.mp hu
    exact h.quotient_iff.mpr (h.of_sharedFactor? hshared hp hq).2

theorem of_comparing (hmem : template ∈ comparing) (hu : template t = some u) (ht : P t) :
    P u := by
  have hsum : ∀ a b, P (sum a b) ↔ P a ∧ P b := fun _ _ => h.sum_iff
  have hdifference : ∀ a b, P (difference a b) ↔ P a ∧ P b := fun _ _ => h.difference_iff
  have hproduct : ∀ a b, P (product a b) ↔ P a ∧ P b := fun _ _ => h.product_iff
  have hquotient : ∀ a b, P (quotient a b) ↔ P a ∧ P b := fun _ _ => h.quotient_iff
  have hsquare : ∀ a, P (power a (int 2)) ↔ P a := fun _ => h.power_iff
  have hint := h.of_int
  simp only [comparing, List.mem_cons, List.not_mem_nil, or_false] at hmem
  obtain rfl | rfl | rfl | rfl | rfl | rfl | rfl | rfl | rfl | rfl | rfl := hmem
  all_goals
    simp only [termPlusQuotient, quotientPlusTerm, doubled, equalDifference, equalFactors,
      equalQuotient, oppositeDifferences, swappedSums, negatedPlusTerm, termPlusNegated,
      conjugates, squareDifference] at hu
    split at hu <;> grind

/-- For a property that all literals have. -/
theorem common (hnum : ∀ c, P (num c)) (ht : P t) : P (common t) := by
  refine Template.rewrite_of_forall (R := fun _ u => P u) ht fun template hmem u hu => ?_
  obtain hmem | hmem | hmem | hmem := mem_commonFamily hmem
  · exact h.of_rearranging hmem hu ht
  · obtain hmem | hmem := mem_computing hmem
    · exact h.of_merging (fun _ _ _ _ => ⟨hnum _, hnum _, hnum _⟩) hmem hu ht
    · exact h.of_dividing hnum hmem hu ht
  · exact h.of_factoring hmem hu ht
  · exact h.of_comparing hmem hu ht

end Templates

end OperandWise

theorem isArithmetic_rewrite {family : List Template} {t : Expr}
    (h : ∀ template ∈ family, ∀ u, template t = some u → u.isArithmetic = true)
    (ht : t.isArithmetic = true) : (Template.rewrite family t).isArithmetic = true :=
  Template.rewrite_of_forall (R := fun _ u => u.isArithmetic = true) ht h

theorem operandWise_isArithmetic : OperandWise fun t => t.isArithmetic = true where
  binary_iff {op a b} hop := by
    cases op with
    | power => exact absurd rfl hop
    | _ => exact Bool.and_eq_true_iff
  power_iff := by simp [Number.isInteger]
  of_int _ := rfl

theorem isArithmetic_common {t : Expr} (ht : t.isArithmetic = true) :
    (common t).isArithmetic = true :=
  operandWise_isArithmetic.common (fun _ => rfl) ht

end Rules

end SymbolicAlgebra
