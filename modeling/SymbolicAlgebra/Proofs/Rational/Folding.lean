import Mathlib.Tactic.NormNum
import SymbolicAlgebra.Folding
import SymbolicAlgebra.Proofs.Expr.Arithmetic
import SymbolicAlgebra.Proofs.Rational.Arithmetic
import SymbolicAlgebra.Proofs.Rational.Range

/-!
# Numeric folding and values

Folding a node keeps its value, if the fold writes no inexact literal and raises none to the least
word. A tree that is defined in range is folded so, and stays in range, so there folding keeps
values throughout.
-/

namespace SymbolicAlgebra.Interpretation

open SymbolicAlgebra.Expr SymbolicAlgebra.Folding

variable (I : Interpretation) {t u a b : Expr}

theorem value_of_isZero (hdef : I.Defined t) (h : t.isZero = true) : I.value t = 0 := by
  unfold isZero at h
  split at h
  · exact (Number.isZero_iff hdef).mp h
  · cases h

theorem eq_of_literalValue? {op : Operator} {x y v : Number} (h : literalValue? op x y = some v) :
    v = op.value x y := by
  cases op <;> simp only [literalValue?] at h
  case quotient =>
    split_ifs at h
    exact (Option.some.inj h).symm
  case power =>
    split_ifs at h
    exact (Option.some.inj h).symm
  all_goals exact (Option.some.inj h).symm

theorem literals_refines (h : literals t = some u) (hexact : u.isExact = true)
    (hword : ∀ c d, t = power (num c) (num d) → d.isLeastWord = false) : I.Refines t u := by
  unfold literals at h
  split at h
  case h_1 op x y =>
    obtain ⟨v, hv, rfl⟩ := Option.map_eq_some_iff.mp h
    obtain rfl := eq_of_literalValue? (Option.filter_eq_some_iff.mp hv).1
    obtain ⟨hx, hy⟩ := Number.operands_exact hexact
    obtain ⟨-, hvalue⟩ :=
      I.defined_binary_of_isExact (a := num x) (b := num y) ⟨hx, rfl⟩ ⟨hy, rfl⟩ hexact
        fun hop => hword x y (by rw [hop])
    exact fun _ => ⟨hexact, hvalue.symm⟩
  case h_2 => cases h

/-- The templates of sums and differences. -/
theorem neutralSummands_refines {template : Template}
    (hmem : template ∈ [sumWithZero, sumWithNegated, negatedInSum, differenceWithZero,
      differenceWithNegated])
    (h : template t = some u) : I.Refines t u := by
  simp only [List.mem_cons, List.not_mem_nil, or_false] at hmem
  obtain rfl | rfl | rfl | rfl | rfl := hmem
  all_goals
    simp only [sumWithZero, sumWithNegated, negatedInSum, differenceWithZero,
      differenceWithNegated] at h
    split at h
    · grind [Refines, value_of_isZero, isInt_iff, negate]
    · cases h

/-- The templates of products and quotients. -/
theorem neutralFactors_refines {template : Template}
    (hmem : template ∈ [productWithOne, productWithZero, quotientByOne, quotientOfZero])
    (h : template t = some u) : I.Refines t u := by
  simp only [List.mem_cons, List.not_mem_nil, or_false] at hmem
  obtain rfl | rfl | rfl | rfl := hmem
  all_goals
    simp only [productWithOne, productWithZero, quotientByOne, quotientOfZero] at h
    split at h
    · grind [Refines, value_of_isZero, isInt_iff]
    · cases h

theorem neutralPowers_refines {template : Template}
    (hmem : template ∈ [powerToOne, powerToZero, powerOfOne])
    (h : template t = some u) : I.Refines t u := by
  simp only [List.mem_cons, List.not_mem_nil, or_false] at hmem
  obtain rfl | rfl | rfl := hmem
  all_goals
    simp only [powerToOne, powerToZero, powerOfOne] at h
    split at h
    case h_2 => cases h
    split_ifs at h with hif
    cases h
  · rw [isInt_iff.mp hif]
    intro hdef
    exact ⟨((I.defined_power_int u (by decide)).mp hdef).1, by simp⟩
  · rw [isInt_iff.mp (Bool.and_eq_true_iff.mp hif).1]
    exact fun _ => ⟨rfl, by simp⟩
  · rw [isInt_iff.mp (Bool.and_eq_true_iff.mp hif).1]
    exact fun _ => ⟨rfl, by simp⟩

/-- Folding a node keeps its value, if it writes no inexact literal and raises none to the least
word. -/
theorem foldNode_refines (t : Expr) (hexact : (foldNode t).isExact = true)
    (hword : ∀ c d, t = power (num c) (num d) → d.isLeastWord = false) :
    I.Refines t (foldNode t) := by
  refine Template.rewrite_of_forall (R := fun t u => u.isExact = true → I.Refines t u)
    (fun _ h => ⟨h, rfl⟩) (fun template hmem u hu hexact => ?_) hexact
  have hgroups : template = literals ∨
      template ∈ [sumWithZero, sumWithNegated, negatedInSum, differenceWithZero,
        differenceWithNegated] ∨
      template ∈ [productWithOne, productWithZero, quotientByOne, quotientOfZero] ∨
      template ∈ [powerToOne, powerToZero, powerOfOne] := by
    simpa [family, or_assoc] using hmem
  obtain rfl | hmem | hmem | hmem := hgroups
  · exact I.literals_refines hu hexact hword
  · exact I.neutralSummands_refines hmem hu
  · exact I.neutralFactors_refines hmem hu
  · exact I.neutralPowers_refines hmem hu

/-! ## Folding in range -/

theorem literals_inRange (h : I.DefinedInRange t) (hu : literals t = some u) :
    I.DefinedInRange u := by
  unfold literals at hu
  split at hu
  case h_1 op x y =>
    obtain ⟨v, hv, rfl⟩ := Option.map_eq_some_iff.mp hu
    obtain rfl := eq_of_literalValue? (Option.filter_eq_some_iff.mp hv).1
    obtain ⟨hx, hy⟩ := Bool.and_eq_true_iff.mp h.isExact
    exact (I.definedInRange_num _).mpr
      (I.isExact_value_of_definedInRange h ⟨hx, rfl⟩ ⟨hy, rfl⟩)
  case h_2 => cases hu

/-- The other templates build no powers and divide by nothing new. -/
theorem neutral_inRange {template : Template} (hmem : template ∈ family.tail)
    (h : I.DefinedInRange t) (hu : template t = some u) : I.DefinedInRange u := by
  have hint : ∀ n : ℤ, I.DefinedInRange (int n) := fun _ => (I.definedInRange_num _).mpr rfl
  simp only [family, List.tail_cons, List.mem_cons, List.not_mem_nil, or_false] at hmem
  obtain rfl | rfl | rfl | rfl | rfl | rfl | rfl | rfl | rfl | rfl | rfl | rfl := hmem
  all_goals
    simp only [sumWithZero, sumWithNegated, negatedInSum, differenceWithZero,
      differenceWithNegated, productWithOne, productWithZero, quotientByOne, quotientOfZero,
      powerToOne, powerToZero, powerOfOne, negate] at hu
    split at hu <;> grind

theorem foldNode_inRange (h : I.DefinedInRange t) :
    I.DefinedInRange (foldNode t) ∧ I.value (foldNode t) = I.value t := by
  have hrange : I.DefinedInRange (foldNode t) := by
    refine Template.rewrite_of_forall (R := fun _ u => I.DefinedInRange u) h
      fun template hmem u hu => ?_
    obtain rfl | hmem := List.mem_cons.mp hmem
    · exact I.literals_inRange h hu
    · exact I.neutral_inRange hmem h hu
  have hword : ∀ c d, t = power (num c) (num d) → d.isLeastWord = false := fun c d ht =>
    Number.isLeastWord_eq_false ((I.definedInRange_iff.mp h).1.2 (num c) (num d) ht)
  exact ⟨hrange, (I.foldNode_refines t hrange.isExact hword h.defined).2⟩

/-- Where a tree has a value with all its exponents in the range of exact powers, the folded tree
has the same value, with its exponents in that range. -/
theorem fold_keeps_value (h : I.DefinedInRange t) :
    I.DefinedInRange (fold t) ∧ I.value (fold t) = I.value t :=
  I.rewriteRelation_inRange.rewrite (fun _ => I.foldNode_inRange) t h

/-- The exponent comes up by folding, at the end of the range. -/
theorem fold_keeps_value_at_range :
    let I : Interpretation :=
      { arithmetic fun x => if x = "x" then 2 else -3 with
        apply _ q := if q = 2 then some (1 / 3) else none }
    let t := quotient
      (sum (product (int 0) (sin (var "x")))
        (product (int (-1)) (power (var "x") (sum (int 4095) (int 1)))))
      (power (int 1) (var "y"))
    I.DefinedInRange t ∧ fold t = product (int (-1)) (power (var "x") (int 4096)) ∧
      I.DefinedInRange (fold t) ∧ I.value (fold t) = I.value t := by
  intro I t
  have hsin : I.DefinedInRange (sin (var "x")) := by
    rw [definedInRange_iff]
    simp [I, children, Defined, value, arithmetic]
  have hpower : I.DefinedInRange (power (var "x") (sum (int 4095) (int 1))) := by
    rw [definedInRange_power]
    exact ⟨by simp, by simp, 4096, by norm_num, le_rfl, .inr (by norm_num)⟩
  have hone : I.DefinedInRange (power (int 1) (var "y")) := by
    rw [definedInRange_power]
    exact ⟨by simp, by simp, -3, by simp [I, arithmetic], by decide, .inl (by simp)⟩
  have ht : I.DefinedInRange t := by
    simp only [t, definedInRange_quotient, definedInRange_sum, definedInRange_product]
    refine ⟨⟨⟨by simp, hsin⟩, by simp, hpower⟩, hone, ?_⟩
    simp
  exact ⟨ht, by with_unfolding_all rfl, I.fold_keeps_value ht⟩

end SymbolicAlgebra.Interpretation
