import SymbolicAlgebra.Proofs.Rational.Folding
import SymbolicAlgebra.Proofs.Rules.Shape

/-!
# Zeroth powers

Over `lenient` a zeroth power is one even if its base has no value. Folding leaves no zeroth power
in an arithmetic tree with exact literals, so there the lenient reading is the strict one.
-/

namespace SymbolicAlgebra

open SymbolicAlgebra.Expr

namespace Expr

/-- Whether no operator is a power with the literal exponent zero. -/
def zerothPowerFree : Expr → Bool
  | binary op a b => !(op = .power && b.isInt 0) && zerothPowerFree a && zerothPowerFree b
  | _ => true

@[simp, grind =] theorem zerothPowerFree_num (c : Number) : (num c).zerothPowerFree = true := rfl

@[simp, grind =] theorem zerothPowerFree_sum (a b : Expr) :
    (sum a b).zerothPowerFree = (a.zerothPowerFree && b.zerothPowerFree) := rfl

@[simp, grind =] theorem zerothPowerFree_difference (a b : Expr) :
    (difference a b).zerothPowerFree = (a.zerothPowerFree && b.zerothPowerFree) := rfl

@[simp, grind =] theorem zerothPowerFree_product (a b : Expr) :
    (product a b).zerothPowerFree = (a.zerothPowerFree && b.zerothPowerFree) := rfl

end Expr

namespace Folding

variable {t u a b : Expr} {op : Operator}

theorem zerothPowerFree_of_template {template : Template} (hmem : template ∈ family)
    (h : template (binary op a b) = some u) (ha : a.zerothPowerFree = true)
    (hb : b.zerothPowerFree = true) : u.zerothPowerFree = true := by
  simp only [family, List.mem_cons, List.not_mem_nil, or_false] at hmem
  obtain rfl | rfl | rfl | rfl | rfl | rfl | rfl | rfl | rfl | rfl | rfl | rfl | rfl := hmem
  case inl =>
    unfold literals at h
    split at h
    · obtain ⟨value, -, rfl⟩ := Option.map_eq_some_iff.mp h
      rfl
    · cases h
  all_goals
    simp only [sumWithZero, sumWithNegated, negatedInSum, differenceWithZero,
      differenceWithNegated, productWithOne, productWithZero, quotientByOne, quotientOfZero,
      powerToOne, powerToZero, powerOfOne] at h
    split at h <;> grind [negate]

theorem zerothPowerFree_foldNode (ha : a.zerothPowerFree = true) (hb : b.zerothPowerFree = true)
    (hfinite : a.isFinite = true) : (foldNode (binary op a b)).zerothPowerFree = true := by
  cases hfirst : Template.first family (binary op a b) with
  | some u =>
    obtain ⟨template, hmem, hu⟩ := List.exists_of_findSome?_eq_some hfirst
    rw [foldNode, Template.rewrite, hfirst]
    exact zerothPowerFree_of_template hmem hu ha hb
  | none =>
    rw [foldNode, Template.rewrite, hfirst, Option.getD_none, zerothPowerFree, ha, hb]
    have hnone := List.findSome?_eq_none_iff.mp hfirst powerToZero (by simp [family])
    cases op <;> simp_all [powerToZero]

/-- A folded tree has no zeroth power, if every fold leaves exact literals. -/
theorem zerothPowerFree_fold (harithmetic : t.isArithmetic = true)
    (hsites : ∀ x ∈ t.sites foldNode, (foldNode x).isExact = true) :
    (fold t).zerothPowerFree = true := by
  induction t with
  | num c => rfl
  | var x => rfl
  | binary op a b iha ihb =>
    obtain ⟨ha, hb⟩ := isArithmetic_binary harithmetic
    simp only [sites, List.mem_append] at hsites
    have hasites := fun x hx => hsites x (Or.inl (Or.inl hx))
    exact zerothPowerFree_foldNode (iha ha hasites)
      (ihb hb fun x hx => hsites x (Or.inl (Or.inr hx)))
      (isFinite_of_isExact (isExact_rewrite hasites))
  | _ => cases harithmetic

end Folding

namespace Interpretation

variable {σ : String → ℚ} {t : Expr}

/-- Only operators have values, and a zeroth power has one even if its base has none. -/
def lenient (σ : String → ℚ) : Interpretation := { arithmetic σ with zerothPower := True }

theorem value_lenient (h : t.isArithmetic = true) :
    (lenient σ).value t = (arithmetic σ).value t := by
  induction t with
  | num c => rfl
  | var x => rfl
  | binary op a b iha ihb =>
    obtain ⟨ha, hb⟩ := isArithmetic_binary h
    rw [value_binary, iha ha, ihb hb, value_binary]
  | _ => cases h

theorem defined_lenient (h : t.isArithmetic = true) (hdef : (arithmetic σ).Defined t) :
    (lenient σ).Defined t := by
  induction t with
  | num c => exact hdef
  | var x => trivial
  | binary op a b iha ihb =>
    obtain ⟨ha, hb⟩ := isArithmetic_binary h
    have hvaluea := value_lenient (σ := σ) ha
    have hvalueb := value_lenient (σ := σ) hb
    cases op with
    | power =>
      obtain ⟨hdefb, hden, ⟨hdefa, hne⟩ | ⟨hfalse, -⟩⟩ := hdef
      · rw [defined_power, hvaluea, hvalueb]
        exact ⟨ihb hb hdefb, hden, Or.inl ⟨iha ha hdefa, hne⟩⟩
      · exact hfalse.elim
    | quotient =>
      obtain ⟨hdefa, hdefb, hne⟩ := hdef
      exact ⟨iha ha hdefa, ihb hb hdefb, hvalueb ▸ hne⟩
    | _ => exact ⟨iha ha hdef.1, ihb hb hdef.2⟩
  | _ => cases h

/-- Without zeroth powers the lenient reading is the strict one. -/
theorem defined_of_lenient (h : t.isArithmetic = true) (hfree : t.zerothPowerFree = true)
    (hdef : (lenient σ).Defined t) : (arithmetic σ).Defined t := by
  induction t with
  | num c => exact hdef
  | var x => trivial
  | binary op a b iha ihb =>
    obtain ⟨ha, hb⟩ := isArithmetic_binary h
    have hvaluea := value_lenient (σ := σ) ha
    have hvalueb := value_lenient (σ := σ) hb
    simp only [zerothPowerFree, Bool.and_eq_true] at hfree
    obtain ⟨⟨hzeroth, hfreea⟩, hfreeb⟩ := hfree
    cases op with
    | power =>
      obtain ⟨n, rfl⟩ := isIntegerLiteral_iff.mp (Bool.and_eq_true_iff.mp h).2
      have hn : n ≠ 0 := by
        rintro rfl
        simp [isInt] at hzeroth
      rw [defined_power_int _ _ hn, hvaluea] at hdef
      rw [defined_power_int _ _ hn]
      exact ⟨iha ha hfreea hdef.1, hdef.2⟩
    | quotient =>
      obtain ⟨hdefa, hdefb, hne⟩ := hdef
      exact ⟨iha ha hfreea hdefa, ihb hb hfreeb hdefb, hvalueb ▸ hne⟩
    | _ => exact ⟨iha ha hfreea hdef.1, ihb hb hfreeb hdef.2⟩
  | _ => cases h

end Interpretation

end SymbolicAlgebra
