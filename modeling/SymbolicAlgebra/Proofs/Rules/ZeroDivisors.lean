import SymbolicAlgebra.Proofs.Number.Zeros
import SymbolicAlgebra.Proofs.Rules.Common

/-!
# Arithmetic and literal zero divisors

The rules of arithmetic add, subtract and multiply literals, which keeps a tree exact. Three of them
divide one literal by another, and none of the three asks whether the divisor is zero. The trees on
which one of them divides by zero are listed by `dividesByZero`: just there the result of an exact
tree is no longer exact, and it is not even finite.
-/

namespace SymbolicAlgebra

namespace Number

variable {a b : Number}

theorem eq_zero_of_isZero (ha : a.isExact = true) (hzero : a.isZero = true) : a = integer 0 := by
  rw [← ofRat_toRat ha, (isZero_iff ha).mp hzero]
  rfl

/-- A quotient of exact numbers by zero is neither exact nor finite. -/
theorem not_isExact_div_of_isZero (ha : a.isExact = true) (hb : b.isExact = true)
    (hzero : b.isZero = true) : (a.div b).isExact = false ∧ (a.div b).isFinite = false := by
  obtain ⟨p, rfl⟩ := isExact_iff.mp ha
  obtain rfl := eq_zero_of_isZero hb hzero
  have hdiv : (ofRat p).div (integer 0) = widened (· / ·) .div (ofRat p) (integer 0) := by
    rw [div, toRat?_ofRat]
    rfl
  obtain ⟨x, hx⟩ : ∃ x, (ofRat p).toFloat? = some x := by
    unfold ofRat
    split_ifs <;> exact ⟨_, rfl⟩
  rw [hdiv]
  refine ⟨isExact_widened _ _ _ _, ?_⟩
  rw [widened, hx]
  exact Binary64.isFinite_div_zero ⟨.positive, rfl⟩ x

theorem isExact_div_iff (ha : a.isExact = true) (hb : b.isExact = true) :
    ((a.div b).isExact = true ↔ b.isZero = false) ∧
      ((a.div b).isFinite = true ↔ b.isZero = false) := by
  cases hzero : b.isZero with
  | true => simp [not_isExact_div_of_isZero ha hb hzero]
  | false =>
    have hne : b.toRat ≠ 0 := by rwa [ne_eq, ← isZero_iff hb, Bool.not_eq_true]
    have hexact := (isExact_div ha hb hne).1
    have hfinite : (a.div b).isFinite = true := Expr.isFinite_of_isExact (t := .num _) hexact
    simp [hexact, hfinite]

end Number

namespace Rules

open SymbolicAlgebra.Expr

variable {t u a : Expr} {c d : Number}

/-- The trees on which the rules of arithmetic divide a literal by zero: `c / (0 * a)`,
`c / (a * 0)` and `(c * a) / 0`, the last unless `c` or `a` is the zero that it cancels. -/
def dividesByZero : Expr → Bool
  | quotient (num _) (product (num d) _) => d.isZero
  | quotient (num _) (product _ (num d)) => d.isZero
  | quotient (product (num c) a) (num d) => d.isZero && !c.isZero && !a.isZero
  | _ => false

/-! ## Divisions of literals -/

theorem common_literalOverRightMultiple (ha : ∀ e, a ≠ num e) :
    common (quotient (num c) (product a (num d))) = quotient (num (c.div d)) a := by
  cases a with
  | num e => exact absurd rfl (ha e)
  | _ => rfl

/-- A divisor that is the same as a factor cancels before the literals are divided. -/
theorem common_multipleOverLiteral :
    common (quotient (product (num c) a) (num d)) =
      if num c == num d then a else if a == num d then num c else product (num (c.div d)) a := by
  have hsplit : commonFamily = commonFamily.take 28 ++ cancelDivisor :: commonFamily.drop 29 := rfl
  have hbefore : Template.first (commonFamily.take 28) (quotient (product (num c) a) (num d)) =
      none := rfl
  have hafter : Template.first (commonFamily.drop 29) (quotient (product (num c) a) (num d)) =
      some (product (num (c.div d)) a) := rfl
  have hcancel : cancelDivisor (quotient (product (num c) a) (num d)) =
      if num c == num d then some a else if a == num d then some (num c) else none := rfl
  unfold Template.first at hbefore hafter
  rw [common, Template.rewrite, Template.first, hsplit, List.findSome?_append, List.findSome?_cons,
    hbefore, hafter, hcancel]
  split_ifs <;> rfl

/-! ## Exact trees -/

theorem operandWise_isExact : OperandWise fun t => t.isExact = true where
  binary_iff _ := Bool.and_eq_true_iff
  power_iff := by simp
  of_int _ := rfl

/-- Where the rules of arithmetic divide no literals, they keep a tree exact. -/
theorem isExact_common_of_not_dividing (ht : t.isExact = true)
    (hnone : ∀ template ∈ dividing, template t = none) : (common t).isExact = true := by
  refine Template.rewrite_of_forall (R := fun _ u => u.isExact = true) ht
    fun template hmem u hu => ?_
  obtain hmem | hmem | hmem | hmem := mem_commonFamily hmem
  · exact operandWise_isExact.of_rearranging hmem hu ht
  · obtain hmem | hmem := mem_computing hmem
    · refine operandWise_isExact.of_merging (fun c d hc hd => ?_) hmem hu ht
      exact ⟨(Number.isExact_add hc hd).1, (Number.isExact_sub hc hd).1,
        (Number.isExact_mul hc hd).1⟩
    · rw [hnone template hmem] at hu
      cases hu
  · exact operandWise_isExact.of_factoring hmem hu ht
  · exact operandWise_isExact.of_comparing hmem hu ht

theorem isExact_binary_div_iff (op : Operator) (hc : c.isExact = true) (hd : d.isExact = true)
    (ha : a.isExact = true) :
    ((binary op (num (c.div d)) a).isExact = true ↔ d.isZero = false) ∧
      ((binary op (num (c.div d)) a).isFinite = true ↔ d.isZero = false) := by
  obtain ⟨hexact, hfinite⟩ := Number.isExact_div_iff hc hd
  simp only [isExact_binary, isExact_num, isFinite, ha, isFinite_of_isExact ha, Bool.and_true]
  exact ⟨hexact, hfinite⟩

/-- Where the zero does not cancel, no factor is zero. -/
theorem dividesByZero_multipleOverLiteral (hc : c.isExact = true) (hd : d.isExact = true)
    (ha : a.isExact = true) (hleft : (num c == num d) = false) (hright : (a == num d) = false) :
    dividesByZero (quotient (product (num c) a) (num d)) = d.isZero := by
  cases hzero : d.isZero with
  | false => simp [dividesByZero, hzero]
  | true =>
    obtain rfl := Number.eq_zero_of_isZero hd hzero
    have hcne : c.isZero = false := by
      by_contra hczero
      rw [Bool.not_eq_false] at hczero
      rw [Number.eq_zero_of_isZero hc hczero] at hleft
      cases hleft
    have hane : a.isZero = false := by
      by_contra hazero
      rw [Bool.not_eq_false] at hazero
      cases a with
      | num e =>
        rw [Number.eq_zero_of_isZero (a := e) ha hazero] at hright
        cases hright
      | _ => cases hazero
    rw [dividesByZero, hzero, hcne, hane]
    rfl

theorem isExact_common_multipleOverLiteral
    (ht : (quotient (product (num c) a) (num d)).isExact = true) :
    let u := quotient (product (num c) a) (num d)
    ((common u).isExact = true ↔ dividesByZero u = false) ∧
      ((common u).isFinite = true ↔ dividesByZero u = false) := by
  intro u
  obtain ⟨⟨hc, ha⟩, hd⟩ : (c.isExact = true ∧ a.isExact = true) ∧ d.isExact = true := by
    simpa using ht
  rw [common_multipleOverLiteral]
  split_ifs with hleft hright
  · obtain rfl : c = d := Number.eq_of_same hc hleft
    have hno : dividesByZero u = false := by simp [u, dividesByZero]
    simp [hno, ha, isFinite_of_isExact ha]
  · obtain rfl : a = num d := eq_of_same ha hright
    have hno : dividesByZero u = false := by simp +contextual [u, dividesByZero, isZero]
    simp [hno, hc, isFinite_of_isExact (t := num c) hc]
  · rw [dividesByZero_multipleOverLiteral hc hd ha (Bool.eq_false_iff.mpr hleft)
      (Bool.eq_false_iff.mpr hright)]
    exact isExact_binary_div_iff .product hc hd ha

/-- The rules of arithmetic make an exact tree inexact just where they divide a literal by zero, and
there the result is not finite either. -/
theorem isExact_common_iff (ht : t.isExact = true) :
    ((common t).isExact = true ↔ dividesByZero t = false) ∧
      ((common t).isFinite = true ↔ dividesByZero t = false) := by
  fun_cases dividesByZero t with
  | case1 c d a =>
    obtain ⟨hc, hd, ha⟩ : c.isExact = true ∧ d.isExact = true ∧ a.isExact = true := by
      simpa using ht
    exact isExact_binary_div_iff .quotient hc hd ha
  | case2 c a d hother =>
    obtain ⟨hc, ha, hd⟩ : c.isExact = true ∧ a.isExact = true ∧ d.isExact = true := by
      simpa using ht
    rw [common_literalOverRightMultiple hother]
    exact isExact_binary_div_iff .quotient hc hd ha
  | case3 c a d => exact isExact_common_multipleOverLiteral ht
  | case4 hleft hright hmultiple =>
    have hexact : (common t).isExact = true := by
      refine isExact_common_of_not_dividing ht fun template hmem => ?_
      simp only [dividing, List.mem_cons, List.not_mem_nil, or_false] at hmem
      obtain rfl | rfl | rfl := hmem
      all_goals simp only [literalOverLeftMultiple, literalOverRightMultiple, multipleOverLiteral]
    simp [hexact, isFinite_of_isExact hexact]

/-- `6 / (x * 0)`, where the literals are divided, and `(0 * x) / 0`, where the zero cancels. -/
theorem isExact_common_iff_cancelled :
    let t := quotient (int 6) (product (var "x") (int 0))
    let u := quotient (product (int 0) (var "x")) (int 0)
    (t.isExact = true ∧ (common t).isExact = false ∧ (common t).isFinite = false) ∧
      u.isExact = true ∧ (common u).isExact = true ∧ (common u).isFinite = true := by
  intro t u
  have ht : dividesByZero t = true := rfl
  have hu : dividesByZero u = false := rfl
  obtain ⟨htexact, htfinite⟩ := isExact_common_iff (t := t) rfl
  obtain ⟨huexact, hufinite⟩ := isExact_common_iff (t := u) rfl
  rw [ht] at htexact htfinite
  exact ⟨⟨rfl, by simpa using htexact, by simpa using htfinite⟩, rfl, huexact.mpr hu,
    hufinite.mpr hu⟩

/-- `(2 * x) / 0` becomes a multiple of infinity, and `1 / (0 * x)` infinity over `x`. -/
theorem not_isExact_common :
    let t := quotient (product (int 2) (var "x")) (int 0)
    let u := quotient (int 1) (product (int 0) (var "x"))
    let infinite := num (.real Binary64.infinity)
    (t.isExact = true ∧ common t = product infinite (var "x") ∧ (common t).isExact = false) ∧
      u.isExact = true ∧ common u = quotient infinite (var "x") ∧ (common u).isExact = false := by
  refine ⟨⟨rfl, ?_, ?_⟩, rfl, ?_, ?_⟩ <;> with_unfolding_all rfl

end Rules

end SymbolicAlgebra
