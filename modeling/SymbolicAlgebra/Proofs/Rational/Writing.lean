import Mathlib.Data.List.DropRight
import SymbolicAlgebra.Proofs.Rational.Reading
import SymbolicAlgebra.Proofs.Rules.Shape

/-!
# Polynomials that are written as trees

The tree of a polynomial has the value of the polynomial. It is read as that polynomial again, since
the lists that are read are canonical and so determined by their values.
-/

namespace SymbolicAlgebra.Interpretation

open SymbolicAlgebra.Expr SymbolicAlgebra.Polynomial

variable (I : Interpretation) {k : ℕ} {c : Number} {p : Polynomial}

theorem monomial_spec (name : String) (hk : k ≤ Number.maxExactExponent) :
    I.DefinedInRange (monomial name k) ∧ I.value (monomial name k) = I.assignment name ^ k := by
  unfold monomial
  split
  · exact ⟨(I.definedInRange_num _).mpr rfl, by simp⟩
  · exact ⟨I.definedInRange_var name, by simp⟩
  · exact ⟨I.definedInRange_power_natCast (I.definedInRange_var name) hk,
      by rw [value_power_int, value_var, zpow_natCast]⟩

theorem term_spec (name : String) (hk : k ≤ Number.maxExactExponent) (hc : c.isExact = true) :
    I.DefinedInRange (term name k c) ∧
      I.value (term name k c) = I.assignment name ^ k * c.toRat := by
  obtain ⟨hrange, hvalue⟩ := I.monomial_spec name hk
  have hnum := (I.definedInRange_num c).mpr hc
  unfold term
  split_ifs with hzero hone
  · subst hzero
    exact ⟨hnum, by simp⟩
  · have hcone : c.toRat = 1 := by
      cases c with
      | integer n =>
        simp only [Number.isOne, decide_eq_true_eq] at hone
        simp [hone]
      | rational q hq => cases hone
      | real y => cases hc
      | complex z => cases hc
    exact ⟨hrange, by rw [hvalue, hcone, mul_one]⟩
  · exact ⟨I.definedInRange_product.mpr ⟨hnum, hrange⟩,
      by rw [value_product, hvalue, value_num, mul_comm]⟩

theorem termsFrom_spec (name : String) (hp : Exact p)
    (hlength : k + p.length ≤ Number.maxExactExponent + 1) :
    (∀ t ∈ termsFrom name k p, I.DefinedInRange t) ∧
      ((termsFrom name k p).map I.value).sum =
        I.assignment name ^ k * valueAt (I.assignment name) p := by
  induction p generalizing k with
  | nil => simp [termsFrom]
  | cons c p ih =>
    rw [exact_cons] at hp
    rw [List.length_cons] at hlength
    obtain ⟨hrange, hsum⟩ := ih (k := k + 1) hp.2 (by omega)
    rw [termsFrom, valueAt_cons]
    split_ifs with hzero
    · refine ⟨hrange, ?_⟩
      rw [hsum, (Number.isZero_iff hp.1).mp hzero, pow_succ]
      ring
    · obtain ⟨hterm, hvalue⟩ := I.term_spec name (k := k) (by omega) hp.1
      refine ⟨List.forall_mem_cons.mpr ⟨hterm, hrange⟩, ?_⟩
      rw [List.map_cons, List.sum_cons, hvalue, hsum, pow_succ]
      ring

theorem folds_sum :
    Chain.Folds I.DefinedInRange (fun t => Multiplicative.ofAdd (I.value t)) Expr.sum :=
  ⟨fun ha hb => I.definedInRange_sum.mpr ⟨ha, hb⟩, fun _ _ => rfl⟩

/-- The tree of a polynomial has the value of the polynomial. -/
theorem toExpr_spec (name : String) (hp : Exact p) (hlength : p.length ≤ maxDegree + 1) :
    I.DefinedInRange (toExpr name p) ∧
      I.value (toExpr name p) = valueAt (I.assignment name) p := by
  have hmax : maxDegree ≤ Number.maxExactExponent := by decide
  obtain ⟨hrange, hsum⟩ := I.termsFrom_spec name (k := 0) hp (by omega)
  rw [pow_zero, one_mul] at hsum
  unfold toExpr
  cases hlinear : Chain.linear Expr.sum (termsFrom name 0 p).reverse with
  | none =>
    rw [List.reverse_eq_nil_iff.mp (Chain.eq_nil_of_linear hlinear)] at hsum
    exact ⟨(I.definedInRange_num _).mpr rfl, by simpa using hsum⟩
  | some t =>
    obtain ⟨ht, hvalue⟩ :=
      I.folds_sum.hung (Chain.hung_linear hlinear) fun x hx => hrange x (List.mem_reverse.mp hx)
    rw [prod_ofAdd_value] at hvalue
    have hvalue := Multiplicative.ofAdd.injective hvalue
    rw [List.map_reverse, List.sum_reverse, hsum] at hvalue
    exact ⟨ht, hvalue⟩

end SymbolicAlgebra.Interpretation

namespace SymbolicAlgebra.Polynomial

open SymbolicAlgebra.Expr

variable {k : ℕ} {p : Polynomial}

theorem isRationalOver_toExpr (name : String) (p : Polynomial) :
    (toExpr name p).isRationalOver (unreservedOr name) = true := by
  have hname : unreservedOr name name = true := by simp [unreservedOr]
  refine toExpr_keeps (P := fun t => t.isRationalOver (unreservedOr name) = true) rfl
    (fun ha hb => Bool.and_eq_true_iff.mpr ⟨ha, hb⟩) fun k _ c => ?_
  unfold term monomial
  split_ifs
  · rfl
  · split <;> simp [isRationalOver, hname]
  · split <;> simp [isRationalOver, hname]

theorem exists_ofExpr?_monomial (name : String) (hk : k ≤ maxDegree) :
    ∃ p, ofExpr? name (monomial name k) = some p ∧ p.length ≤ maxDegree + 1 := by
  suffices h : ∃ p, ofExpr? name (monomial name k) = some p from
    h.imp fun p hp => ⟨hp, length_ofExpr?_le hp⟩
  unfold monomial
  split
  · exact ⟨_, rfl⟩
  · exact ⟨_, by rw [ofExpr?, if_pos rfl]⟩
  · obtain ⟨r, hr, -⟩ := exists_power? (p := [0, 1]) (n := k) (d := 1) (by simp) (by omega)
    refine ⟨trim r, ?_⟩
    simp [ofExpr?, degreeExponent?, hk, hr]

theorem exists_ofExpr?_term (name : String) (c : Number) (hk : k ≤ maxDegree) :
    ∃ p, ofExpr? name (term name k c) = some p := by
  obtain ⟨p, hp, hlength⟩ := exists_ofExpr?_monomial name hk
  unfold term
  split_ifs
  · exact ⟨_, rfl⟩
  · exact ⟨p, hp⟩
  · have hc : (trim [c]).length ≤ 1 := length_trim_le (by simp)
    obtain ⟨r, hr⟩ := exists_multiply? (p := trim [c]) (q := p) (by omega)
    exact ⟨trim r, by simp [ofExpr?, hp, hr]⟩

theorem exists_ofExpr?_toExpr (name : String) (hlength : p.length ≤ maxDegree + 1) :
    ∃ q, ofExpr? name (toExpr name p) = some q := by
  refine toExpr_keeps (P := fun t => ∃ q, ofExpr? name t = some q) ⟨_, rfl⟩ ?_
    fun k hk c => exists_ofExpr?_term name c (by omega)
  rintro a b ⟨q, hq⟩ ⟨r, hr⟩
  exact ⟨trim (zipTerms .add q r), by simp [ofExpr?, hq, hr]⟩

/-- A polynomial that is written as a tree is read again. -/
theorem ofExpr?_toExpr (name : String) (hp : Exact p) (hlength : p.length ≤ maxDegree + 1) :
    ofExpr? name (toExpr name p) = some (trim p) := by
  obtain ⟨q, hq⟩ := exists_ofExpr?_toExpr name hlength
  have hreads : ∀ I : Interpretation, I.ReadsAs name (toExpr name p) q := fun I =>
    (I.toExpr_spec name hp hlength).1.readsAs (isRationalOver_toExpr name p) hq I
  have hvalues : ∀ x, valueAt x q = valueAt x (trim p) := fun x => by
    let I := Interpretation.arithmetic fun _ => x
    calc valueAt x q = I.value (toExpr name p) := (hreads I).value.symm
      _ = valueAt x p := (I.toExpr_spec name hp hlength).2
      _ = valueAt x (trim p) := (trim_spec x hp).2.symm
  rw [hq, (hreads (Interpretation.arithmetic fun _ => 0)).canonical.eq_of_valueAt
    (canonical_trim hp) hvalues]

theorem termsFrom_append (name : String) (k : ℕ) (p q : Polynomial) :
    termsFrom name k (p ++ q) = termsFrom name k p ++ termsFrom name (k + p.length) q := by
  induction p generalizing k with
  | nil => rfl
  | cons c p ih =>
    rw [List.cons_append, termsFrom, termsFrom, ih, List.length_cons, Nat.add_right_comm,
      Nat.add_assoc]
    split_ifs <;> rfl

/-- Trailing zeros leave no trace in the tree. -/
theorem toExpr_trim (name : String) (p : Polynomial) : toExpr name (trim p) = toExpr name p := by
  suffices h : termsFrom name 0 (trim p) = termsFrom name 0 p by rw [toExpr, h, toExpr]
  induction p using List.reverseRecOn with
  | nil => rfl
  | append_singleton p c ih =>
    rw [trim_append_singleton]
    split_ifs with hzero
    · rw [ih, termsFrom_append]
      simp [termsFrom, hzero]
    · rfl

/-- Reading a written list gives it back without its trailing zeros. Writing what was read gives the
same tree again. -/
theorem ofExpr?_toExpr_rdropWhile (name : String) {cs : List Number} (hexact : Exact cs)
    (hlength : cs.length ≤ maxDegree + 1) :
    ofExpr? name (toExpr name cs) = some (cs.rdropWhile Number.isZero) ∧
      toExpr name (cs.rdropWhile Number.isZero) = toExpr name cs :=
  ⟨ofExpr?_toExpr name hexact hlength, toExpr_trim name cs⟩

/-- `1 / 2 * pi ^ 63 + pi`, from a list of the greatest length with a trailing zero. -/
theorem ofExpr?_toExpr_rdropWhile_longest :
    let gap : List Number := List.replicate 61 0
    let cs := [0, 1] ++ gap ++ [.ofRat (1 / 2), 0]
    let t := sum (product (num (.ofRat (1 / 2))) (power (var "pi") (int 63))) (var "pi")
    (Exact cs ∧ cs.length = maxDegree + 1) ∧
      toExpr "pi" cs = t ∧ ofExpr? "pi" t = some ([0, 1] ++ gap ++ [.ofRat (1 / 2)]) ∧
        toExpr "pi" ([0, 1] ++ gap ++ [.ofRat (1 / 2)]) = t := by
  intro gap cs t
  have hexact : Exact cs := by
    have hfirst : Exact [0, 1] := exact_cons.mpr ⟨rfl, exact_cons.mpr ⟨rfl, exact_nil⟩⟩
    have hlast : Exact [.ofRat (1 / 2), 0] :=
      exact_cons.mpr ⟨Number.isExact_ofRat _, exact_cons.mpr ⟨rfl, exact_nil⟩⟩
    exact exact_append.mpr ⟨exact_append.mpr ⟨hfirst, (zeros_spec 0 61).1⟩, hlast⟩
  have hlength : cs.length = maxDegree + 1 := rfl
  have ht : toExpr "pi" cs = t := by with_unfolding_all rfl
  have hcs : cs.rdropWhile Number.isZero = [0, 1] ++ gap ++ [.ofRat (1 / 2)] := by
    with_unfolding_all rfl
  obtain ⟨hread, hwritten⟩ := ofExpr?_toExpr_rdropWhile "pi" hexact hlength.le
  rw [ht, hcs] at hread hwritten
  exact ⟨⟨hexact, hlength⟩, ht, hread, hwritten⟩

end SymbolicAlgebra.Polynomial
