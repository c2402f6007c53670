import SymbolicAlgebra.Proofs.Rational.Folding
import SymbolicAlgebra.Proofs.Rational.Writing
import SymbolicAlgebra.Rules.LongDivision

/-!
# Long division keeps values

Trees that are read as polynomials are divided as polynomials, so quotient and remainder stand for
the value of the dividend at every point, and the remainder is read as a shorter list than the
divisor. The tree that long division writes has the value of the divided quotient.
-/

namespace SymbolicAlgebra.Interpretation

open SymbolicAlgebra.Expr SymbolicAlgebra.Polynomial SymbolicAlgebra.Rules

variable {I : Interpretation} {t u n d q r : Expr} {p p' : Polynomial} {name : String}

/-! ## Dividing in one variable -/

/-- It divides where both trees have a list, that of the divisor has a variable, and its degree is
at most that of the dividend. -/
theorem isSome_univariate_iff :
    (Divider.univariate.divide? n d name).isSome = true ↔
      ∃ p p', ofExpr? name n = some p ∧ ofExpr? name d = some p' ∧
        1 ≤ degree p' ∧ degree p' ≤ degree p := by
  rw [Option.isSome_iff_exists, Prod.exists]
  simp only [Divider.univariate_eq_some_iff]
  constructor
  · rintro ⟨q, r, p, p', quotient, remainder, hp, hp', hdivision, -, -⟩
    exact ⟨p, p', hp, hp', isSome_divide?_iff.mp (Option.isSome_of_eq_some hdivision)⟩
  · rintro ⟨p, p', hp, hp', hdegree⟩
    obtain ⟨⟨quotient, remainder⟩, hdivision⟩ :=
      Option.isSome_iff_exists.mp (isSome_divide?_iff.mpr hdegree)
    exact ⟨_, _, p, p', quotient, remainder, hp, hp', hdivision, rfl, rfl⟩

/-- The dividend is a multiple of the divisor and a remainder. -/
structure IsDivision (I : Interpretation) (n d q r : Expr) : Prop where
  dividend : I.DefinedInRange n
  divisor : I.DefinedInRange d
  quotient : I.DefinedInRange q
  remainder : I.DefinedInRange r
  value : I.value n = I.value q * I.value d + I.value r

theorem ReadsAs.isDivision {quotient remainder : Polynomial} (hn : I.ReadsAs name n p)
    (hd : I.ReadsAs name d p') (hlength : p.length ≤ maxDegree + 1)
    (hdivision : divide? p p' = some (quotient, remainder)) :
    I.IsDivision n d (toExpr name quotient) (toExpr name remainder) := by
  obtain ⟨hquotient, hremainder, hvalue⟩ :=
    divide?_spec (I.assignment name) hn.canonical.exact hd.canonical hdivision
  obtain ⟨hqlength, hrlength⟩ := length_divide? hdivision
  have hdegree := isSome_divide?_iff.mp (Option.isSome_of_eq_some hdivision)
  unfold degree at hdegree
  obtain ⟨hqrange, hqvalue⟩ := I.toExpr_spec name hquotient.exact (hqlength.trans hlength)
  obtain ⟨hrrange, hrvalue⟩ := I.toExpr_spec name hremainder.exact (by omega)
  rw [← hn.value, ← hd.value, ← hqvalue, ← hrvalue] at hvalue
  exact ⟨hn.inRange, hd.inRange, hqrange, hrrange, hvalue⟩

theorem exactlyEvaluated_univariate
    (hrational : (quotient n d).isRationalOver (unreservedOr name) = true)
    (hn : I.DefinedInRange n) (hd : I.DefinedInRange d) :
    ExactlyEvaluated (Divider.univariate.evaluated n d name) := by
  obtain ⟨hnrational, hdrational⟩ := isRationalOver_binary hrational
  exact exactlyEvaluated_append_ite (I.exactlyEvaluated_evaluated hnrational hn)
    (I.exactlyEvaluated_evaluated hdrational hd)

section ExactDivision

variable (hrational : (quotient n d).isRationalOver (unreservedOr name) = true)
  (hexact : (quotient n d).isExact = true)
  (hvalues : ExactlyEvaluated (Divider.univariate.evaluated n d name))

include hrational hexact hvalues

theorem readsAs_univariate (I : Interpretation) (hp : ofExpr? name n = some p)
    (hp' : ofExpr? name d = some p') : I.ReadsAs name n p ∧ I.ReadsAs name d p' := by
  obtain ⟨hn, hd⟩ := isRationalOver_binary hrational
  obtain ⟨hnexact, hdexact⟩ := Bool.and_eq_true_iff.mp hexact
  simp only [Divider.univariate, hp, Option.isSome_some, if_true, exactlyEvaluated_append]
    at hvalues
  exact ⟨I.readsAs_of_ofExpr? hn hnexact hvalues.1 hp,
    I.readsAs_of_ofExpr? hd hdexact hvalues.2 hp'⟩

theorem isDivision_of_univariate (I : Interpretation)
    (h : Divider.univariate.divide? n d name = some (q, r)) : I.IsDivision n d q r := by
  obtain ⟨p, p', quotient, remainder, hp, hp', hdivision, rfl, rfl⟩ := Divider.univariate_eq_some_iff.mp h
  obtain ⟨hn, hd⟩ := readsAs_univariate hrational hexact hvalues I hp hp'
  exact hn.isDivision hd (length_ofExpr?_le hp) hdivision

theorem length_lt_of_univariate (h : Divider.univariate.divide? n d name = some (q, r)) :
    ∃ s p', ofExpr? name r = some s ∧ ofExpr? name d = some p' ∧ s.length < p'.length := by
  obtain ⟨p, p', quotient, remainder, hp, hp', hdivision, rfl, rfl⟩ := Divider.univariate_eq_some_iff.mp h
  obtain ⟨hn, hd⟩ := readsAs_univariate hrational hexact hvalues (arithmetic fun _ => 0) hp hp'
  obtain ⟨-, hremainder, -⟩ := divide?_spec 0 hn.canonical.exact hd.canonical hdivision
  obtain ⟨-, hlength⟩ := length_divide? hdivision
  refine ⟨remainder, p', ?_, hp', hlength⟩
  rw [ofExpr?_toExpr name hremainder.exact (hlength.le.trans (length_ofExpr?_le hp')),
    hremainder.trimmed]

end ExactDivision

/-! ## The rule -/

theorem IsDivision.mixed (h : I.IsDivision n d q r) (hne : I.value d ≠ 0) :
    I.DefinedInRange (mixed d q r) ∧ I.value (mixed d q r) = I.value n / I.value d := by
  unfold Rules.mixed
  split_ifs with hzero
  · have hr := I.value_of_isZero h.remainder.defined hzero
    refine ⟨h.quotient, ?_⟩
    rw [h.value, hr, add_zero, mul_div_cancel_right₀ _ hne]
  · refine ⟨I.definedInRange_sum.mpr ⟨h.quotient,
      I.definedInRange_quotient.mpr ⟨h.remainder, h.divisor, hne⟩⟩, ?_⟩
    rw [value_sum, value_quotient, h.value, add_div, mul_div_cancel_right₀ _ hne]

/-- The variable that is divided in, with everything that is evaluated for it. -/
theorem exists_divideIn {divider : Divider} {names : List String}
    (h : names.findSome? (divideIn divider n d) = some u) :
    ∃ name ∈ names, divideIn divider n d name = some u ∧
      ∀ e ∈ divider.evaluated n d name, e ∈ evaluatedFor divider n d names := by
  induction names with
  | nil => cases h
  | cons name names ih =>
    rw [List.findSome?_cons] at h
    cases hdivide : divideIn divider n d name with
    | some v =>
      rw [hdivide] at h
      cases h
      exact ⟨name, List.mem_cons_self, hdivide, fun e he => List.mem_append_left _ he⟩
    | none =>
      rw [hdivide] at h
      obtain ⟨other, hmem, hother, hevaluated⟩ := ih h
      have hnone : (divider.divide? n d name).isSome = false := by
        simpa [divideIn] using hdivide
      refine ⟨other, List.mem_cons_of_mem name hmem, hother, fun e he => ?_⟩
      rw [evaluatedFor, hnone]
      exact List.mem_append_right _ (hevaluated e he)

theorem exactlyEvaluated_evaluatedFor {divider : Divider}
    (h : ∀ name, ExactlyEvaluated (divider.evaluated n d name)) (names : List String) :
    ExactlyEvaluated (evaluatedFor divider n d names) := by
  induction names with
  | nil => exact exactlyEvaluated_nil
  | cons name names ih =>
    refine exactlyEvaluated_append.mpr ⟨h name, ?_⟩
    split_ifs
    · exact exactlyEvaluated_nil
    · exact ih

theorem exactlyEvaluated_longDivision (hrational : t.isRationalOver unreserved = true)
    (hrange : I.DefinedInRange t) : ExactlyEvaluated (longDivisionEvaluated .univariate t) := by
  unfold longDivisionEvaluated
  split
  · obtain ⟨hn, hd⟩ := hrange.operands
    split_ifs
    · exact exactlyEvaluated_evaluatedFor (fun name =>
        exactlyEvaluated_univariate (isRationalOver_unreservedOr name hrational) hn hd) _
    · exact exactlyEvaluated_nil
  · exact exactlyEvaluated_nil

theorem longDivision_cases (I : Interpretation) (hrational : t.isRationalOver unreserved = true)
    (hexact : t.isExact = true)
    (hvalues : ExactlyEvaluated (longDivisionEvaluated .univariate t)) :
    longDivision .univariate t = t ∨
      ∃ n d q r, t = quotient n d ∧ I.IsDivision n d q r ∧
        longDivision .univariate t = Rules.mixed d q r := by
  refine Template.rewrite_of_forall
    (R := fun t u => u = t ∨ ∃ n d q r, t = quotient n d ∧ I.IsDivision n d q r ∧
      u = Rules.mixed d q r) (Or.inl rfl) fun template hmem u hu => Or.inr ?_
  rw [List.mem_singleton.mp hmem] at hu
  unfold divisionTemplate at hu
  split at hu
  case h_1 n d =>
    split_ifs at hu with hdivisible
    obtain ⟨name, -, hdivide, hevaluated⟩ := exists_divideIn hu
    obtain ⟨⟨q, r⟩, hdivision, rfl⟩ := Option.map_eq_some_iff.mp hdivide
    rw [longDivisionEvaluated, if_pos hdivisible] at hvalues
    have hvalues' := fun e he => hvalues e (hevaluated e he)
    exact ⟨n, d, q, r, rfl, isDivision_of_univariate
      (isRationalOver_unreservedOr name hrational) hexact hvalues' I hdivision, rfl⟩
  case h_2 => cases hu

/-- Long division keeps the value of a rational tree, if every value it asks for is exact. -/
theorem longDivision_refines (I : Interpretation) (hrational : t.isRationalOver unreserved = true)
    (hexact : t.isExact = true)
    (hvalues : ExactlyEvaluated (longDivisionEvaluated .univariate t)) :
    I.Refines t (longDivision .univariate t) := by
  intro hdef
  obtain hsame | ⟨n, d, q, r, rfl, hdivision, hmixed⟩ :=
    I.longDivision_cases hrational hexact hvalues
  · exact hsame.symm ▸ ⟨hdef, rfl⟩
  · obtain ⟨-, -, hne⟩ := hdef
    obtain ⟨hrange, hvalue⟩ := hdivision.mixed hne
    exact hmixed.symm ▸ ⟨hrange.defined, hvalue⟩

theorem longDivision_inRange (hrational : t.isRationalOver unreserved = true)
    (hrange : I.DefinedInRange t) :
    I.DefinedInRange (longDivision .univariate t) ∧
      I.value (longDivision .univariate t) = I.value t := by
  obtain hsame | ⟨n, d, q, r, rfl, hdivision, hmixed⟩ :=
    I.longDivision_cases hrational hrange.isExact (exactlyEvaluated_longDivision hrational hrange)
  · exact hsame.symm ▸ ⟨hrange, rfl⟩
  · obtain ⟨-, -, hne⟩ := I.definedInRange_quotient.mp hrange
    exact hmixed.symm ▸ hdivision.mixed hne

/-- The divider succeeds for a divisor with a variable whose degree is at most that of the dividend.
Then its answer is a division at every point, not just where dividend and divisor are known to have
a value. Long division of a quotient keeps its value. -/
theorem univariate_divides {I : Interpretation} {n d : Expr}
    (hn : n.isRationalOver unreserved = true) (hd : d.isRationalOver unreserved = true)
    (hnrange : I.DefinedInRange n) (hdrange : I.DefinedInRange d) (name : String) :
    ((Divider.univariate.divide? n d name).isSome = true ↔
      ∃ p p', ofExpr? name n = some p ∧ ofExpr? name d = some p' ∧
        1 ≤ degree p' ∧ degree p' ≤ degree p) ∧
    (∀ q r, Divider.univariate.divide? n d name = some (q, r) →
      (∀ J : Interpretation, J.IsDivision n d q r) ∧
        ∃ s p', ofExpr? name r = some s ∧ ofExpr? name d = some p' ∧ s.length < p'.length) ∧
    (I.value d ≠ 0 →
      I.DefinedInRange (longDivision .univariate (quotient n d)) ∧
        I.value (longDivision .univariate (quotient n d)) = I.value n / I.value d) := by
  have hrational : (quotient n d).isRationalOver unreserved = true :=
    Bool.and_eq_true_iff.mpr ⟨hn, hd⟩
  have hrational' := isRationalOver_unreservedOr name hrational
  have hexact : (quotient n d).isExact = true :=
    Bool.and_eq_true_iff.mpr ⟨hnrange.isExact, hdrange.isExact⟩
  have hvalues := exactlyEvaluated_univariate hrational' hnrange hdrange
  refine ⟨isSome_univariate_iff, fun q r hdivide => ⟨fun J => ?_, ?_⟩, fun hne => ?_⟩
  · exact isDivision_of_univariate hrational' hexact hvalues J hdivide
  · exact length_lt_of_univariate hrational' hexact hvalues hdivide
  · have hquotient := I.definedInRange_quotient.mpr ⟨hnrange, hdrange, hne⟩
    rw [← value_quotient]
    exact longDivision_inRange hrational hquotient

/-- `(x ^ 4 / 2 + 3) / (2 * x ^ 2 - 1 / 3)` at `x = 1`, with a leading coefficient other than one
and coefficients of zero in both lists. -/
theorem univariate_divides_withGaps :
    let I := arithmetic fun _ => 1
    let n := sum (quotient (power (var "x") (int 4)) (int 2)) (int 3)
    let d := difference (product (int 2) (power (var "x") (int 2))) (quotient (int 1) (int 3))
    let q := sum (product (num (.ofRat (1 / 4))) (power (var "x") (int 2)))
      (num (.ofRat (1 / 24)))
    let r := num (.ofRat (217 / 72))
    (n.isRationalOver unreserved = true ∧ d.isRationalOver unreserved = true ∧
      I.DefinedInRange n ∧ I.DefinedInRange d ∧ I.value d ≠ 0) ∧
    (Divider.univariate.divide? n d "x" = some (q, r) ∧
      (∀ J : Interpretation, J.IsDivision n d q r) ∧
        ∃ s p', ofExpr? "x" r = some s ∧ ofExpr? "x" d = some p' ∧ s.length < p'.length) ∧
    longDivision .univariate (quotient n d) = sum q (quotient r d) ∧
      I.DefinedInRange (longDivision .univariate (quotient n d)) ∧
        I.value (longDivision .univariate (quotient n d)) = I.value n / I.value d := by
  intro I n d q r
  have hn : n.isRationalOver unreserved = true := by decide
  have hd : d.isRationalOver unreserved = true := by decide
  have hpower : ∀ k : ℕ, k ≤ 4 → I.DefinedInRange (power (var "x") (int k)) := fun k hk =>
    I.definedInRange_power_natCast (I.definedInRange_var _) (hk.trans (by decide))
  have hnrange : I.DefinedInRange n := by
    simpa [n] using hpower 4 le_rfl
  have hdrange : I.DefinedInRange d := by
    simpa [d] using hpower 2 (by decide)
  have hne : I.value d ≠ 0 := by
    simp [I, d, arithmetic]
    norm_num
  have hp : ofExpr? "x" n = some [3, 0, 0, 0, .ofRat (1 / 2)] := by
    have hfirst : ofExpr? "x" (quotient (power (var "x") (int 4)) (int 2)) =
        some [0, 0, 0, 0, .ofRat (1 / 2)] := by with_unfolding_all rfl
    have hsecond : ofExpr? "x" (int 3) = some [3] := by with_unfolding_all rfl
    rw [ofExpr?, hfirst, hsecond, Option.bind_some, Option.map_some]
    simp only [zipTerms]
    with_unfolding_all rfl
  have hp' : ofExpr? "x" d = some [.ofRat (-1 / 3), 0, 2] := by
    have hfirst : ofExpr? "x" (product (int 2) (power (var "x") (int 2))) = some [0, 0, 2] := by
      with_unfolding_all rfl
    have hsecond : ofExpr? "x" (quotient (int 1) (int 3)) = some [.ofRat (1 / 3)] := by
      with_unfolding_all rfl
    rw [ofExpr?, hfirst, hsecond, Option.bind_some, Option.map_some]
    simp only [zipTerms]
    with_unfolding_all rfl
  have hdivide : Divider.univariate.divide? n d "x" = some (q, r) :=
    Divider.univariate_eq_some_iff.mpr ⟨_, _, [.ofRat (1 / 24), 0, .ofRat (1 / 4)],
      [.ofRat (217 / 72)], hp, hp', by with_unfolding_all rfl, by with_unfolding_all rfl,
      by with_unfolding_all rfl⟩
  have hlong : longDivision .univariate (quotient n d) = sum q (quotient r d) := by
    have hdivisible : divisible n d = true := by decide
    have hfree : d.freeVariables = ["x"] := by decide
    have hr : r.isZero = false := by with_unfolding_all rfl
    simp [longDivision, Template.rewrite, Template.first, divisionTemplate, hdivisible, hfree,
      divideIn, hdivide, Rules.mixed, hr]
  obtain ⟨-, hdivision, hvalue⟩ := univariate_divides hn hd hnrange hdrange "x"
  exact ⟨⟨hn, hd, hnrange, hdrange, hne⟩, ⟨hdivide, hdivision q r hdivide⟩, hlong, hvalue hne⟩

end SymbolicAlgebra.Interpretation
