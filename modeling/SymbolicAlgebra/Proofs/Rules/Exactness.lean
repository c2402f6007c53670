import SymbolicAlgebra.Folding
import SymbolicAlgebra.Proofs.Expr.Arithmetic
import SymbolicAlgebra.Proofs.Number.Powers
import SymbolicAlgebra.Rules.Powers

/-!
# Exact trees stay exact

Sums, differences, products and quotients of exact literals are exact where they are computed, and
so are finite powers with an exponent in range. So folding and the power algebra bring a double into
an exact tree only where they raise a literal to an integer out of that range and the power is
finite. Folding a node does bring one in there.
-/

namespace SymbolicAlgebra

namespace Expr

theorem isExact_withChildren {t u : Expr} {ts : List Expr} (h : t.withChildren ts = some u)
    (ht : t.isExact = true) (hts : ∀ s ∈ ts, s.isExact = true) : u.isExact = true := by
  unfold withChildren at h
  split at h
  case h_9 =>
    split_ifs at h
    cases h
    simpa [isExact] using hts
  case h_10 => cases h
  all_goals
    cases h
    simp_all [isExact]

theorem isExact_of_mem_children {t c : Expr} (ht : t.isExact = true) (hc : c ∈ t.children) :
    c.isExact = true := by
  cases t <;> simp_all [isExact, children] <;> grind

@[simp, grind =] theorem isExact_log (base a : Expr) :
    (log base a).isExact = (base.isExact && a.isExact) := rfl

end Expr

/-- Staying exact is carried through rewrites. -/
theorem RewriteRelation.isExact :
    RewriteRelation fun t u => t.isExact = true → u.isExact = true where
  refl _ h := h
  trans h h' ht := h' (h ht)
  node {t u ts} hchildren hu ht := by
    refine Expr.isExact_withChildren hu ht fun s hs => ?_
    obtain ⟨i, hi, rfl⟩ := List.getElem_of_mem hs
    have hlength := hchildren.length_eq
    exact List.forall₂_iff_get.mp hchildren |>.2 i (hlength ▸ hi) hi
      (Expr.isExact_of_mem_children ht (List.getElem_mem _))

namespace Folding

open SymbolicAlgebra.Expr

variable {t u x : Expr}

/-- The value of an operator on exact literals is exact, an escaping power apart. -/
theorem isExact_literalValue? {op : Operator} {a b v : Number} (ha : a.isExact = true)
    (hb : b.isExact = true) (hv : literalValue? op a b = some v) (hfinite : v.isFinite = true) :
    v.isExact = true ∨ op = .power ∧ a.LeavesExact b := by
  cases op with
  | sum =>
    cases hv
    exact .inl (Number.isExact_add ha hb).1
  | difference =>
    cases hv
    exact .inl (Number.isExact_sub ha hb).1
  | product =>
    cases hv
    exact .inl (Number.isExact_mul ha hb).1
  | quotient =>
    rw [literalValue?] at hv
    split_ifs at hv with hzero
    cases hv
    exact .inl (Number.isExact_div ha hb (mt (Number.isZero_iff hb).mpr hzero)).1
  | power =>
    rw [literalValue?] at hv
    split_ifs at hv with hinteger
    cases hv
    by_cases hleaves : a.LeavesExact b
    · exact .inr ⟨rfl, hleaves⟩
    · exact .inl ((Number.isExact_pow_iff ha hinteger hfinite).mpr hleaves)

theorem isExact_literals (hx : x.isExact = true) (h : literals x = some u) :
    u.isExact = true ∨ ∃ a b, x = power (num a) (num b) ∧ a.LeavesExact b := by
  unfold literals at h
  split at h
  case h_1 op a b =>
    obtain ⟨v, hv, rfl⟩ := Option.map_eq_some_iff.mp h
    obtain ⟨hvalue, hfilter⟩ := Option.filter_eq_some_iff.mp hv
    obtain ⟨ha, hb⟩ : a.isExact = true ∧ b.isExact = true := Bool.and_eq_true_iff.mp hx
    have hfinite : v.isFinite = true := by
      have ha' : a.isFinite = true := isFinite_of_isExact (t := num a) ha
      have hb' : b.isFinite = true := isFinite_of_isExact (t := num b) hb
      simpa [ha', hb'] using hfilter
    obtain hexact | ⟨rfl, hleaves⟩ := isExact_literalValue? ha hb hvalue hfinite
    · exact .inl hexact
    · exact .inr ⟨a, b, rfl, hleaves⟩
  case h_2 => cases h

/-- The other templates write no literals but `-1`, `0` and `1`. -/
theorem isExact_neutral {template : Template} (hmem : template ∈ family.tail)
    (hx : x.isExact = true) (h : template x = some u) : u.isExact = true := by
  have hint : ∀ n : ℤ, (int n).isExact = true := fun _ => rfl
  simp only [family, List.tail_cons, List.mem_cons, List.not_mem_nil, or_false] at hmem
  obtain rfl | rfl | rfl | rfl | rfl | rfl | rfl | rfl | rfl | rfl | rfl | rfl := hmem
  all_goals
    simp only [sumWithZero, sumWithNegated, negatedInSum, differenceWithZero,
      differenceWithNegated, productWithOne, productWithZero, quotientByOne, quotientOfZero,
      powerToOne, powerToZero, powerOfOne, negate] at h
    split at h <;> grind -ring -linarith

theorem foldNode_of_leavesExact {a b : Number} (h : a.LeavesExact b) :
    foldNode (power (num a) (num b)) = num (a.pow b) := by
  have hliterals : literals (power (num a) (num b)) = some (num (a.pow b)) := by
    simp [literals, literalValue?, h.isInteger, h.isFinite]
  rw [foldNode, Template.rewrite, Template.first, family, List.findSome?_cons, hliterals]
  rfl

/-- Folding a node of an exact tree writes a double just for a power that leaves the exact
numbers. -/
theorem isExact_foldNode_iff (hx : x.isExact = true) :
    (foldNode x).isExact = true ↔ ¬ ∃ a b, x = power (num a) (num b) ∧ a.LeavesExact b := by
  constructor
  · rintro hexact ⟨a, b, rfl, hleaves⟩
    rw [foldNode_of_leavesExact hleaves] at hexact
    obtain ⟨ha, -⟩ := Bool.and_eq_true_iff.mp hx
    exact (Number.isExact_pow_iff ha hleaves.isInteger hleaves.isFinite).mp hexact hleaves
  · intro hno
    refine Template.rewrite_of_forall (R := fun _ u => u.isExact = true) hx
      fun template hmem u hu => ?_
    obtain rfl | hmem := List.mem_cons.mp hmem
    · exact (isExact_literals hx hu).resolve_right hno
    · exact isExact_neutral hmem hx hu

theorem isExact_fold (ht : t.isExact = true)
    (hsites : ∀ x ∈ t.sites foldNode, ¬ ∃ a b, x = power (num a) (num b) ∧ a.LeavesExact b) :
    (fold t).isExact = true :=
  RewriteRelation.isExact.rewrite_of_sites
    (fun x hx hexact => (isExact_foldNode_iff hexact).mpr (hsites x hx)) ht

end Folding

namespace Rules

open SymbolicAlgebra.Expr

variable {t u a b : Expr}

theorem isExact_plus (ha : a.isExact = true) (hb : b.isExact = true) :
    (plus a b).isExact = true := by
  unfold plus
  split
  · exact (Number.isExact_add ha hb).1
  · simp [ha, hb]

theorem isExact_minus (ha : a.isExact = true) (hb : b.isExact = true) :
    (minus a b).isExact = true := by
  unfold minus
  split
  · exact (Number.isExact_sub ha hb).1
  · simp [ha, hb]

theorem isExact_times (ha : a.isExact = true) (hb : b.isExact = true) :
    (times a b).isExact = true := by
  unfold times
  split
  · exact (Number.isExact_mul ha hb).1
  · simp [ha, hb]

theorem isExact_baseAndExponent (ht : t.isExact = true) :
    (baseAndExponent t).1.isExact = true ∧ (baseAndExponent t).2.isExact = true := by
  unfold baseAndExponent
  split
  · simpa using ht
  · exact ⟨ht, rfl⟩

theorem isExact_literalPower {c d : Number} (hc : c.isExact = true) (hd : d.isExact = true)
    (hleaves : ¬ c.LeavesExact d) : (literalPower c d).isExact = true := by
  unfold literalPower
  split_ifs with h
  · obtain ⟨hinteger, hfinite⟩ := Bool.and_eq_true_iff.mp h
    exact (Number.isExact_pow_iff hc hinteger hfinite).mpr hleaves
  · simp [hc, hd]

/-- The literals of which the power algebra may compute a power. -/
def literalsRaised : Expr → Option (Number × Number)
  | power (product (num c) _) (num d) => some (c, d)
  | product (power (quotient (num c) _) (num d)) _ => some (c, d)
  | _ => none

/-- The templates that compute a power of literals. -/
def literalPowerFamily : List Template :=
  [powerOfLiteralProduct, literalQuotientTimesBase, literalQuotientTimesPower]

/-- The power algebra raises the literal `c` to the literal `d`: its result is that of a template
which computes the power. -/
def RaisesLiteral (t : Expr) (c d : Number) : Prop :=
  literalsRaised t = some (c, d) ∧ ∃ template ∈ literalPowerFamily, template t = some (powers t)

theorem isExact_literalPowers {template : Template} (hmem : template ∈ literalPowerFamily)
    (ht : t.isExact = true)
    (hraised : ∀ c d, literalsRaised t = some (c, d) → ¬ c.LeavesExact d)
    (hu : template t = some u) : u.isExact = true := by
  have hone : (Number.integer 1).isExact = true := rfl
  simp only [literalPowerFamily, List.mem_cons, List.not_mem_nil, or_false] at hmem
  obtain rfl | rfl | rfl := hmem
  all_goals
    simp only [powerOfLiteralProduct, literalQuotientTimesBase, literalQuotientTimesPower] at hu
    split at hu <;>
      grind -ring -linarith [isExact_literalPower, literalsRaised, Number.isExact_sub]

/-- The other templates compute no more than sums, differences and products of exponents. -/
theorem isExact_exponents {template : Template}
    (hmem : template ∈ [powerBeforeVariable, powerTimesBase, baseTimesPower, productOverBase,
      quotientOverBase, powerOfPower, productOverExponent, quotientOverExponent, baseOverPower,
      powerOverBase, powerOfLog, powerTimesProduct, productTimesPower, reciprocal, nestedQuotient])
    (ht : t.isExact = true) (hu : template t = some u) : u.isExact = true := by
  have hone : (int 1).isExact = true := rfl
  simp only [List.mem_cons, List.not_mem_nil, or_false] at hmem
  obtain rfl | rfl | rfl | rfl | rfl | rfl | rfl | rfl | rfl | rfl | rfl | rfl | rfl | rfl | rfl :=
    hmem
  all_goals
    simp only [powerBeforeVariable, powerTimesBase, baseTimesPower, productOverBase,
      quotientOverBase, powerOfPower, productOverExponent, quotientOverExponent, baseOverPower,
      powerOverBase, powerOfLog, powerTimesProduct, productTimesPower, absorbedIntoPower,
      reciprocal, nestedQuotient] at hu
    split at hu <;>
      grind -ring -linarith [isExact_plus, isExact_minus, isExact_times, isExact_baseAndExponent]

theorem isExact_powers_of_raisesLiteral (ht : t.isExact = true)
    (hraised : ∀ c d, RaisesLiteral t c d → ¬ c.LeavesExact d) : (powers t).isExact = true := by
  -- The template is one that gives the result, not any that matches.
  refine Template.rewrite_of_forall (R := fun _ u => u = powers t → u.isExact = true) (fun _ => ht)
    (fun template hmem u hu hresult => ?_) rfl
  by_cases hliteral : template ∈ literalPowerFamily
  · refine isExact_literalPowers hliteral ht (fun c d hcd => ?_) hu
    exact hraised c d ⟨hcd, template, hliteral, hresult ▸ hu⟩
  · refine isExact_exponents ?_ ht hu
    simp only [powerFamily, literalPowerFamily, List.mem_cons, List.not_mem_nil, or_false]
      at hmem hliteral ⊢
    grind

theorem isExact_powers (ht : t.isExact = true)
    (hraised : ∀ c d, literalsRaised t = some (c, d) → ¬ c.LeavesExact d) :
    (powers t).isExact = true :=
  isExact_powers_of_raisesLiteral ht fun c d h => hraised c d h.1

/-- Folding and the power algebra write exact literals only, if no literal that they raise to a
power leaves the exact numbers. -/
theorem isExact_fold_and_isExact_powers (ht : t.isExact = true) :
    ((∀ x ∈ t.sites Folding.foldNode, ∀ c d, x = power (num c) (num d) → ¬ c.LeavesExact d) →
      (Folding.fold t).isExact = true) ∧
    ((∀ c d, literalsRaised t = some (c, d) → ¬ c.LeavesExact d) → (powers t).isExact = true) :=
  ⟨fun hsites => Folding.isExact_fold ht fun x hx ⟨c, d, hcd, hleaves⟩ => hsites x hx c d hcd hleaves,
    isExact_powers ht⟩

/-- `(2/3 * 2 ^ -3) ^ -4096`, where the exponent is just in range. -/
theorem isExact_fold_and_isExact_powers_at_range :
    let t := power (product (num (.ofRat (2 / 3))) (power (int 2) (int (-3)))) (int (-4096))
    t.isExact = true ∧ (Folding.fold t).isExact = true ∧ (powers t).isExact = true := by
  intro t
  have ht : t.isExact = true := by simp [t]
  have hsites : t.sites Folding.foldNode =
      [num (.ofRat (2 / 3)), int 2, int (-3), power (int 2) (int (-3)),
        product (num (.ofRat (2 / 3))) (num (.ofRat (1 / 8))), int (-4096),
        power (num (.ofRat (1 / 12))) (int (-4096))] := by
    with_unfolding_all rfl
  refine ⟨ht, (isExact_fold_and_isExact_powers ht).1 ?_, (isExact_fold_and_isExact_powers ht).2 ?_⟩
  · rw [hsites]
    rintro x hx c d rfl ⟨e, rfl, -, hrange, -⟩
    simp only [List.mem_cons, List.not_mem_nil, or_false, reduceCtorEq, false_or, binary.injEq,
      false_and, num.injEq, Number.integer.injEq, true_and] at hx
    rcases hx with ⟨-, rfl⟩ | ⟨-, rfl⟩
    · exact absurd hrange (by decide)
    · exact absurd hrange (by decide)
  · rintro c d ⟨⟩ ⟨e, he, -, hrange, -⟩
    obtain rfl := Number.integer.inj he
    exact absurd hrange (by decide)

/-- Beyond the range a power of zero becomes the double zero. -/
theorem not_isExact_fold_and_powers :
    let t := power (int 0) (int 5000)
    let u := power (product (int 0) (var "x")) (int 5000)
    (t.isExact = true ∧ (Folding.fold t).isExact = false) ∧
      u.isExact = true ∧ (powers u).isExact = false := by
  refine ⟨⟨rfl, ?_⟩, rfl, ?_⟩
  · with_unfolding_all rfl
  · with_unfolding_all rfl

end Rules

end SymbolicAlgebra
