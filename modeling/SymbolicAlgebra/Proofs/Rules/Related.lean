import SymbolicAlgebra.Catalog
import SymbolicAlgebra.Folding
import SymbolicAlgebra.Proofs.Chain
import SymbolicAlgebra.Proofs.Expr.Congruence
import SymbolicAlgebra.Proofs.Expr.Related
import SymbolicAlgebra.Proofs.Rules.Vocabulary

/-!
# Templates on related trees

Every template of the rules and of folding gives related results for related trees. What templates
ask about subtrees is the same for related trees, and the one variable that a template writes, in
the right angle, has a reserved name.
-/

namespace SymbolicAlgebra

namespace Rules

open SymbolicAlgebra.Expr

variable {s : Renaming} {forward : Bool} {t t' a a' b b' p p' q q' : Expr}

/-! ## Arithmetic -/

theorem respects_rearranging : ∀ template ∈ rearranging, template.Respects s := by
  simp only [rearranging, List.forall_mem_cons]
  refine ⟨?_, ?_, ?_, ?_, ?_, ?_, ?_, ?_, ?_, by simp⟩
  all_goals
    intro forward t t' ht
    simp only [literalBehindFunctions, quotientByQuotient, quotientOfQuotient, timesQuotient,
      quotientTimes, functionsBeforeLeftRest, functionsBeforeRightRest, literalLeadsProduct,
      literalTrailsSum]
    split <;> grind

theorem respects_computing : ∀ template ∈ computing, template.Respects s := by
  simp only [computing, List.forall_mem_cons]
  refine ⟨?_, ?_, ?_, ?_, ?_, ?_, ?_, ?_, ?_, ?_, ?_, ?_, by simp⟩
  all_goals
    intro forward t t' ht
    simp only [functionMultipleTimesLiteral, literalTimesFunctionMultiple, functionMultiples,
      variableMultipleTimesLiteral, literalTimesVariableMultiple, variableSumPlusLiteral,
      literalPlusVariableSum, literalTimesMultiple, literalOverLeftMultiple,
      literalOverRightMultiple, multipleOverLiteral, likeTerms]
    split <;> grind

@[grind ←] theorem related_squareDifference {v w v' w' : Expr} (hv : Related s forward v v')
    (ha : Related s forward a a') (hw : Related s forward w w') (hb : Related s forward b b') :
    RelatedResults s forward (squareDifference v a w b) (squareDifference v' a' w' b') := by
  unfold squareDifference
  grind

theorem respects_comparing : ∀ template ∈ comparing, template.Respects s := by
  simp only [comparing, List.forall_mem_cons]
  refine ⟨?_, ?_, ?_, ?_, ?_, ?_, ?_, ?_, ?_, ?_, ?_, by simp⟩
  all_goals
    intro forward t t' ht
    simp only [termPlusQuotient, quotientPlusTerm, doubled, equalDifference, equalFactors,
      equalQuotient, oppositeDifferences, swappedSums, negatedPlusTerm, termPlusNegated,
      conjugates]
    split <;> grind

/-! ## Shared factors -/

/-- Gives related results for related pairs. -/
def RespectsPair (s : Renaming) (f : Expr → Expr → Option Expr) : Prop :=
  ∀ ⦃forward p p' q q'⦄, Related s forward p p' → Related s forward q q' →
    RelatedResults s forward (f p q) (f p' q')

/-- The second function is asked where the first has no result, before the renaming and after it. -/
theorem RespectsPair.orElse {f g : Expr → Expr → Option Expr} (hf : RespectsPair s f)
    (hg : RespectsPair s g) : RespectsPair s fun p q => f p q <|> g p q := by
  intro forward p p' q q' hp hq u hu
  simp only [Option.orElse_eq_orElse, Option.orElse_eq_or, Option.or_eq_some_iff] at hu ⊢
  obtain hu | ⟨hnone, hu⟩ := hu
  · obtain ⟨u', hu', hrelated⟩ := hf hp hq u hu
    exact ⟨u', Or.inl hu', hrelated⟩
  · obtain ⟨u', hu', hrelated⟩ := hg hp hq u hu
    refine ⟨u', Or.inr ⟨?_, hu'⟩, hrelated⟩
    by_contra hsome
    obtain ⟨v', hv'⟩ := Option.ne_none_iff_exists'.mp hsome
    obtain ⟨v, hv, -⟩ := hf hp.symm hq.symm v' hv'
    rw [hnone] at hv
    cases hv

theorem respectsPair_cofactor? : RespectsPair s cofactor? := by
  intro forward p p' q q' hp hq
  unfold cofactor?
  split <;> grind

theorem Place.related_factor (i : Place) (ha : Related s forward a a')
    (hb : Related s forward b b') : Related s forward (i.factor a b) (i.factor a' b') := by
  cases i <;> assumption

theorem Place.related_cofactor (i : Place) (ha : Related s forward a a')
    (hb : Related s forward b b') : Related s forward (i.cofactor a b) (i.cofactor a' b') := by
  cases i <;> assumption

theorem related_sharedFactor? {order : FactorOrder} {shared : SharedFactor}
    (hp : Related s forward p p') (hq : Related s forward q q')
    (h : sharedFactor? order p q = some shared) :
    ∃ shared', sharedFactor? order p' q' = some shared' ∧
      Related s forward shared.factor shared'.factor ∧
      Related s forward shared.left shared'.left ∧
      Related s forward shared.right shared'.right := by
  unfold sharedFactor? at h
  split at h
  case h_1 a b c d =>
    obtain ⟨a', b', rfl, ha, hb⟩ := related_binary.mp hp
    obtain ⟨c', d', rfl, hc, hd⟩ := related_binary.mp hq
    have hsame : ∀ x : Place × Place, (x.1.factor a b == x.2.factor c d) =
        (x.1.factor a' b' == x.2.factor c' d') :=
      fun x => (x.1.related_factor ha hb).same (x.2.related_factor hc hd)
    obtain ⟨⟨i, j⟩, hfind, rfl⟩ := Option.map_eq_some_iff.mp h
    simp only [hsame] at hfind
    refine ⟨⟨i.factor a' b', i.cofactor a' b', j.cofactor c' d'⟩, ?_, i.related_factor ha hb,
      i.related_cofactor ha hb, j.related_cofactor hc hd⟩
    simp [sharedFactor?, hfind]
  case h_2 => cases h

section Join

variable {order : FactorOrder} {join : Expr → Expr → Expr}
  (hjoin : ∀ {forward a a' b b'}, Related s forward a a' → Related s forward b b' →
    Related s forward (join a b) (join a' b'))

include hjoin

theorem respectsPair_factorProducts : RespectsPair s (factorProducts order join) := by
  intro forward p p' q q' hp hq u hu
  obtain ⟨shared, hshared, rfl⟩ := Option.map_eq_some_iff.mp hu
  obtain ⟨shared', hshared', hfactor, hleft, hright⟩ := related_sharedFactor? hp hq hshared
  exact ⟨_, Option.map_eq_some_iff.mpr ⟨shared', hshared', rfl⟩,
    hfactor.binary _ (hjoin hleft hright)⟩

theorem respectsPair_factorLeftTerm : RespectsPair s (factorLeftTerm join) := by
  intro forward p p' q q' hp hq
  exact (respectsPair_cofactor? hq hp).map fun hrest =>
    hp.binary _ (hjoin (related_num.mpr rfl) hrest)

theorem respectsPair_factorRightTerm : RespectsPair s (factorRightTerm join) := by
  intro forward p p' q q' hp hq
  exact (respectsPair_cofactor? hp hq).map fun hrest =>
    hq.binary _ (hjoin hrest (related_num.mpr rfl))

end Join

theorem respectsPair_factorLeftDividend : RespectsPair s factorLeftDividend := by
  intro forward p p' q q' hp hq
  unfold factorLeftDividend
  split
  case h_1 a b =>
    obtain ⟨a', b', rfl, ha, hb⟩ := related_binary.mp hp
    exact (respectsPair_cofactor? hq ha).map (by grind)
  case h_2 => exact relatedResults_none.mpr trivial

theorem respectsPair_factorRightDividend : RespectsPair s factorRightDividend := by
  intro forward p p' q q' hp hq
  unfold factorRightDividend
  split
  case h_1 a c =>
    obtain ⟨a', c', rfl, ha, hc⟩ := related_binary.mp hq
    exact (respectsPair_cofactor? hp ha).map (by grind)
  case h_2 => exact relatedResults_none.mpr trivial

theorem respects_factorTerms (order : FactorOrder) : (factorTerms order).Respects s := by
  have hsum : RespectsPair s (factorSum order) :=
    (respectsPair_factorProducts (Related.binary .sum)).orElse <|
      (respectsPair_factorLeftTerm (Related.binary .sum)).orElse <|
      (respectsPair_factorRightTerm (Related.binary .sum)).orElse <|
      respectsPair_factorLeftDividend.orElse respectsPair_factorRightDividend
  have hdifference : RespectsPair s (factorDifference order) :=
    (respectsPair_factorProducts (Related.binary .difference)).orElse <|
      (respectsPair_factorLeftTerm (Related.binary .difference)).orElse <|
      respectsPair_factorRightTerm (Related.binary .difference)
  intro forward t t' ht
  unfold factorTerms
  split
  case h_3 => exact relatedResults_none.mpr trivial
  all_goals
    obtain ⟨p', q', rfl, hp, hq⟩ := related_binary.mp ht
  · exact hsum hp hq
  · exact hdifference hp hq

theorem respects_cancelSharedFactor : Template.Respects s cancelSharedFactor := by
  intro forward t t' ht u hu
  unfold cancelSharedFactor at hu
  split at hu
  case h_1 p q =>
    obtain ⟨p', q', rfl, hp, hq⟩ := related_binary.mp ht
    obtain ⟨shared, hshared, rfl⟩ := Option.map_eq_some_iff.mp hu
    obtain ⟨shared', hshared', -, hleft, hright⟩ := related_sharedFactor? hp hq hshared
    exact ⟨_, Option.map_eq_some_iff.mpr ⟨shared', hshared', rfl⟩, hleft.binary _ hright⟩
  case h_2 => cases hu

theorem respects_factoring : ∀ template ∈ factoring, template.Respects s := by
  simp only [factoring, List.forall_mem_cons]
  refine ⟨respects_factorTerms sumOrder, ?_, ?_, ?_, respects_cancelSharedFactor, by simp⟩
  all_goals
    intro forward t t' ht
    simp only [factorTimesProduct, productTimesFactor, cancelDivisor]
    split
    case h_2 => exact relatedResults_none.mpr trivial
    obtain ⟨p', q', rfl, hp, hq⟩ := related_binary.mp ht
  · exact (respectsPair_cofactor? hq hp).map (by grind)
  · exact (respectsPair_cofactor? hp hq).map (by grind)
  · exact respectsPair_cofactor? hp hq

theorem common_rename (s : Renaming) (t : Expr) : common (t.rename s) = (common t).rename s := by
  refine Template.rewrite_rename (fun template hmem => ?_) t
  obtain hmem | hmem | hmem | hmem := mem_commonFamily hmem
  · exact respects_rearranging template hmem
  · exact respects_computing template hmem
  · exact respects_factoring template hmem
  · exact respects_comparing template hmem

/-! ## Powers -/

@[grind ←] theorem related_plus (ha : Related s forward a a') (hb : Related s forward b b') :
    Related s forward (plus a b) (plus a' b') :=
  ha.map₂ (fun a b => by cases a <;> cases b <;> simp [plus]) hb

@[grind ←] theorem related_minus (ha : Related s forward a a') (hb : Related s forward b b') :
    Related s forward (minus a b) (minus a' b') :=
  ha.map₂ (fun a b => by cases a <;> cases b <;> simp [minus]) hb

@[grind ←] theorem related_times (ha : Related s forward a a') (hb : Related s forward b b') :
    Related s forward (times a b) (times a' b') :=
  ha.map₂ (fun a b => by cases a <;> cases b <;> simp [times]) hb

@[grind .] theorem related_literalPower (c d : Number) :
    Related s forward (literalPower c d) (literalPower c d) := by
  unfold literalPower
  split_ifs
  · exact related_num.mpr rfl
  · exact (related_num.mpr rfl).binary _ (related_num.mpr rfl)

@[grind ←] theorem related_absorbedIntoPower {n n' l l' r r' : Expr} (ha : Related s forward a a')
    (hn : Related s forward n n') (hl : Related s forward l l') (hr : Related s forward r r') :
    RelatedResults s forward (absorbedIntoPower a n l r) (absorbedIntoPower a' n' l' r') := by
  unfold absorbedIntoPower
  grind

theorem baseAndExponent_rename (s : Renaming) (t : Expr) : baseAndExponent (t.rename s) =
    ((baseAndExponent t).1.rename s, (baseAndExponent t).2.rename s) := by
  cases t with
  | binary op a b => cases op <;> rfl
  | _ => simp [baseAndExponent]

theorem related_base (ht : Related s forward t t') :
    Related s forward (baseAndExponent t).1 (baseAndExponent t').1 :=
  ht.map (f := fun t => (baseAndExponent t).1) fun t => by rw [baseAndExponent_rename]

theorem related_exponent (ht : Related s forward t t') :
    Related s forward (baseAndExponent t).2 (baseAndExponent t').2 :=
  ht.map (f := fun t => (baseAndExponent t).2) fun t => by rw [baseAndExponent_rename]

grind_pattern related_base => Related s forward t t', (baseAndExponent t).1
grind_pattern related_exponent => Related s forward t t', (baseAndExponent t).2

theorem respects_powerFamily : ∀ template ∈ powerFamily, template.Respects s := by
  simp only [powerFamily, List.forall_mem_cons]
  refine ⟨?_, ?_, ?_, ?_, ?_, ?_, ?_, ?_, ?_, ?_, ?_, ?_, ?_, ?_, ?_, ?_, ?_, ?_, by simp⟩
  all_goals
    intro forward t t' ht
    simp only [powerBeforeVariable, powerTimesBase, baseTimesPower, productOverBase,
      quotientOverBase, powerOfPower, productOverExponent, quotientOverExponent, baseOverPower,
      powerOverBase, powerOfLog, powerTimesProduct, productTimesPower, powerOfLiteralProduct,
      reciprocal, literalQuotientTimesBase, literalQuotientTimesPower, nestedQuotient]
    split <;> grind

/-! ## Negative powers, divisions and factorials -/

theorem respects_negativePower : Template.Respects s negativePower := by
  intro forward t t' ht
  unfold negativePower
  split <;> grind

theorem respects_negativeMultiplier : Template.Respects s negativeMultiplier := by
  intro forward t t' ht
  unfold negativeMultiplier
  split <;> grind

theorem respects_divisions :
    ∀ template ∈ [timesReciprocal, literalOutOfDividend, literalOutOfQuotient],
      template.Respects s := by
  simp only [List.forall_mem_cons]
  refine ⟨?_, ?_, ?_, by simp⟩
  all_goals
    intro forward t t' ht
    simp only [timesReciprocal, literalOutOfDividend, literalOutOfQuotient]
    split <;> grind

theorem offset_rename (s : Renaming) (t : Expr) :
    offset (t.rename s) = ((offset t).1.rename s, (offset t).2) := by
  cases t with
  | binary op a b => cases op <;> cases b <;> simp [offset]
  | _ => simp [offset]

theorem related_offset (ht : Related s forward t t') :
    Related s forward (offset t).1 (offset t').1 :=
  ht.map (f := fun t => (offset t).1) fun t => by rw [offset_rename]

theorem offset_eq_of_related (ht : Related s forward t t') : (offset t).2 = (offset t').2 :=
  ht.eq_of_rename (f := fun t => (offset t).2) fun t => by rw [offset_rename]

grind_pattern related_offset => Related s forward t t', (offset t).1
grind_pattern offset_eq_of_related => Related s forward t t', (offset t).2

theorem risingFactors_rename (s : Renaming) (base : Expr) (low : Number) (count : ℕ) :
    risingFactors (base.rename s) low count = (risingFactors base low count).map (rename s) := by
  unfold risingFactors shifted
  rw [List.map_map]
  refine List.map_congr_left fun k _ => ?_
  rw [Function.comp_apply]
  split_ifs <;> rfl

@[grind ←] theorem related_risingProduct (ha : Related s forward a a') (low : Number)
    (count : ℕ) :
    RelatedResults s forward (Chain.linear product (risingFactors a low count))
      (Chain.linear product (risingFactors a' low count)) := by
  have hproduct : Template.Respects s fun base =>
      Chain.linear product (risingFactors base low count) := by
    refine Template.respects_of_rename fun base => ?_
    rw [risingFactors_rename]
    exact Chain.linear_map product (fun _ _ => rfl) _
  exact hproduct ha

@[grind ←] theorem related_reciprocal {x y : Option Expr} (h : RelatedResults s forward x y) :
    RelatedResults s forward (x.map (quotient (int 1))) (y.map (quotient (int 1))) :=
  h.map fun hrelated => (related_num.mpr rfl).binary _ hrelated

theorem respects_factorialTimesNext : Template.Respects s factorialTimesNext := by
  intro forward t t' ht
  simp only [factorialTimesNext]
  split <;> grind

theorem respects_factorialQuotient : Template.Respects s factorialQuotient := by
  intro forward t t' ht
  simp only [factorialQuotient]
  split <;> grind

/-! ## Trigonometry -/

theorem respects_squared? : Template.Respects s squared? := by
  intro forward t t' ht
  unfold squared?
  split <;> grind

theorem respects_sinSquared? : Template.Respects s sinSquared? := by
  intro forward t t' ht
  unfold sinSquared?
  split
  case h_1 a hsquare =>
    obtain ⟨b, hb, hrelated⟩ := respects_squared? ht _ hsquare
    obtain ⟨a', rfl, ha⟩ := related_apply.mp hrelated
    rw [hb]
    exact relatedResults_some.mpr ha
  case h_2 => exact relatedResults_none.mpr trivial

theorem respects_cosSquared? : Template.Respects s cosSquared? := by
  intro forward t t' ht
  unfold cosSquared?
  split
  case h_1 a hsquare =>
    obtain ⟨b, hb, hrelated⟩ := respects_squared? ht _ hsquare
    obtain ⟨a', rfl, ha⟩ := related_apply.mp hrelated
    rw [hb]
    exact relatedResults_some.mpr ha
  case h_2 => exact relatedResults_none.mpr trivial

theorem related_sameAngle {x x' y y' : Option Expr} {result : Expr → Expr}
    (hx : RelatedResults s forward x x') (hy : RelatedResults s forward y y')
    (hresult : ∀ a, result (a.rename s) = (result a).rename s) :
    RelatedResults s forward (sameAngle x y result) (sameAngle x' y' result) := by
  unfold sameAngle
  split
  case h_1 a b =>
    obtain ⟨a', rfl, ha⟩ := hx a rfl
    obtain ⟨b', rfl, hb⟩ := hy b rfl
    simp only [ha.same hb]
    split_ifs
    · exact relatedResults_some.mpr (ha.map hresult)
    · exact relatedResults_none.mpr trivial
  case h_2 => exact relatedResults_none.mpr trivial

/-- The name of the right angle is reserved. -/
@[grind .] theorem related_rightAngle (s : Renaming) (forward : Bool) :
    Related s forward rightAngle rightAngle := by
  have hpi : (var "pi").rename s = var "pi" := by rw [rename_var, s.reserved "pi" rfl]
  cases forward <;> simp [Related, rightAngle, hpi]

theorem respects_trigonometricFamily : ∀ template ∈ trigonometricFamily, template.Respects s := by
  simp only [trigonometricFamily, List.forall_mem_cons]
  refine ⟨?_, ?_, ?_, ?_, ?_, ?_, ?_, by simp⟩
  case refine_1 | refine_2 | refine_3 =>
    intro forward t t' ht
    simp only [sinTimesCos, complementaryArcs, inverseCancellation]
    split <;> grind [halfSinDouble, half]
  all_goals
    intro forward t t' ht
    simp only [sinSquaredPlusCosSquared, cosSquaredPlusSinSquared, sinSquaredMinusCosSquared,
      cosSquaredMinusSinSquared]
    split
    case h_2 => exact relatedResults_none.mpr trivial
    obtain ⟨p', q', rfl, hp, hq⟩ := related_binary.mp ht
  · exact related_sameAngle (respects_sinSquared? hp) (respects_cosSquared? hq) fun _ => rfl
  · exact related_sameAngle (respects_cosSquared? hp) (respects_sinSquared? hq) fun _ => rfl
  · exact related_sameAngle (respects_sinSquared? hp) (respects_cosSquared? hq) fun _ => rfl
  · exact related_sameAngle (respects_cosSquared? hp) (respects_sinSquared? hq) fun _ => rfl

theorem related_isHalf (ha : Related s forward a a') : isHalf a = isHalf a' :=
  ha.eq_of_rename fun t => by cases t <;> simp [isHalf]

grind_pattern related_isHalf => Related s forward a a', isHalf a

theorem respects_trigonometricExpansions :
    ∀ template ∈ [expandHalfSinDouble, expandCosDouble], template.Respects s := by
  simp only [List.forall_mem_cons]
  refine ⟨?_, ?_, by simp⟩
  all_goals
    intro forward t t' ht
    simp only [expandHalfSinDouble, expandCosDouble]
    split <;> grind

theorem respects_expandSinSum : Template.Respects s expandSinSum := by
  intro forward t t' ht
  unfold expandSinSum
  split <;> grind

/-! ## Collapsing -/

theorem respects_squareMinusLiteral : Template.Respects s squareMinusLiteral := by
  intro forward t t' ht
  unfold squareMinusLiteral
  split
  case h_1 p c =>
    obtain ⟨p', q', rfl, hp, hq⟩ := related_binary.mp ht
    obtain rfl := related_num.mp hq
    exact (respects_squared? hp).map (by grind [conjugateProduct])
  case h_2 => exact relatedResults_none.mpr trivial

theorem respects_collapseFamily : ∀ template ∈ collapseFamily, template.Respects s := by
  simp only [collapseFamily, List.forall_mem_cons]
  refine ⟨?_, respects_squareMinusLiteral, respects_factorTerms collapseOrder, ?_, by simp⟩
  all_goals
    intro forward t t' ht
    simp only [powerDifference, equalExponents, conjugateProduct]
    split <;> grind

end Rules

namespace Folding

variable {s : Renaming} {forward : Bool}

@[grind .] theorem relatedResults_map_num (value : Option Number) :
    Expr.RelatedResults s forward (value.map .num) (value.map .num) := by
  cases value with
  | none => exact Expr.relatedResults_none.mpr trivial
  | some c => exact Expr.relatedResults_some.mpr (Expr.related_num.mpr rfl)

theorem respects_family : ∀ template ∈ family, template.Respects s := by
  simp only [family, List.forall_mem_cons]
  refine ⟨?_, ?_, ?_, ?_, ?_, ?_, ?_, ?_, ?_, ?_, ?_, ?_, ?_, by simp⟩
  all_goals
    intro forward t t' ht
    simp only [literals, sumWithZero, sumWithNegated, negatedInSum, differenceWithZero,
      differenceWithNegated, productWithOne, productWithZero, quotientByOne, quotientOfZero,
      powerToOne, powerToZero, powerOfOne]
    split <;> grind [Expr.negate]

end Folding
end SymbolicAlgebra
