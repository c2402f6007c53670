import SymbolicAlgebra.Proofs.Polynomial.Reading
import SymbolicAlgebra.Proofs.Rules.Related

/-!
# Rules on renamed trees

Every rule of the standard catalog commutes with renaming. Two of them look at names: sorting, which
only compares sets of them, and long division, which tries the free variables of the divisor in
their order. A divisor that is a polynomial in one of its free variables has no other, so that order
does not matter.
-/

namespace SymbolicAlgebra

open SymbolicAlgebra.Expr

variable {s : Renaming} {n d t u : Expr} {name : String}

/-! ## Long division -/

namespace Polynomial

section Reading

variable (hname : Constants.standard.isReserved name = false)

include hname

theorem constant?_rename (t : Expr) :
    constant? (s.toFun name) (t.rename s) = constant? name t := by
  rw [constant?, constant?, contains_rename hname, canBeEvaluated_rename, value?_rename]

/-- What is read from a tree does not depend on names. -/
theorem ofExpr?_rename (t : Expr) : ofExpr? (s.toFun name) (t.rename s) = ofExpr? name t := by
  induction t with
  | num c => rfl
  | var x =>
    have hconstant := constant?_rename (s := s) hname (var x)
    rw [rename_var] at hconstant ⊢
    simp only [ofExpr?, s.injective.eq_iff, hconstant]
  | binary op a b iha ihb =>
    have hconstant := constant?_rename (s := s) hname (quotient a b)
    have hdivisor : divisor? (b.rename s) = divisor? b := by
      rw [divisor?, divisor?, value?_rename]
    have hexponent : degreeExponent? (b.rename s) = degreeExponent? b := by
      cases b <;> simp [degreeExponent?]
    rw [rename_binary] at hconstant ⊢
    cases op <;>
      simp only [ofExpr?, iha, ihb, hconstant, hdivisor, hexponent, contains_rename hname]
  | _ => simp only [ofExpr?, ← constant?_rename (s := s) hname, rename_apply, rename_log,
      rename_derivative, rename_integral, rename_limit, rename_tensor]

end Reading

theorem monomial_rename (s : Renaming) (name : String) (k : ℕ) :
    monomial (s.toFun name) k = (monomial name k).rename s := by
  unfold monomial
  split <;> rfl

theorem term_rename (s : Renaming) (name : String) (k : ℕ) (c : Number) :
    term (s.toFun name) k c = (term name k c).rename s := by
  unfold term
  split_ifs
  · rfl
  · exact monomial_rename s name k
  · rw [monomial_rename, rename_binary, rename_num]

theorem termsFrom_rename (s : Renaming) (name : String) (k : ℕ) (p : Polynomial) :
    termsFrom (s.toFun name) k p = (termsFrom name k p).map (rename s) := by
  induction p generalizing k with
  | nil => rfl
  | cons c p ih =>
    rw [termsFrom, termsFrom]
    split_ifs
    · exact ih (k + 1)
    · rw [List.map_cons, term_rename, ih]

theorem toExpr_rename (s : Renaming) (name : String) (p : Polynomial) :
    toExpr (s.toFun name) p = (toExpr name p).rename s := by
  rw [toExpr, toExpr, termsFrom_rename, ← List.map_reverse, Chain.linear_map sum fun _ _ => rfl]
  cases Chain.linear Expr.sum (termsFrom name 0 p).reverse <;> rfl

end Polynomial

namespace Rules

open SymbolicAlgebra.Polynomial

theorem mixed_rename (s : Renaming) (d q r : Expr) :
    mixed (d.rename s) (q.rename s) (r.rename s) = (mixed d q r).rename s := by
  simp only [mixed, isZero_rename]
  split_ifs <;> rfl

theorem divideIn_rename (hname : Constants.standard.isReserved name = false) (n d : Expr) :
    divideIn .univariate (n.rename s) (d.rename s) (s.toFun name) =
      (divideIn .univariate n d name).map (rename s) := by
  simp only [divideIn, Divider.univariate, ofExpr?_rename hname, toExpr_rename]
  cases ofExpr? name n with
  | none => rfl
  | some p =>
    cases ofExpr? name d with
    | none => rfl
    | some q => cases hdivide : divide? p q <;> simp [hdivide, mixed_rename]

/-- A divider that succeeds leaves no choice of the variable. -/
theorem eq_of_divideIn_eq_some (h : divideIn .univariate n d name = some u) {x : String}
    (hx : x ∈ d.freeVariables) : x = name := by
  obtain ⟨qr, hqr, -⟩ := Option.map_eq_some_iff.mp h
  simp only [Divider.univariate, Option.bind_eq_bind, Option.bind_eq_some_iff] at hqr
  obtain ⟨-, -, p, hp, -⟩ := hqr
  exact eq_of_mem_freeVariables hp hx

theorem findSome?_of_forall_eq {α β : Type} {f : α → Option β} {x : α} {xs : List α} (hx : x ∈ xs)
    (h : ∀ y ∈ xs, y = x) : xs.findSome? f = f x := by
  rw [List.eq_replicate_of_mem h, List.findSome?_replicate, if_neg]
  exact Nat.ne_of_gt (List.length_pos_of_mem hx)

theorem findSome?_divideIn_rename (s : Renaming) (n d : Expr) :
    (d.rename s).freeVariables.findSome? (divideIn .univariate (n.rename s) (d.rename s)) =
      (d.freeVariables.findSome? (divideIn .univariate n d)).map (rename s) := by
  by_cases hsome : ∃ name ∈ d.freeVariables, (divideIn .univariate n d name).isSome = true
  · -- The name is the only free variable of the divisor, so the order of the names plays no part.
    obtain ⟨name, hmem, hsome⟩ := hsome
    obtain ⟨u, hu⟩ := Option.isSome_iff_exists.mp hsome
    have honly : ∀ x ∈ d.freeVariables, x = name := fun x hx => eq_of_divideIn_eq_some hu hx
    have honly' : ∀ y ∈ (d.rename s).freeVariables, y = s.toFun name := by
      intro y hy
      obtain ⟨x, hx, rfl⟩ := mem_freeVariables_rename.mp hy
      rw [honly x hx]
    rw [findSome?_of_forall_eq hmem honly,
      findSome?_of_forall_eq (toFun_mem_freeVariables_rename.mpr hmem) honly',
      divideIn_rename (isReserved_of_mem_freeVariables hmem)]
  · have hnone : ∀ x ∈ d.freeVariables, divideIn .univariate n d x = none := by
      simpa using hsome
    rw [List.findSome?_eq_none_iff.mpr hnone, Option.map_none, List.findSome?_eq_none_iff]
    intro y hy
    obtain ⟨x, hx, rfl⟩ := mem_freeVariables_rename.mp hy
    rw [divideIn_rename (isReserved_of_mem_freeVariables hx), hnone x hx, Option.map_none]

theorem longDivision_rename (s : Renaming) (t : Expr) :
    longDivision .univariate (t.rename s) = (longDivision .univariate t).rename s := by
  refine Template.rewrite_rename (fun template hmem => ?_) t
  rw [List.mem_singleton.mp hmem]
  refine Template.respects_of_rename fun t => ?_
  cases t with
  | binary op n d =>
    cases op with
    | quotient =>
      have hdivisible : divisible (n.rename s) (d.rename s) = divisible n d := by
        rw [divisible, divisible, canBeEvaluated_rename, canBeEvaluated_rename]
      rw [rename_binary, divisionTemplate, divisionTemplate, hdivisible, findSome?_divideIn_rename]
      cases divisible n d <;> rfl
    | _ => rfl
  | _ => simp [divisionTemplate]

/-! ## Chains -/

theorem summandsAs_rename (s : Renaming) (negated : Bool) (t : Expr) :
    summandsAs negated (t.rename s) = (summandsAs negated t).map (rename s) := by
  induction t generalizing negated with
  | binary op a b iha ihb =>
    cases op with
    | sum | difference => simp only [rename_binary, summandsAs, iha, ihb, List.map_append]
    | _ => cases negated <;> rfl
  | _ => cases negated <;> simp [summandsAs, negate]

theorem factorsAs_rename (s : Renaming) (inverted : Bool) (t : Expr) :
    factorsAs inverted (t.rename s) = (factorsAs inverted t).map (rename s) := by
  induction t generalizing inverted with
  | binary op a b iha ihb =>
    cases op with
    | product | quotient => simp only [rename_binary, factorsAs, iha, ihb, List.map_append]
    | _ => cases inverted <;> rfl
  | _ => cases inverted <;> simp [factorsAs]

theorem isSumLike_rename (s : Renaming) (t : Expr) : isSumLike (t.rename s) = isSumLike t := by
  cases t with
  | binary op a b => cases op <;> rfl
  | _ => simp [isSumLike]

theorem joinSum_rename (s : Renaming) (a b : Expr) :
    joinSum (a.rename s) (b.rename s) = (joinSum a b).rename s := by
  cases b with
  | binary op m t =>
    cases op with
    | product =>
      simp only [rename_binary, joinSum, isInt_rename, isSumLike_rename]
      split_ifs <;> rfl
    | _ => rfl
  | _ => simp [joinSum]

theorem isProductLike_rename (s : Renaming) (t : Expr) : isProductLike (t.rename s) = isProductLike t := by
  cases t with
  | binary op a b => cases op <;> rfl
  | _ => simp [isProductLike]

theorem joinProduct_rename (s : Renaming) (a b : Expr) :
    joinProduct (a.rename s) (b.rename s) = (joinProduct a b).rename s := by
  cases b with
  | binary op t n =>
    cases op with
    | power =>
      simp only [rename_binary, joinProduct, isInt_rename, isProductLike_rename]
      split_ifs <;> rfl
    | _ => rfl
  | _ => simp [joinProduct]

theorem termChain?_rename (s : Renaming) (t : Expr) :
    termChain? (t.rename s) =
      (termChain? t).map fun chain => ⟨chain.terms.map (rename s), chain.join⟩ := by
  cases t with
  | binary op a b =>
    cases op with
    | sum | difference =>
      simp [termChain?, summands, summandsAs, summandsAs_rename]
    | product | quotient =>
      simp [termChain?, factors, factorsAs, factorsAs_rename]
    | power => rfl
  | _ => simp [termChain?]

theorem join_rename (s : Renaming) {chain : TermChain} (h : termChain? t = some chain)
    (a b : Expr) : chain.join (a.rename s) (b.rename s) = (chain.join a b).rename s := by
  unfold termChain? at h
  split at h <;> cases h
  · exact joinSum_rename s a b
  · exact joinSum_rename s a b
  · exact joinProduct_rename s a b
  · exact joinProduct_rename s a b

theorem hangGroups_rename {join : Expr → Expr → Expr}
    (h : ∀ a b, join (a.rename s) (b.rename s) = (join a b).rename s) (groups : List (List Expr)) :
    hangGroups join (groups.map (List.map (rename s))) =
      (hangGroups join groups).map (rename s) := by
  have hparts : (groups.map (List.map (rename s))).filterMap (Chain.linear join) =
      (groups.filterMap (Chain.linear join)).map (rename s) := by
    rw [List.filterMap_map, List.map_filterMap]
    exact List.filterMap_congr fun group _ => Chain.linear_map join h group
  rw [hangGroups, hparts, Chain.linear_map join h, hangGroups]

theorem changed_rename (s : Renaming) (t : Expr) (result : Option Expr) :
    changed (t.rename s) (result.map (rename s)) = (changed t result).rename s := by
  cases result with
  | none => rfl
  | some u =>
    rw [Option.map_some, changed, changed, same_rename]
    split_ifs <;> rfl

theorem canonicalSort_rename (level : SortLevel) (s : Renaming) (t : Expr) :
    canonicalSort level (t.rename s) = (canonicalSort level t).rename s := by
  cases hchain : termChain? t with
  | none => simp [canonicalSort, termChain?_rename, hchain]
  | some chain =>
    have hgroups : level.groups (chain.terms.map (rename s)) =
        (level.groups chain.terms).map (List.map (rename s)) :=
      Chain.groups_map (level.agree_rename s) chain.terms
    simp only [canonicalSort, termChain?_rename, hchain, Option.map_some, hgroups,
      hangGroups_rename (join_rename s hchain), changed_rename, List.length_map]
    split_ifs <;> rfl

theorem balance_rename (s : Renaming) (t : Expr) : balance (t.rename s) = (balance t).rename s := by
  cases hchain : termChain? t with
  | none => simp [balance, termChain?_rename, hchain]
  | some chain =>
    simp only [balance, termChain?_rename, hchain, Option.map_some,
      Chain.balanced_map chain.join (join_rename s hchain), changed_rename, List.length_map]
    split_ifs <;> rfl

end Rules

/-! ## The catalog -/

namespace Catalog

open Rules

/-- At the root of a tree, every standard rule commutes with renaming. -/
theorem apply_rename (s : Renaming) {level : SortLevel} {r : Rule} (hr : r ∈ standard level)
    (t : Expr) : r.apply (t.rename s) = (r.apply t).rename s := by
  have hsingle : ∀ {template : Template}, template.Respects s → ∀ t,
      Template.rewrite [template] (t.rename s) = (Template.rewrite [template] t).rename s :=
    fun h => Template.rewrite_rename (List.forall_mem_singleton.mpr h)
  simp only [standard, withDivider, List.mem_cons, List.not_mem_nil, or_false] at hr
  obtain rfl | rfl | rfl | rfl | rfl | rfl | rfl | rfl | rfl | rfl | rfl | rfl | rfl | rfl := hr
  · exact hsingle respects_negativePower t
  · exact hsingle respects_negativeMultiplier t
  · exact hsingle respects_factorialTimesNext t
  · exact hsingle respects_factorialQuotient t
  · exact Template.rewrite_rename respects_divisions t
  · exact Template.rewrite_rename respects_trigonometricFamily t
  · exact Template.rewrite_rename respects_trigonometricExpansions t
  · exact Template.rewrite_rename respects_powerFamily t
  · exact common_rename s t
  · exact hsingle respects_expandSinSum t
  · exact Template.rewrite_rename respects_collapseFamily t
  · exact longDivision_rename s t
  · exact canonicalSort_rename level s t
  · exact balance_rename s t

theorem applyEverywhere_rename (s : Renaming) {level : SortLevel} {r : Rule}
    (hr : r ∈ standard level) (t : Expr) :
    r.applyEverywhere (t.rename s) = (r.applyEverywhere t).rename s :=
  rewrite_rename (apply_rename s hr) t

end Catalog

end SymbolicAlgebra
