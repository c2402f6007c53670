import SymbolicAlgebra.Proofs.Rules.Ordering

/-!
# Sorted chains

Joining is the inverse of taking apart: the summands of joined trees are those of both, and likewise
the factors. So the terms of a rebuilt chain are the terms it was hung from. A sorted chain is made of
the sorted terms, which are grouped the same way again, so sorting a second time changes nothing.
-/

namespace SymbolicAlgebra.Rules

open SymbolicAlgebra.Expr SymbolicAlgebra.Chain

variable {t x : Expr}

theorem summandsAs_of_not_isSumLike (h : isSumLike t = false) (negated : Bool) :
    summandsAs negated t = [if negated then negate t else t] := by
  cases t with
  | binary op a b => cases op <;> first | rfl | cases h
  | _ => rfl

theorem factorsAs_of_not_isProductLike (h : isProductLike t = false) (inverted : Bool) :
    factorsAs inverted t = [if inverted then power t (int (-1)) else t] := by
  cases t with
  | binary op a b => cases op <;> first | rfl | cases h
  | _ => rfl

/-- `join` puts together what `terms` takes apart, and gives a chain again. -/
structure TakesApart (terms : Expr → List Expr) (join : Expr → Expr → Expr) : Prop where
  append : ∀ a b, terms (join a b) = terms a ++ terms b
  single : ∀ t, ∀ x ∈ terms t, terms x = [x]
  chain : ∀ a b, termChain? (join a b) = some ⟨terms (join a b), join⟩

theorem summands_joinSum (a b : Expr) : (joinSum a b).summands = a.summands ++ b.summands := by
  unfold joinSum
  split
  · next m t =>
    split_ifs with hminus
    · rw [Bool.and_eq_true, Bool.not_eq_true', isInt_iff] at hminus
      rw [summands, summandsAs, Bool.not_false, summandsAs_of_not_isSumLike hminus.2, hminus.1]
      rfl
    · rfl
  · rfl

theorem factors_joinProduct (a b : Expr) :
    (joinProduct a b).factors = a.factors ++ b.factors := by
  unfold joinProduct
  split
  · next t n =>
    split_ifs with hminus
    · rw [Bool.and_eq_true, Bool.not_eq_true', isInt_iff] at hminus
      rw [factors, factorsAs, Bool.not_false, factorsAs_of_not_isProductLike hminus.2, hminus.1]
      rfl
    · rfl
  · rfl

theorem isSumLike_of_mem_summandsAs {negated : Bool} (hx : x ∈ summandsAs negated t) :
    isSumLike x = false := by
  induction t generalizing negated with
  | binary op a b iha ihb =>
    cases op with
    | sum | difference => exact (List.mem_append.mp hx).elim iha ihb
    | _ =>
      rw [List.mem_singleton.mp hx]
      cases negated <;> rfl
  | _ =>
    rw [List.mem_singleton.mp hx]
    cases negated <;> rfl

theorem isProductLike_of_mem_factorsAs {inverted : Bool} (hx : x ∈ factorsAs inverted t) :
    isProductLike x = false := by
  induction t generalizing inverted with
  | binary op a b iha ihb =>
    cases op with
    | product | quotient => exact (List.mem_append.mp hx).elim iha ihb
    | _ =>
      rw [List.mem_singleton.mp hx]
      cases inverted <;> rfl
  | _ =>
    rw [List.mem_singleton.mp hx]
    cases inverted <;> rfl

theorem takesApart_summands : TakesApart summands joinSum where
  append := summands_joinSum
  single _ _ hx := summandsAs_of_not_isSumLike (isSumLike_of_mem_summandsAs hx) false
  chain a b := by
    unfold joinSum
    split
    · split_ifs <;> rfl
    · rfl

theorem takesApart_factors : TakesApart factors joinProduct where
  append := factors_joinProduct
  single _ _ hx := factorsAs_of_not_isProductLike (isProductLike_of_mem_factorsAs hx) false
  chain a b := by
    unfold joinProduct
    split
    · split_ifs <;> rfl
    · rfl

namespace TakesApart

variable {terms : Expr → List Expr} {join : Expr → Expr → Expr} {level : SortLevel}

/-- Taken apart again, a hung chain gives the terms it was hung from. -/
theorem hung (h : TakesApart terms join) {ts : List Expr} (ht : Hung join ts t)
    (hts : ∀ x ∈ ts, terms x = [x]) : terms t = ts := by
  induction ht with
  | leaf x => exact hts x List.mem_cons_self
  | node _ _ ihl ihr =>
    rw [List.forall_mem_append] at hts
    rw [h.append, ihl hts.1, ihr hts.2]

/-- What at least two terms are hung to is a chain of these terms again. -/
theorem termChain?_of_hung (h : TakesApart terms join) {ts : List Expr} (ht : Hung join ts t)
    (hlength : 2 ≤ ts.length) (hts : ∀ x ∈ ts, terms x = [x]) :
    termChain? t = some ⟨ts, join⟩ := by
  obtain ⟨a, b, rfl⟩ := ht.exists_join hlength
  rw [h.chain, h.hung ht hts]

theorem single_of_mem_sort (h : TakesApart terms join) (level : SortLevel) (t : Expr) :
    ∀ x ∈ level.sort (terms t), terms x = [x] := fun x hx =>
  h.single t x ((sort_perm level _).mem_iff.mp hx)

theorem terms_canonicalSort (h : TakesApart terms join)
    (hchain : termChain? t = some ⟨terms t, join⟩) (hne : canonicalSort level t ≠ t) :
    terms (canonicalSort level t) = level.sort (terms t) :=
  h.hung (hung_canonicalSort hchain hne) (h.single_of_mem_sort level t)

/-- The sorted terms are grouped as before, so the same groups are hung. -/
theorem canonicalSort_canonicalSort (h : TakesApart terms join)
    (hchain : termChain? t = some ⟨terms t, join⟩) :
    canonicalSort level (canonicalSort level t) = canonicalSort level t := by
  by_cases hsame : canonicalSort level t = t
  · rw [hsame, hsame]
  · obtain ⟨hlength, hhang⟩ := (canonicalSort_cases hchain).resolve_left hsame
    have hgroups : level.groups (level.sort (terms t)) = level.groups (terms t) :=
      groups_flatten level.agree _
    have hsorted : (level.sort (terms t)).length = (terms t).length :=
      (sort_perm level _).length_eq
    -- Two terms agree, so there are two to join and the sorted tree is a chain of the same kind.
    have htwo : 2 ≤ (level.sort (terms t)).length := by
      by_contra hshort
      exact hlength (length_groups_of_short level.agree (by omega))
    have hnext : termChain? (canonicalSort level t) = some ⟨level.sort (terms t), join⟩ :=
      h.termChain?_of_hung (hung_canonicalSort hchain hsame) htwo (h.single_of_mem_sort level t)
    rw [canonicalSort.eq_def level (canonicalSort level t), hnext]
    simp only [hgroups, hsorted, if_neg hlength, hhang, changed]
    split_ifs <;> rfl

end TakesApart

/-- The terms of a sorted chain are the sorted terms of the chain. Sorting twice is sorting once. -/
theorem terms_and_sort_canonicalSort (level : SortLevel) (t : Expr) :
    (canonicalSort level t ≠ t →
      (isSumLike t = true → (canonicalSort level t).summands = level.sort t.summands) ∧
        (isProductLike t = true → (canonicalSort level t).factors = level.sort t.factors)) ∧
      canonicalSort level (canonicalSort level t) = canonicalSort level t := by
  refine ⟨fun hne => ⟨fun hsum => ?_, fun hproduct => ?_⟩, ?_⟩
  · exact takesApart_summands.terms_canonicalSort (termChain?_of_isSumLike hsum) hne
  · exact takesApart_factors.terms_canonicalSort (termChain?_of_isProductLike hproduct) hne
  · cases hchain : termChain? t with
    | none =>
      have hsame : canonicalSort level t = t := by simp [canonicalSort, hchain]
      rw [hsame, hsame]
    | some chain =>
      obtain ⟨terms, join⟩ := chain
      obtain ⟨rfl, rfl⟩ | ⟨rfl, rfl⟩ := eq_of_termChain? hchain
      · exact takesApart_summands.canonicalSort_canonicalSort hchain
      · exact takesApart_factors.canonicalSort_canonicalSort hchain

/-- `x - (y - (x + -1 * (y + z)))` and `x / (y / (x * (y * z) ^ -1))`: what is subtracted or divided
by twice is a term again, and the negated sum and the inverted product stay whole. -/
theorem terms_and_sort_canonicalSort_nested :
    let negated := negate (sum (var "y") (var "z"))
    let inverted := power (product (var "y") (var "z")) (int (-1))
    let s := difference (var "x") (difference (var "y") (sum (var "x") negated))
    let q := quotient (var "x") (quotient (var "y") (product (var "x") inverted))
    (canonicalSort .exact s ≠ s ∧ isSumLike s = true ∧
        (canonicalSort .exact s).summands = [var "x", var "x", negate (var "y"), negated] ∧
        canonicalSort .exact (canonicalSort .exact s) = canonicalSort .exact s) ∧
      canonicalSort .exact q ≠ q ∧ isProductLike q = true ∧
        (canonicalSort .exact q).factors =
          [var "x", var "x", power (var "y") (int (-1)), inverted] ∧
        canonicalSort .exact (canonicalSort .exact q) = canonicalSort .exact q := by
  intro negated inverted s q
  have hs : canonicalSort .exact s =
      sum (difference (sum (var "x") (var "x")) (var "y")) negated := rfl
  have hq : canonicalSort .exact q =
      product (quotient (product (var "x") (var "x")) (var "y")) inverted := rfl
  have hsne : canonicalSort .exact s ≠ s := by simp [hs, s]
  have hqne : canonicalSort .exact q ≠ q := by simp [hq, q]
  obtain ⟨hsterms, hstwice⟩ := terms_and_sort_canonicalSort .exact s
  obtain ⟨hqterms, hqtwice⟩ := terms_and_sort_canonicalSort .exact q
  exact ⟨⟨hsne, rfl, (hsterms hsne).1 rfl, hstwice⟩, hqne, rfl, (hqterms hqne).2 rfl, hqtwice⟩

end SymbolicAlgebra.Rules
