import SymbolicAlgebra.Proofs.Expr.Keys
import SymbolicAlgebra.Proofs.Grouping
import SymbolicAlgebra.Proofs.Rules.Ordering

/-!
# Grouping at the sort levels

At every level terms are grouped by an equivalence, so the groups are a stable partition of the
list. From `exact` over `shape` to `loose` the equivalences get coarser: the groups of a level are
contained in those of the next, and a chain in which no two terms agree at `loose` stays as it is at
every level.
-/

namespace SymbolicAlgebra.SortLevel

open SymbolicAlgebra.Rules

variable {level : SortLevel} {terms : List Expr}

theorem equivalence_agree (level : SortLevel) :
    Equivalence fun t u => level.agree t u = true := by
  cases level with
  | exact => exact ⟨fun _ => BEq.rfl, BEq.symm, BEq.trans⟩
  | shape => exact ⟨fun _ => BEq.rfl, BEq.symm, BEq.trans⟩
  | loose => exact ⟨fun _ => BEq.rfl, BEq.symm, BEq.trans⟩

/-- The groups as lists of positions. -/
def places (level : SortLevel) (terms : List Expr) : List (List (Fin terms.length)) :=
  Chain.places level.agree terms

theorem isStablePartition_places (level : SortLevel) (terms : List Expr) :
    Chain.IsStablePartition level.agree terms (level.places terms) :=
  Chain.isStablePartition_places level.equivalence_agree terms

/-- Any keys will do that are equal just for terms that agree. -/
theorem groupsByKey_eq_groups {κ : Type} [DecidableEq κ] {key : Expr → κ}
    (h : ∀ t ∈ terms, ∀ u ∈ terms, key t = key u ↔ level.agree t u = true) :
    Chain.groupsByKey key terms = level.groups terms := by
  rw [Chain.groupsByKey_eq]
  refine Chain.groups_congr fun t ht u hu => ?_
  rw [Bool.eq_iff_iff, Chain.keysAgree, decide_eq_true_eq, h t ht u hu]

/-- Grouping is a stable partition: no group is empty, two positions are in one group just if their
terms agree, each group has the order of the list and the groups that of their first members. The
sorted list is the groups in a row, so it has all the terms, and to group it again changes nothing.
A stable sort by the order in which keys are first seen, cut where the key changes, gives the same
groups. -/
theorem groups_stable_partition (level : SortLevel) (terms : List Expr) :
    level.groups terms = (level.places terms).map (List.map terms.get) ∧
      Chain.IsStablePartition level.agree terms (level.places terms) ∧
      level.sort terms = (level.groups terms).flatten ∧
      (level.sort terms).Perm terms ∧
      level.groups (level.sort terms) = level.groups terms ∧
      ∀ {κ : Type} [DecidableEq κ] (key : Expr → κ),
        (∀ t ∈ terms, ∀ u ∈ terms, key t = key u ↔ level.agree t u = true) →
          Chain.groupsByKey key terms = level.groups terms :=
  ⟨Chain.groups_eq_map_places _ _, isStablePartition_places level terms, rfl,
    Chain.groups_flatten_perm _ _, Chain.groups_flatten _ _, fun _ h => groupsByKey_eq_groups h⟩

example :
    let x := Expr.var "x"
    let y := Expr.var "y"
    loose.groups [x, y, x, y.negate, y] = [[x, x], [y, y.negate, y]] := by
  rfl

/-- What is hashed of a term is such a key. -/
theorem groupsByKey_tokens (h : level = shape → ∀ t ∈ terms, t.TensorsFit) :
    Chain.groupsByKey level.tokens terms = level.groups terms :=
  groupsByKey_eq_groups fun t ht u hu =>
    (agree_iff_tokens_eq fun hlevel => ⟨h hlevel t ht, h hlevel u hu⟩).symm

/-! ## Coarser levels -/

theorem existsUnique_coarser_place {c : List (Fin terms.length)} (hc : c ∈ level.places terms) :
    ∃! c', c' ∈ level.coarser.places terms ∧ c ⊆ c' :=
  (isStablePartition_places level terms).existsUnique_subset
    (isStablePartition_places level.coarser terms) (fun _ _ => agree_coarser) hc

theorem agree_loose (level : SortLevel) {t u : Expr} (h : level.agree t u = true) :
    loose.agree t u = true := by
  cases level with
  | exact => exact agree_coarser (agree_coarser h)
  | shape => exact agree_coarser h
  | loose => exact h

theorem canonicalSort_eq_self_of_loose {t : Expr} {chain : TermChain}
    (ht : termChain? t = some chain)
    (h : chain.terms.Pairwise (loose.agree · · = false)) (level : SortLevel) :
    canonicalSort level t = t := by
  have hlevel : chain.terms.Pairwise (level.agree · · = false) :=
    h.imp fun hloose => Bool.eq_false_iff.mpr fun hagree => by
      rw [level.agree_loose hagree] at hloose
      cases hloose
  exact (canonicalSort_cases ht).resolve_right fun hne =>
    hne.1 (Chain.length_groups_eq_iff.mpr hlevel)

/-- Terms agree just if what is hashed of them is the same, and the levels get coarser: terms with
the same key have the same key at the next level, terms that agree do so there too, and each group
is contained in just one group of the next level. A chain in which no two terms agree at `loose`
stays as it is at every level. -/
theorem levels_coarsen (level : SortLevel) :
    (∀ t u, (level = shape → t.TensorsFit ∧ u.TensorsFit) →
      (level.agree t u = true ↔ level.tokens t = level.tokens u)) ∧
      (∀ t u, level.tokens t = level.tokens u → level.coarser.tokens t = level.coarser.tokens u) ∧
      (∀ t u, level.agree t u = true → level.coarser.agree t u = true) ∧
      (∀ terms, ∀ c ∈ level.places terms, ∃! c', c' ∈ level.coarser.places terms ∧ c ⊆ c') ∧
      ∀ t chain, termChain? t = some chain → chain.terms.Pairwise (loose.agree · · = false) →
        canonicalSort level t = t :=
  ⟨fun _ _ hfit => agree_iff_tokens_eq hfit, fun _ _ => tokens_coarser_eq,
    fun _ _ => agree_coarser, fun _ _ => existsUnique_coarser_place,
    fun _ _ ht h => canonicalSort_eq_self_of_loose ht h level⟩

end SymbolicAlgebra.SortLevel
