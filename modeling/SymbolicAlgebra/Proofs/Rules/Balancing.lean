import Mathlib.Data.Nat.Log
import SymbolicAlgebra.Proofs.Expr.Congruence
import SymbolicAlgebra.Proofs.Rules.Sorting

/-!
# Balanced chains

The depth of a term is the number of joins above it. A join puts the terms of both its sides one
join deeper, and halving a list of `n` terms takes one from `⌊log₂ n⌋` and one from `⌈log₂ n⌉`. So
the depths in a balanced chain lie between the two, and the deepest term is at `⌈log₂ n⌉`.

The terms of a balanced chain are those it was hung from. Hung evenly again they give the same
chain, so balancing a second time changes nothing.
-/

namespace SymbolicAlgebra

namespace Expr

/-- How many nodes with one of the operators stand above each term of a chain of these operators,
from the first term to the last. -/
def depths (joints : List Operator) : Expr → List ℕ
  | binary op a b =>
    if op ∈ joints then (depths joints a ++ depths joints b).map (· + 1) else [0]
  | _ => [0]

theorem depths_eq_of_same (joints : List Operator) {t u : Expr} (h : (t == u) = true) :
    t.depths joints = u.depths joints := by
  induction t generalizing u with
  | binary op a b iha ihb =>
    obtain ⟨a', b', rfl, ha, hb⟩ := binary_same_iff.mp h
    rw [depths, depths, iha ha, ihb hb]
  | _ => cases u <;> first | rfl | cases h

end Expr

namespace Chain

/-- The depths of `n` terms that are hung evenly. -/
structure EvenDepths (n : ℕ) (depths : List ℕ) : Prop where
  length_eq : depths.length = n
  log_le : ∀ d ∈ depths, Nat.log 2 n ≤ d
  le_clog : ∀ d ∈ depths, d ≤ Nat.clog 2 n
  clog_mem : Nat.clog 2 n ∈ depths

theorem evenDepths_one : EvenDepths 1 [0] where
  length_eq := rfl
  log_le := by simp
  le_clog := by simp
  clog_mem := by simp

/-- The right half is the larger one if they differ, so it has the deepest term. -/
theorem EvenDepths.join {n : ℕ} {l r : List ℕ} (hn : 2 ≤ n) (hl : EvenDepths (n / 2) l)
    (hr : EvenDepths (n - n / 2) r) : EvenDepths n ((l ++ r).map (· + 1)) := by
  have hlog : Nat.log 2 n = Nat.log 2 (n / 2) + 1 := Nat.log_of_one_lt_of_le (by decide) hn
  have hclog : Nat.clog 2 n = Nat.clog 2 (n - n / 2) + 1 := by
    rw [Nat.clog_of_two_le (by decide) hn]
    congr 2
    omega
  have hhalf : n / 2 ≤ n - n / 2 := by omega
  have hlogs : Nat.log 2 (n / 2) ≤ Nat.log 2 (n - n / 2) := Nat.log_mono_right hhalf
  have hclogs : Nat.clog 2 (n / 2) ≤ Nat.clog 2 (n - n / 2) := Nat.clog_mono_right 2 hhalf
  refine ⟨?_, ?_, ?_, ?_⟩
  · rw [List.length_map, List.length_append, hl.length_eq, hr.length_eq]
    omega
  · rw [List.forall_mem_map, List.forall_mem_append, hlog]
    exact ⟨fun d hd => Nat.succ_le_succ (hl.log_le d hd),
      fun d hd => Nat.succ_le_succ (hlogs.trans (hr.log_le d hd))⟩
  · rw [List.forall_mem_map, List.forall_mem_append, hclog]
    exact ⟨fun d hd => Nat.succ_le_succ ((hl.le_clog d hd).trans hclogs),
      fun d hd => Nat.succ_le_succ (hr.le_clog d hd)⟩
  · rw [hclog]
    exact List.mem_map_of_mem (List.mem_append_right l hr.clog_mem)

/-- If joining puts the terms of both sides one join deeper, evenly hung terms have even depths. -/
theorem exists_evenDepths {α : Type} {join : α → α → α} {depths : α → List ℕ} {terms : List α}
    (hjoin : ∀ a b, depths (join a b) = (depths a ++ depths b).map (· + 1))
    (hterms : ∀ x ∈ terms, depths x = [0]) (hne : terms ≠ []) :
    ∃ t, balanced join terms = some t ∧ EvenDepths terms.length (depths t) := by
  refine (exists_balanced
    (motive := fun ts t => (∀ x ∈ ts, depths x = [0]) → EvenDepths ts.length (depths t))
    (fun x hx => ?_) (fun ts l r htwo hl hr hts => ?_) hne).imp fun t ht => ⟨ht.1, ht.2 hterms⟩
  · rw [hx x List.mem_cons_self]
    exact evenDepths_one
  · have hleft := hl fun x hx => hts x (List.mem_of_mem_take hx)
    have hright := hr fun x hx => hts x (List.mem_of_mem_drop hx)
    rw [List.length_take, Nat.min_eq_left (by omega)] at hleft
    rw [List.length_drop] at hright
    rw [hjoin]
    exact hleft.join htwo hright

end Chain

namespace Rules

open SymbolicAlgebra.Expr SymbolicAlgebra.Chain

variable {t : Expr}

theorem depths_of_not_isSumLike (h : isSumLike t = false) :
    depths [.sum, .difference] t = [0] := by
  cases t with
  | binary op a b => cases op <;> first | rfl | cases h
  | _ => rfl

theorem depths_of_not_isProductLike (h : isProductLike t = false) :
    depths [.product, .quotient] t = [0] := by
  cases t with
  | binary op a b => cases op <;> first | rfl | cases h
  | _ => rfl

/-- A negated summand has depth zero, and so has what is subtracted in its place. -/
theorem depths_joinSum (a b : Expr) :
    depths [.sum, .difference] (joinSum a b) =
      (depths [.sum, .difference] a ++ depths [.sum, .difference] b).map (· + 1) := by
  unfold joinSum
  split
  · next m t =>
    split_ifs with hminus
    · rw [Bool.and_eq_true, Bool.not_eq_true'] at hminus
      have hproduct : depths [.sum, .difference] (product m t) = [0] := rfl
      rw [hproduct, ← depths_of_not_isSumLike hminus.2]
      rfl
    · rfl
  · rfl

theorem depths_joinProduct (a b : Expr) :
    depths [.product, .quotient] (joinProduct a b) =
      (depths [.product, .quotient] a ++ depths [.product, .quotient] b).map (· + 1) := by
  unfold joinProduct
  split
  · next t n =>
    split_ifs with hminus
    · rw [Bool.and_eq_true, Bool.not_eq_true'] at hminus
      have hpower : depths [.product, .quotient] (power t n) = [0] := rfl
      rw [hpower, ← depths_of_not_isProductLike hminus.2]
      rfl
    · rfl
  · rfl

/-- Balancing gives the evenly hung chain, except that a tree which is the same already is kept. -/
theorem balance_same {terms : List Expr} {join : Expr → Expr → Expr} {u : Expr}
    (hchain : termChain? t = some ⟨terms, join⟩) (hlength : 3 ≤ terms.length)
    (hu : balanced join terms = some u) : (u == balance t) = true := by
  simp only [balance, hchain, if_neg (Nat.not_lt.mpr hlength), hu, changed]
  split_ifs with hsame
  · exact hsame
  · exact BEq.rfl

theorem evenDepths_balance {terms : List Expr} {join : Expr → Expr → Expr}
    {joints : List Operator}
    (hjoin : ∀ a b, depths joints (join a b) = (depths joints a ++ depths joints b).map (· + 1))
    (hterms : ∀ x ∈ terms, depths joints x = [0])
    (hchain : termChain? t = some ⟨terms, join⟩) (hlength : 3 ≤ terms.length) :
    EvenDepths terms.length (depths joints (balance t)) := by
  obtain ⟨u, hu, heven⟩ := exists_evenDepths hjoin hterms
    (List.ne_nil_of_length_pos (Nat.lt_of_lt_of_le (by decide) hlength))
  rwa [← depths_eq_of_same joints (balance_same hchain hlength hu)]

namespace TakesApart

variable {terms : Expr → List Expr} {join : Expr → Expr → Expr}

theorem terms_balance (h : TakesApart terms join)
    (hchain : termChain? t = some ⟨terms t, join⟩) : terms (balance t) = terms t := by
  obtain hsame | ⟨-, hbalanced⟩ := balance_cases hchain
  · rw [hsame]
  · exact h.hung (hung_balanced hbalanced) (h.single t)

/-- A balanced chain has the terms it was hung from, so the same tree is hung once more. -/
theorem balance_balance (h : TakesApart terms join)
    (hchain : termChain? t = some ⟨terms t, join⟩) : balance (balance t) = balance t := by
  obtain hsame | ⟨hlength, hbalanced⟩ := balance_cases hchain
  · rw [hsame, hsame]
  · have hnext : termChain? (balance t) = some ⟨terms t, join⟩ :=
      h.termChain?_of_hung (hung_balanced hbalanced) (Nat.le_of_succ_le hlength) (h.single t)
    rw [balance.eq_def (balance t), hnext]
    simp only [if_neg (Nat.not_lt.mpr hlength), hbalanced, changed]
    split_ifs <;> rfl

end TakesApart

/-- Balancing a chain of `n ≥ 3` terms keeps its terms in their order. Each of them comes to lie at
most `⌈log₂ n⌉` joins below the root, and at least one lies just there. Balancing twice is balancing
once. -/
theorem terms_and_depths_balance (t : Expr) :
    (isSumLike t = true → 3 ≤ t.summands.length →
        (balance t).summands = t.summands ∧
          EvenDepths t.summands.length (depths [.sum, .difference] (balance t))) ∧
      (isProductLike t = true → 3 ≤ t.factors.length →
        (balance t).factors = t.factors ∧
          EvenDepths t.factors.length (depths [.product, .quotient] (balance t))) ∧
      balance (balance t) = balance t := by
  refine ⟨fun hsum hlength => ?_, fun hproduct hlength => ?_, ?_⟩
  · have hchain := termChain?_of_isSumLike hsum
    have hterms : ∀ x ∈ t.summands, depths [.sum, .difference] x = [0] := fun x hx =>
      depths_of_not_isSumLike (isSumLike_of_mem_summandsAs hx)
    exact ⟨takesApart_summands.terms_balance hchain,
      evenDepths_balance depths_joinSum hterms hchain hlength⟩
  · have hchain := termChain?_of_isProductLike hproduct
    have hterms : ∀ x ∈ t.factors, depths [.product, .quotient] x = [0] := fun x hx =>
      depths_of_not_isProductLike (isProductLike_of_mem_factorsAs hx)
    exact ⟨takesApart_factors.terms_balance hchain,
      evenDepths_balance depths_joinProduct hterms hchain hlength⟩
  · cases hchain : termChain? t with
    | none =>
      have hsame : balance t = t := by simp [balance, hchain]
      rw [hsame, hsame]
    | some chain =>
      obtain ⟨terms, join⟩ := chain
      obtain ⟨rfl, rfl⟩ | ⟨rfl, rfl⟩ := eq_of_termChain? hchain
      · exact takesApart_summands.balance_balance hchain
      · exact takesApart_factors.balance_balance hchain

/-- `x + (y - z) - (u + -1 * (y + z))` and `x / (y / (x * (y * z) ^ -1))`. A negated term is subtracted
again where it comes to stand on the right of a join, and stays a product on the left. -/
theorem terms_and_depths_balance_negated :
    let negated := negate (sum (var "y") (var "z"))
    let inverted := power (product (var "y") (var "z")) (int (-1))
    let s := difference (sum (var "x") (difference (var "y") (var "z"))) (sum (var "u") negated)
    let q := quotient (var "x") (quotient (var "y") (product (var "x") inverted))
    (isSumLike s = true ∧ s.summands.length = 5 ∧
        balance s = sum (sum (var "x") (var "y"))
          (sum (negate (var "z")) (difference (negate (var "u")) negated)) ∧
        depths [.sum, .difference] (balance s) = [2, 2, 2, 3, 3] ∧
        (balance s).summands = s.summands ∧
        EvenDepths 5 (depths [.sum, .difference] (balance s)) ∧
        balance (balance s) = balance s) ∧
      isProductLike q = true ∧ q.factors.length = 4 ∧
        balance q = product (quotient (var "x") (var "y")) (product (var "x") inverted) ∧
        depths [.product, .quotient] (balance q) = [2, 2, 2, 2] ∧
        (balance q).factors = q.factors ∧
        EvenDepths 4 (depths [.product, .quotient] (balance q)) ∧
        balance (balance q) = balance q := by
  intro negated inverted s q
  obtain ⟨hsum, -, hstwice⟩ := terms_and_depths_balance s
  obtain ⟨-, hproduct, hqtwice⟩ := terms_and_depths_balance q
  obtain ⟨hsummands, hsdepths⟩ := hsum rfl (by decide)
  obtain ⟨hfactors, hqdepths⟩ := hproduct rfl (by decide)
  refine ⟨⟨rfl, rfl, ?_, ?_, hsummands, hsdepths, hstwice⟩, rfl, rfl, ?_, ?_, hfactors, hqdepths,
    hqtwice⟩
  -- The lengths that are halved reduce only where no name stands for a part of the tree.
  all_goals
    simp only [s, q, negated, inverted]
    rfl

end Rules

end SymbolicAlgebra
