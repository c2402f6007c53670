import Mathlib.Data.Nat.Find
import Mathlib.Data.Nat.SuccPred
import Mathlib.Logic.Function.Iterate
import Mathlib.Tactic.WLOG
import SymbolicAlgebra.Proofs.Expr.Sameness
import SymbolicAlgebra.Simplifier

/-!
# Which tree a run returns

The trees of a run are the iterates of the pass up to the index at which the run stops: the first
iterate that is the same as an earlier one, or the pass limit. The result is the least complex of
them, and of equally complex ones the latest. At a fixpoint the last two trees are the same, and the
earlier of the two is kept.
-/

namespace SymbolicAlgebra.Simplifier

/-- The index at which a run of at most `limit` steps ends. -/
structure StopsAt (step : Expr → Expr) (limit : ℕ) (t : Expr) (m : ℕ) : Prop where
  le_limit : m ≤ limit
  fresh : ∀ j i, j < i → i < m → (step^[i] t == step^[j] t) = false
  stop : m = limit ∨ ∃ j < m, (step^[m] t == step^[j] t) = true

/-- Among the first `m + 1` trees, number `k` is the least complex one and the latest such. -/
structure LatestLeast (trees : ℕ → Expr) (m k : ℕ) : Prop where
  le : k ≤ m
  least : ∀ j ≤ m, (trees k).complexity ≤ (trees j).complexity
  latest : ∀ j ≤ m, k < j → (trees k).complexity < (trees j).complexity

theorem StopsAt.unique {step : Expr → Expr} {limit : ℕ} {t : Expr} {m n : ℕ}
    (hm : StopsAt step limit t m) (hn : StopsAt step limit t n) : m = n := by
  by_contra hne
  wlog hlt : m < n generalizing m n
  · exact this hn hm (Ne.symm hne) (by omega)
  obtain hlimit | ⟨j, hj, hsame⟩ := hm.stop
  · have := hn.le_limit
    omega
  · rw [hn.fresh j m hj hlt] at hsame
    exact Bool.false_ne_true hsame

namespace LatestLeast

variable {trees : ℕ → Expr} {m k : ℕ}

theorem better_succ (h : LatestLeast trees m k) :
    ∃ i, LatestLeast trees (m + 1) i ∧ better (trees k) (trees (m + 1)) = trees i := by
  by_cases hle : (trees (m + 1)).complexity ≤ (trees k).complexity
  · refine ⟨m + 1, ⟨le_rfl, fun j hj => ?_, fun j hj hlt => by omega⟩, if_pos hle⟩
    obtain rfl | hj := Nat.le_succ_iff_eq_or_le.mp hj
    · exact le_rfl
    · exact hle.trans (h.least j hj)
  · refine ⟨k, ⟨h.le.trans m.le_succ, fun j hj => ?_, fun j hj hlt => ?_⟩, if_neg hle⟩
    · obtain rfl | hj := Nat.le_succ_iff_eq_or_le.mp hj
      · exact (not_le.mp hle).le
      · exact h.least j hj
    · obtain rfl | hj := Nat.le_succ_iff_eq_or_le.mp hj
      · exact not_le.mp hle
      · exact h.latest j hj hlt

/-- A further tree that is the same as the last one changes the choice by a same tree at most. -/
theorem succ_same (h : LatestLeast trees m k) (hsame : (trees (m + 1) == trees m) = true) :
    ∃ i, LatestLeast trees (m + 1) i ∧ (trees k == trees i) = true := by
  have hcomplexity : (trees (m + 1)).complexity = (trees m).complexity :=
    Expr.complexity_eq_of_same hsame
  obtain ⟨i, hi, hbetter⟩ := h.better_succ
  refine ⟨i, hi, ?_⟩
  obtain rfl | hlt := h.le.eq_or_lt
  · rw [better, if_pos hcomplexity.le] at hbetter
    rw [← hbetter]
    exact BEq.symm hsame
  · have hmore := h.latest m le_rfl hlt
    rw [better, if_neg (by omega)] at hbetter
    rw [← hbetter]
    exact BEq.rfl

end LatestLeast

theorem foldl_better (trees : ℕ → Expr) (l : ℕ) :
    ∃ k, LatestLeast trees l k ∧
      ((List.range' 1 l).map trees).foldl better (trees 0) = trees k := by
  induction l with
  | zero =>
    refine ⟨0, ⟨le_rfl, fun j hj => ?_, fun j hj hlt => by omega⟩, rfl⟩
    rw [Nat.le_zero.mp hj]
  | succ l ih =>
    obtain ⟨k, hk, hfold⟩ := ih
    obtain ⟨i, hi, hbetter⟩ := hk.better_succ
    refine ⟨i, hi, ?_⟩
    rw [List.range'_1_concat, List.map_append, List.foldl_append, hfold, ← hbetter,
      Nat.add_comm 1 l]
    rfl

/-- The visits of a run that has made `k` steps without a repetition. `seen` holds the trees up to
now; it is only ever asked whether a tree is the same as one of them. -/
theorem visits_eq (step : Expr → Expr) (t : Expr) (n k : ℕ) (seen : List Expr)
    (hseen : ∀ x : Expr, seen.any (x == ·) = true ↔ ∃ j ≤ k, (x == step^[j] t) = true)
    (hfresh : ∀ j i, j < i → i ≤ k → (step^[i] t == step^[j] t) = false) :
    ∃ m l, StopsAt step (k + n) t m ∧
      (visits step n seen (step^[k] t)).map (·.before) =
        (List.range' k (m - k)).map (step^[·] t) ∧
      candidates (visits step n seen (step^[k] t)) =
        (List.range' (k + 1) l).map (step^[·] t) ∧
      (k + l = m ∨ k + l + 1 = m ∧ (step^[k + l + 1] t == step^[k + l] t) = true) := by
  induction n generalizing k seen with
  | zero =>
    refine ⟨k, 0, ⟨le_rfl, fun j i hj hi => hfresh j i hj hi.le, Or.inl rfl⟩, ?_, rfl, Or.inl rfl⟩
    simp [visits]
  | succ n ih =>
    have hnext : step (step^[k] t) = step^[k + 1] t := (Function.iterate_succ_apply' step k t).symm
    simp only [visits, hnext]
    by_cases hfix : (step^[k + 1] t == step^[k] t) = true
    · rw [if_pos hfix]
      refine ⟨k + 1, 0, ⟨by omega, fun j i hj hi => hfresh j i hj (by omega),
        Or.inr ⟨k, k.lt_succ_self, hfix⟩⟩, ?_, rfl, Or.inr ⟨rfl, hfix⟩⟩
      simp
    · rw [if_neg hfix]
      by_cases hrepeat : seen.any (step^[k + 1] t == ·) = true
      · rw [if_pos hrepeat]
        obtain ⟨j, hj, hsame⟩ := (hseen _).mp hrepeat
        refine ⟨k + 1, 1, ⟨by omega, fun j i hj hi => hfresh j i hj (by omega),
          Or.inr ⟨j, by omega, hsame⟩⟩, ?_, rfl, Or.inl rfl⟩
        simp
      · rw [if_neg hrepeat]
        have hnew : ∀ j ≤ k, (step^[k + 1] t == step^[j] t) = false := by
          intro j hj
          by_contra hsame
          exact hrepeat ((hseen _).mpr ⟨j, hj, by simpa using hsame⟩)
        have hseen' : ∀ x : Expr, (step^[k + 1] t :: seen).any (x == ·) = true ↔
            ∃ j ≤ k + 1, (x == step^[j] t) = true := by
          intro x
          rw [List.any_cons, Bool.or_eq_true, hseen x]
          constructor
          · rintro (hx | ⟨j, hj, hx⟩)
            · exact ⟨k + 1, le_rfl, hx⟩
            · exact ⟨j, by omega, hx⟩
          · rintro ⟨j, hj, hx⟩
            obtain rfl | hj := Nat.le_succ_iff_eq_or_le.mp hj
            · exact Or.inl hx
            · exact Or.inr ⟨j, hj, hx⟩
        have hfresh' : ∀ j i, j < i → i ≤ k + 1 → (step^[i] t == step^[j] t) = false := by
          intro j i hj hi
          obtain rfl | hi := Nat.le_succ_iff_eq_or_le.mp hi
          · exact hnew j (by omega)
          · exact hfresh j i hj hi
        obtain ⟨m, l, hstop, hbefore, hcandidates, hlast⟩ := ih (k + 1) _ hseen' hfresh'
        have hlt : k + 1 ≤ m := by omega
        refine ⟨m, l + 1, ?_, ?_, ?_, ?_⟩
        · rwa [show k + (n + 1) = k + 1 + n by omega]
        · rw [List.map_cons, hbefore, show m - k = m - (k + 1) + 1 by omega, List.range'_succ,
            List.map_cons]
        · rw [List.range'_succ, List.map_cons, ← hcandidates]
          rfl
        · rw [show k + (l + 1) = k + 1 + l by omega]
          exact hlast

/-- A run passes over the iterates before its stop, and its result is chosen from them and, unless
the stop is a fixpoint, the iterate at the stop. -/
theorem history_eq (s : Simplifier) (t : Expr) :
    ∃ m l, StopsAt s.pass s.settings.maxPasses t m ∧
      (s.history t).map (·.before) = (List.range m).map (s.pass^[·] t) ∧
      candidates (s.history t) = (List.range' 1 l).map (s.pass^[·] t) ∧
      (l = m ∨ l + 1 = m ∧ (s.pass^[l + 1] t == s.pass^[l] t) = true) := by
  obtain ⟨m, l, hstop, hbefore, hcandidates, hlast⟩ :=
    visits_eq s.pass t s.settings.maxPasses 0 [t] (by simp) (fun j i hj hi => by omega)
  refine ⟨m, l, by simpa using hstop, ?_, hcandidates, by simpa using hlast⟩
  rw [List.range_eq_range']
  exact hbefore

theorem simplify_eq_iterate (s : Simplifier) (t : Expr) :
    ∃ k, k ≤ (s.history t).length ∧ s.simplify t = s.pass^[k] t := by
  obtain ⟨m, l, hstop, hbefore, hcandidates, hlast⟩ := s.history_eq t
  obtain ⟨k, hk, hfold⟩ := foldl_better (s.pass^[·] t) l
  refine ⟨k, ?_, ?_⟩
  · have hlength := congrArg List.length hbefore
    simp only [List.length_map, List.length_range] at hlength
    have := hk.le
    omega
  · rw [simplify, hcandidates]
    exact hfold

/-- The trees that a run passes over before it first comes to its result. -/
def beforeResult (s : Simplifier) (t : Expr) : List Expr :=
  ((s.history t).map (·.before)).takeWhile fun u => !(u == s.simplify t)

theorem exists_iterate_same_simplify (s : Simplifier) (t : Expr) :
    ∃ k, (s.pass^[k] t == s.simplify t) = true ∧ ∀ i < k, s.pass^[i] t ∈ s.beforeResult t := by
  obtain ⟨m, l, -, hbefore, -, -⟩ := s.history_eq t
  obtain ⟨n, hn, hsimplify⟩ := s.simplify_eq_iterate t
  have hexists : ∃ k, (s.pass^[k] t == s.simplify t) = true := by
    refine ⟨n, ?_⟩
    rw [hsimplify]
    exact BEq.rfl
  have hle : Nat.find hexists ≤ m := by
    have hlength := congrArg List.length hbefore
    simp only [List.length_map, List.length_range] at hlength
    rw [← hlength]
    refine (Nat.find_min' hexists ?_).trans hn
    rw [hsimplify]
    exact BEq.rfl
  -- The result may be an iterate that comes up more than once; `Nat.find` is the first of them.
  refine ⟨Nat.find hexists, Nat.find_spec hexists, fun i hi => ?_⟩
  have hearlier : ∀ u ∈ (List.range (Nat.find hexists)).map (s.pass^[·] t),
      (!(u == s.simplify t)) = true := by
    intro u hu
    obtain ⟨j, hj, rfl⟩ := List.mem_map.mp hu
    simpa using Nat.find_min hexists (List.mem_range.mp hj)
  rw [beforeResult, hbefore, ← Nat.add_sub_cancel' hle, List.range_add, List.map_append,
    List.takeWhile_append_of_pos hearlier]
  exact List.mem_append_left _ (List.mem_map.mpr ⟨i, List.mem_range.mpr hi, rfl⟩)

theorem exists_latestLeast (s : Simplifier) (t : Expr) :
    ∃ m k, StopsAt s.pass s.settings.maxPasses t m ∧ LatestLeast (s.pass^[·] t) m k ∧
      (s.simplify t == s.pass^[k] t) = true := by
  obtain ⟨m, l, hstop, -, hcandidates, hlast⟩ := s.history_eq t
  obtain ⟨k, hk, hfold⟩ := foldl_better (s.pass^[·] t) l
  have hsimplify : s.simplify t = s.pass^[k] t := by
    rw [simplify, hcandidates]
    exact hfold
  rw [hsimplify]
  obtain rfl | ⟨rfl, hsame⟩ := hlast
  · exact ⟨l, k, hstop, hk, BEq.rfl⟩
  · obtain ⟨i, hi, hsame⟩ := hk.succ_same hsame
    exact ⟨l + 1, i, hstop, hi, hsame⟩

/-- The run stops at one index, and its result is the least complex tree up to there, of equally
complex ones the latest. -/
theorem simplify_latestLeast (s : Simplifier) (t : Expr) :
    ∃ m, (∀ n, StopsAt s.pass s.settings.maxPasses t n ↔ n = m) ∧
      (∃ k, LatestLeast (s.pass^[·] t) m k ∧ (s.simplify t == s.pass^[k] t) = true) ∧
      ∀ j ≤ m, (s.simplify t).complexity ≤ (s.pass^[j] t).complexity := by
  obtain ⟨m, k, hstop, hk, hsame⟩ := s.exists_latestLeast t
  refine ⟨m, fun n => ⟨fun hn => hn.unique hstop, fun hn => hn ▸ hstop⟩, ⟨k, hk, hsame⟩, ?_⟩
  intro j hj
  rw [Expr.complexity_eq_of_same hsame]
  exact hk.least j hj

end SymbolicAlgebra.Simplifier
