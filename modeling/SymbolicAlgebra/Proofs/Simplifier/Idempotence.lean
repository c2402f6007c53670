import SymbolicAlgebra.Proofs.Expr.Congruence
import SymbolicAlgebra.Proofs.Simplifier.Soundness

/-!
# Simplifying twice

If the rules respect sameness, the trees of a run that ends by a repetition first run along a tail
and then go round a cycle. A second run starts from the result of the first one. On the tail it
finds nothing better up to the repetition, and on the cycle it comes back to its start as the latest
of the least complex trees.
-/

namespace SymbolicAlgebra

open SymbolicAlgebra.Expr

theorem Expr.Congruent.iterate {f : Expr → Expr} (hf : Congruent f) (k : ℕ) :
    Congruent f^[k] := by
  induction k with
  | zero => exact fun _ _ h => h
  | succ k ih =>
    intro t u h
    rw [Function.iterate_succ_apply', Function.iterate_succ_apply']
    exact hf _ _ (ih t u h)

namespace Simplifier

theorem exists_repeat_of_mem_visits {step : Expr → Expr} {t : Expr} {n k : ℕ} {seen : List Expr}
    (hseen : ∀ x ∈ seen, ∃ j ≤ k, x = step^[j] t) {v : Visit}
    (hv : v ∈ visits step n seen (step^[k] t)) (hprogress : v.progress ≠ .fresh) :
    ∃ j i, j < i ∧ i ≤ k + n ∧ (step^[i] t == step^[j] t) = true := by
  induction n generalizing k seen with
  | zero => cases hv
  | succ n ih =>
    have hnext : step (step^[k] t) = step^[k + 1] t := (Function.iterate_succ_apply' step k t).symm
    simp only [visits, hnext] at hv
    split_ifs at hv with hfix hrepeat
    · exact ⟨k, k + 1, by omega, by omega, hfix⟩
    · obtain ⟨x, hx, hsame⟩ := List.any_eq_true.mp hrepeat
      obtain ⟨j, hj, rfl⟩ := hseen x hx
      exact ⟨j, k + 1, by omega, by omega, hsame⟩
    · obtain rfl | hv := List.mem_cons.mp hv
      · exact absurd rfl hprogress
      · have hseen' : ∀ x ∈ step^[k + 1] t :: seen, ∃ j ≤ k + 1, x = step^[j] t := by
          intro x hx
          obtain rfl | hx := List.mem_cons.mp hx
          · exact ⟨k + 1, le_rfl, rfl⟩
          · obtain ⟨j, hj, rfl⟩ := hseen x hx
            exact ⟨j, by omega, rfl⟩
        obtain ⟨j, i, hji, hi, hsame⟩ := ih hseen' hv
        exact ⟨j, i, hji, by omega, hsame⟩

theorem StopsAt.exists_repeat {s : Simplifier} {t : Expr} {m : ℕ}
    (hm : StopsAt s.pass s.settings.maxPasses t m)
    (h : ∃ v ∈ s.history t, v.progress ≠ .fresh) :
    ∃ j < m, (s.pass^[m] t == s.pass^[j] t) = true := by
  obtain ⟨v, hv, hprogress⟩ := h
  obtain ⟨j, i, hji, hi, hsame⟩ :=
    exists_repeat_of_mem_visits (k := 0) (fun x hx => ⟨0, le_rfl, List.mem_singleton.mp hx⟩) hv
      hprogress
  have hmi : m ≤ i := by
    by_contra hlt
    rw [hm.fresh j i hji (by omega)] at hsame
    cases hsame
  obtain hlimit | hrepeat := hm.stop
  · obtain rfl : m = i := by omega
    exact ⟨j, hji, hsame⟩
  · exact hrepeat

/-- A run up to a repetition: number `m` of its trees is the same as number `j`. -/
structure Rho (step : Expr → Expr) (t : Expr) (j m : ℕ) : Prop where
  lt : j < m
  fresh : ∀ i i', i < i' → i' < m → (step^[i'] t == step^[i] t) = false
  closed : (step^[m] t == step^[j] t) = true

namespace Rho

variable {step : Expr → Expr} {t : Expr} {j m : ℕ} (h : Rho step t j m) (hstep : Congruent step)

include h hstep

/-- From the first tree of the cycle on, the trees come back. -/
theorem period {i : ℕ} (hi : m ≤ i) : (step^[i] t == step^[i - (m - j)] t) = true := by
  have hlt := h.lt
  have hclosed := hstep.iterate (i - m) _ _ h.closed
  rwa [← Function.iterate_add_apply, ← Function.iterate_add_apply, Nat.sub_add_cancel hi,
    show i - m + j = i - (m - j) by omega] at hclosed

theorem not_same {i i' : ℕ} (hii' : i < i') (hi' : i' < i + (m - j)) (hm : i' < m + (m - j)) :
    (step^[i'] t == step^[i] t) = false := by
  have hlt := h.lt
  by_contra hsame
  replace hsame := Bool.not_eq_false _ ▸ hsame
  -- Indices from `m` on are brought back by a period, where the trees are all different.
  by_cases hwithin : i' < m
  · rw [h.fresh i i' hii' hwithin] at hsame
    cases hsame
  · have hback := h.period hstep (not_lt.mp hwithin)
    by_cases hwithin' : i < m
    · have hbelow := BEq.trans (BEq.symm hsame) hback
      rw [h.fresh (i' - (m - j)) i (by omega) hwithin'] at hbelow
      cases hbelow
    · have hback' := h.period hstep (not_lt.mp hwithin')
      have hboth := BEq.trans (BEq.trans (BEq.symm hback) hsame) hback'
      rw [h.fresh (i - (m - j)) (i' - (m - j)) (by omega) (by omega)] at hboth
      cases hboth

end Rho

section SecondRun

variable {step : Expr → Expr} {limit : ℕ} {t u : Expr} {j m k m' k' : ℕ}

/-- A second run that stays within the first one does not leave its start. -/
theorem LatestLeast.eq_zero (hk : LatestLeast (step^[·] t) m k)
    (hk' : LatestLeast (step^[·] u) m' k') (hstep : Congruent step)
    (hu : (u == step^[k] t) = true) (hle : k' + k ≤ m) : k' = 0 := by
  by_contra hne
  have hless := hk.latest (k' + k) hle (by omega)
  have hleast := hk'.least 0 (Nat.zero_le m')
  have hstart := Expr.complexity_eq_of_same hu
  have hresult := Expr.complexity_eq_of_same (hstep.iterate k' _ _ hu)
  rw [← Function.iterate_add_apply] at hresult
  simp only [Function.iterate_zero, id_eq] at hleast hless
  omega

/-- A second run from a tree of the cycle stops where it has come round. -/
theorem Rho.stop_eq_period (h : Rho step t j m) (hstep : Congruent step) (hlimit : m ≤ limit)
    (hjk : j ≤ k) (hkm : k ≤ m) (hu : (u == step^[k] t) = true)
    (hm' : StopsAt step limit u m') :
    m' = m - j ∧ (step^[m - j] u == u) = true := by
  have hlt := h.lt
  have hshift : ∀ i, (step^[i] u == step^[i + k] t) = true := by
    intro i
    rw [Function.iterate_add_apply]
    exact hstep.iterate i _ _ hu
  have hreturn : (step^[m - j] u == u) = true := by
    have hperiod := h.period hstep (i := m - j + k) (by omega)
    rw [Nat.add_sub_cancel_left] at hperiod
    exact BEq.trans (BEq.trans (hshift (m - j)) hperiod) (BEq.symm hu)
  have hle : m' ≤ m - j := by
    by_contra hgt
    have hfresh := hm'.fresh 0 (m - j) (by omega) (by omega)
    rw [Function.iterate_zero, id_eq, hreturn] at hfresh
    cases hfresh
  refine ⟨?_, hreturn⟩
  obtain hcut | ⟨i, hi, hsame⟩ := hm'.stop
  · omega
  · by_contra hne
    have hsame' := BEq.trans (BEq.trans (BEq.symm (hshift m')) hsame) (hshift i)
    rw [h.not_same hstep (by omega) (by omega) (by omega)] at hsame'
    cases hsame'

/-- A second run from a least complex tree of the tail does not go beyond the first one. -/
theorem Rho.stop_le_of_tail (h : Rho step t j m) (hstep : Congruent step) (hkj : k ≤ j)
    (hu : (u == step^[k] t) = true) (hm' : StopsAt step limit u m') : m' + k ≤ m := by
  have hlt := h.lt
  have hshift : ∀ i, k ≤ i → (step^[i - k] u == step^[i] t) = true := by
    intro i hi
    have hi' := hstep.iterate (i - k) _ _ hu
    rwa [← Function.iterate_add_apply, Nat.sub_add_cancel hi] at hi'
  by_contra hgt
  have hfresh := hm'.fresh (j - k) (m - k) (by omega) (by omega)
  rw [BEq.trans (BEq.trans (hshift m (by omega)) h.closed) (BEq.symm (hshift j hkj))] at hfresh
  cases hfresh

/-- A second run from the latest of the least complex trees ends with that tree. -/
theorem Rho.same_of_second_run (h : Rho step t j m) (hstep : Congruent step) (hlimit : m ≤ limit)
    (hk : LatestLeast (step^[·] t) m k) (hu : (u == step^[k] t) = true)
    (hm' : StopsAt step limit u m') (hk' : LatestLeast (step^[·] u) m' k') :
    (step^[k'] u == u) = true := by
  have hkm := hk.le
  have hkm' := hk'.le
  by_cases hwithin : k' + k ≤ m
  · rw [hk.eq_zero hk' hstep hu hwithin]
    exact BEq.rfl
  · have hjk : j ≤ k := by
      by_contra htail
      have := h.stop_le_of_tail hstep (by omega) hu hm'
      omega
    obtain ⟨rfl, hreturn⟩ := h.stop_eq_period hstep hlimit hjk hkm hu hm'
    obtain rfl | hlt := hkm'.eq_or_lt
    · exact hreturn
    · -- The trees before the return are in the first run too, so the return is as good as any.
      exfalso
      have hless := hk'.latest (m - j) le_rfl hlt
      have hleast := hk.least (k' + k - (m - j)) (by omega)
      have hback := h.period hstep (i := k' + k) (by omega)
      rw [Function.iterate_add_apply] at hback
      have hcycle := Expr.complexity_eq_of_same
        (BEq.trans (hstep.iterate k' _ _ hu) hback)
      have hstart := Expr.complexity_eq_of_same (BEq.trans hreturn hu)
      omega

end SecondRun

theorem congruent_applyAll {rules : List Rule} (h : ∀ r ∈ rules, Congruent r.apply) :
    Congruent (applyAll rules) := by
  induction rules with
  | nil => exact fun _ _ hsame => hsame
  | cons r rules ih =>
    intro t u hsame
    exact ih (fun r hr => h r (List.mem_cons_of_mem _ hr)) _ _
      ((h r List.mem_cons_self).rewrite _ _ hsame)

theorem congruent_pass {s : Simplifier}
    (hrules : ∀ r ∈ s.catalog, r.kind = .simplifying → Congruent r.apply) : Congruent s.pass := by
  have hall : Congruent (applyAll s.simplifying) := congruent_applyAll fun r hr =>
    hrules r (mem_simplifying.mp hr).1 (mem_simplifying.mp hr).2
  exact fun t u h => Folding.congruent_fold _ _ (hall t u h)

/-- With rules that respect sameness, simplifying the result of a run that is not cut off changes
nothing. -/
theorem simplify_simplify (s : Simplifier)
    (hrules : ∀ r ∈ s.catalog, r.kind = .simplifying → Congruent r.apply) (t : Expr)
    (hrun : ∃ v ∈ s.history t, v.progress ≠ .fresh) :
    (s.simplify (s.simplify t) == s.simplify t) = true := by
  obtain ⟨m, k, hm, hk, hsame⟩ := s.exists_latestLeast t
  obtain ⟨m', k', hm', hk', hsame'⟩ := s.exists_latestLeast (s.simplify t)
  obtain ⟨j, hj, hclosed⟩ := hm.exists_repeat hrun
  have hrho : Rho s.pass t j m := ⟨hj, hm.fresh, hclosed⟩
  exact BEq.trans hsame'
    (hrho.same_of_second_run (congruent_pass hrules) hm.le_limit hk hsame hm' hk')

def swapTerms : Template
  | sum a b => some (sum b a)
  | _ => none

theorem congruent_swapTerms : Congruent (Template.rewrite [swapTerms]) := by
  refine Template.congruent_rewrite fun template hmem => ?_
  rw [List.mem_singleton.mp hmem]
  refine Template.congruent_of_matches fun t u v h hv => ?_
  unfold swapTerms at hv
  split at hv
  · cases hv
    obtain ⟨a', b', rfl, ha, hb⟩ := binary_same_iff.mp h
    exact ⟨sum b' a', rfl, same_binary hb ha⟩
  · cases hv

/-- A run with a tail and a cycle of two trees. -/
theorem simplify_simplify_swapTerms :
    let s : Simplifier :=
      ⟨{}, [⟨"swap_terms", .simplifying, Template.rewrite [swapTerms], fun _ => []⟩]⟩
    let t := sum (product (int 1) (var "x")) (var "y")
    (s.history t).map (·.progress) = [.fresh, .fresh, .repeated] ∧
      (s.simplify t == sum (var "y") (var "x")) = true ∧
      (s.simplify (s.simplify t) == s.simplify t) = true := by
  intro s t
  have hhistory : (s.history t).map (·.progress) = [.fresh, .fresh, .repeated] := by
    decide +kernel
  refine ⟨hhistory, by decide +kernel, simplify_simplify s (fun r hr _ => ?_) t ?_⟩
  · rw [List.mem_singleton.mp hr]
    exact congruent_swapTerms
  · have hrepeated : Progress.repeated ∈ (s.history t).map (·.progress) := by simp [hhistory]
    obtain ⟨v, hv, hprogress⟩ := List.mem_map.mp hrepeated
    exact ⟨v, hv, by simp [hprogress]⟩

end Simplifier

end SymbolicAlgebra
