import SymbolicAlgebra.Folding
import SymbolicAlgebra.Proofs.Expr.Sameness
import SymbolicAlgebra.Proofs.Number.Zeros

/-!
# Functions that respect sameness

Same trees have the same nodes over same children and same literals. Folding gives same results for
same trees, and a rewrite does if its function does.
-/

namespace SymbolicAlgebra

namespace Expr

/-- Gives same trees for same trees. -/
def Congruent (f : Expr → Expr) : Prop := ∀ t u, (t == u) = true → (f t == f u) = true

variable {t u a b : Expr}

@[grind =] theorem num_same_iff {x : Number} :
    (num x == u) = true ↔ ∃ y, u = num y ∧ (x == y) = true := by
  cases u <;> simp [BEq.beq, same]

@[grind =] theorem binary_same_iff {op : Operator} :
    (binary op a b == u) = true ↔
      ∃ a' b', u = binary op a' b' ∧ (a == a') = true ∧ (b == b') = true := by
  cases u <;> simp [BEq.beq, same]
  grind

theorem same_binary {op : Operator} {a' b' : Expr} (ha : (a == a') = true)
    (hb : (b == b') = true) : (binary op a b == binary op a' b') = true :=
  binary_same_iff.mpr ⟨a', b', rfl, ha, hb⟩

theorem isFinite_eq_of_same (h : (t == u) = true) : t.isFinite = u.isFinite := by
  change t.same u = true at h
  induction t generalizing u with
  | num x =>
    cases u <;> simp only [same, Bool.false_eq_true] at h
    exact Number.isFinite_eq_of_same h
  | tensor dims elements ih =>
    cases u <;> simp only [same, Bool.false_eq_true, Bool.and_eq_true, decide_eq_true_eq] at h
    have helements := map_eq_of_sameList (fun e he u => ih e he) h.2
    have hall : ∀ ts : List Expr, ts.all isFinite = (ts.map isFinite).all id := by
      simp [List.all_map]
    simp only [isFinite, isFiniteList_eq, hall, helements]
  | _ =>
    cases u <;> simp only [same, Bool.false_eq_true, Bool.and_eq_true] at h
    all_goals simp only [isFinite] <;> grind

theorem isInt_eq_of_same (h : (t == u) = true) (n : Int) : t.isInt n = u.isInt n := by
  cases t with
  | num x =>
    obtain ⟨y, rfl, hxy⟩ := num_same_iff.mp h
    have hint := Number.toInt?_eq_of_same hxy
    cases x <;> cases y <;> simp_all [isInt, Number.toInt?]
  | _ =>
    change same _ _ = true at h
    cases u <;> first | rfl | simp [same] at h

theorem isZero_eq_of_same (h : (t == u) = true) : t.isZero = u.isZero := by
  cases t with
  | num x =>
    obtain ⟨y, rfl, hxy⟩ := num_same_iff.mp h
    exact Number.isZero_eq_of_same hxy
  | _ =>
    change same _ _ = true at h
    cases u <;> first | rfl | simp [same] at h

theorem isNumber_eq_of_same (h : (t == u) = true) : t.isNumber = u.isNumber := by
  change same _ _ = true at h
  cases t <;> cases u <;> first | rfl | simp [same] at h

theorem sameList_map {f : Expr → Expr} {ts us : List Expr}
    (h : ∀ t ∈ ts, ∀ u, t.same u = true → (f t).same (f u) = true)
    (hsame : sameList ts us = true) : sameList (ts.map f) (us.map f) = true := by
  induction ts generalizing us with
  | nil =>
    cases us with
    | nil => rfl
    | cons u us => cases hsame
  | cons t ts ih =>
    cases us with
    | nil => cases hsame
    | cons u us =>
      simp only [sameList, Bool.and_eq_true] at hsame
      simp only [List.map_cons, sameList, Bool.and_eq_true]
      exact ⟨h t List.mem_cons_self u hsame.1,
        ih (fun v hv => h v (List.mem_cons_of_mem t hv)) hsame.2⟩

theorem Congruent.rewrite {f : Expr → Expr} (hf : Congruent f) : Congruent (Expr.rewrite f) := by
  change ∀ t u, t.same u = true → (f t).same (f u) = true at hf
  intro t u h
  change t.same u = true at h
  change (t.rewrite f).same (u.rewrite f) = true
  induction t generalizing u with
  | tensor dims elements ih =>
    cases u <;> simp only [same, Bool.false_eq_true, Bool.and_eq_true, decide_eq_true_eq] at h
    refine hf _ _ ?_
    simp only [same, Bool.and_eq_true, decide_eq_true_eq, rewriteList_eq]
    exact ⟨h.1, sameList_map (fun e he u => ih e he u) h.2⟩
  | _ =>
    cases u <;> simp only [same, Bool.false_eq_true, Bool.and_eq_true, decide_eq_true_eq] at h
    all_goals
      refine hf _ _ ?_
      simp only [same, Bool.and_eq_true, decide_eq_true_eq]
      grind

end Expr

/-! ## Folding -/

/-- Matches same trees alike and gives same results for them. -/
def Template.Congruent (template : Template) : Prop :=
  ∀ t u, (t == u) = true → (template t == template u) = true

theorem Template.congruent_rewrite {family : List Template}
    (h : ∀ template ∈ family, template.Congruent) : Expr.Congruent (rewrite family) := by
  intro t u hsame
  have hfirst : (first family t == first family u) = true := by
    unfold first
    induction family with
    | nil => rfl
    | cons template family ih =>
      have htemplate := h template List.mem_cons_self t u hsame
      rw [List.findSome?_cons, List.findSome?_cons]
      cases ht : template t <;> cases hu : template u <;> rw [ht, hu] at htemplate
      · exact ih fun template hmem => h template (List.mem_cons_of_mem _ hmem)
      · cases htemplate
      · cases htemplate
      · exact htemplate
  unfold rewrite
  cases ht : first family t <;> cases hu : first family u <;> rw [ht, hu] at hfirst
  · exact hsame
  · cases hfirst
  · cases hfirst
  · exact hfirst

/-- Sameness being symmetric, it is enough to look at matches. -/
theorem Template.congruent_of_matches {template : Template}
    (h : ∀ t u v, (t == u) = true → template t = some v →
      ∃ w, template u = some w ∧ (v == w) = true) : template.Congruent := by
  intro t u hsame
  cases ht : template t with
  | some v =>
    obtain ⟨w, hw, hvw⟩ := h t u v hsame ht
    rw [hw]
    exact hvw
  | none =>
    cases hu : template u with
    | none => rfl
    | some w =>
      obtain ⟨v, hv, -⟩ := h u t w (BEq.symm hsame) hu
      rw [ht] at hv
      cases hv

namespace Folding

open SymbolicAlgebra.Expr

theorem exists_literalValue? {op : Operator} {a a' b b' x : Number} (ha : (a == a') = true)
    (hb : (b == b') = true) (hx : literalValue? op a b = some x)
    (hfinite : (x.isFinite || !(a.isFinite && b.isFinite)) = true) :
    ∃ y, literalValue? op a' b' = some y ∧ (x == y) = true := by
  cases op with
  | sum =>
    cases hx
    exact ⟨_, rfl, Number.same_add ha hb⟩
  | difference =>
    cases hx
    exact ⟨_, rfl, Number.same_sub ha hb⟩
  | product =>
    cases hx
    exact ⟨_, rfl, Number.same_mul ha hb⟩
  | quotient =>
    simp only [literalValue?] at hx ⊢
    split_ifs at hx with hzero
    cases hx
    rw [← Number.isZero_eq_of_same hb, if_neg hzero]
    exact ⟨_, rfl, Number.same_div ha hb (Bool.not_eq_true _ ▸ hzero)⟩
  | power =>
    simp only [literalValue?] at hx
    split_ifs at hx with hinteger
    cases hx
    obtain ⟨n, rfl⟩ : ∃ n, b = .integer n := by
      cases b <;> first | exact ⟨_, rfl⟩ | cases hinteger
    obtain rfl | ⟨y, y', hy, -⟩ | ⟨z, hz, z', hz', hz, -⟩ := Number.same_cases hb
    · obtain hpow | ⟨hbase, hpow, -⟩ := Number.same_pow ha n
      · exact ⟨_, rfl, hpow⟩
      · rw [hpow, hbase] at hfinite
        cases hfinite
    · cases hy
    · cases hz

theorem congruent_family : ∀ template ∈ family, template.Congruent := by
  intro template hmem
  refine Template.congruent_of_matches fun t u v h hv => ?_
  have hself : ∀ t : Expr, (t == t) = true := fun _ => BEq.rfl
  simp only [family, List.mem_cons, List.not_mem_nil, or_false] at hmem
  obtain rfl | rfl | rfl | rfl | rfl | rfl | rfl | rfl | rfl | rfl | rfl | rfl | rfl := hmem
  case inl =>
    unfold literals at hv
    split at hv
    case h_2 => cases hv
    case h_1 op a b =>
      obtain ⟨a', b', rfl, ha, hb⟩ := binary_same_iff.mp h
      obtain ⟨a', rfl, ha⟩ := num_same_iff.mp ha
      obtain ⟨b', rfl, hb⟩ := num_same_iff.mp hb
      obtain ⟨x, hx, rfl⟩ := Option.map_eq_some_iff.mp hv
      obtain ⟨hx, hfinite⟩ := Option.filter_eq_some_iff.mp hx
      obtain ⟨y, hy, hxy⟩ := exists_literalValue? ha hb hx hfinite
      rw [Number.isFinite_eq_of_same hxy, Number.isFinite_eq_of_same ha,
        Number.isFinite_eq_of_same hb] at hfinite
      refine ⟨num y, ?_, hxy⟩
      rw [literals, hy, Option.filter_some, if_pos hfinite]
      rfl
  all_goals
    simp only [sumWithZero, sumWithNegated, negatedInSum, differenceWithZero,
      differenceWithNegated, productWithOne, productWithZero, quotientByOne, quotientOfZero,
      powerToOne, powerToZero, powerOfOne] at hv ⊢
    split at hv <;>
      grind -ring -linarith [isZero_eq_of_same, isInt_eq_of_same, isFinite_eq_of_same, isNumber_eq_of_same,
        same_binary, negate]

theorem congruent_foldNode : Expr.Congruent foldNode := Template.congruent_rewrite congruent_family

theorem congruent_fold : Expr.Congruent fold := congruent_foldNode.rewrite

end Folding

end SymbolicAlgebra
