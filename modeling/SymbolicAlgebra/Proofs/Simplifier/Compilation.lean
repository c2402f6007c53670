import SymbolicAlgebra.Proofs.Program.Compilability
import SymbolicAlgebra.Proofs.Rules.Vocabulary
import SymbolicAlgebra.Proofs.Simplifier.Soundness

/-!
# What compiles still compiles when simplified

No simplifying rule and no fold leaves the vocabulary of a tree, so no run does, but for `pi` where
a rule comes to a sum of complementary arcs. No run brings in a mark, since `pi` is reserved. A tree
compiles over a list of names if none of its marks is in the way.
-/

namespace SymbolicAlgebra

open SymbolicAlgebra.Expr

/-- Whether the rule makes a right angle of a sum of complementary arcs at the root. -/
def Rule.writesRightAngle (r : Rule) (t : Expr) : Bool :=
  (Rules.complementaryArcs t).any (· == r.apply t)

namespace Simplifier

/-- Whether a rule makes a right angle of complementary arcs, in a pass before the result. -/
def meetsComplementaryArcs (s : Simplifier) (t : Expr) : Bool :=
  (s.beforeResult t).any fun u =>
    (stages s.simplifying u).any fun stage =>
      (stage.2.sites stage.1.apply).any stage.1.writesRightAngle

section Run

variable {V : Vocabulary} {settings : Settings} {t : Expr}

theorem within_rule {r : Rule} (hr : r ∈ (ofSettings settings).simplifying) (ht : t.Within V)
    (hpi : r.writesRightAngle t = true → V.HasComplementaryArcs → V.name "pi") :
    (r.apply t).Within V := by
  obtain ⟨hmem, hkind⟩ := mem_simplifying.mp hr
  have hstandard := mem_standard hmem
  simp only [Catalog.standard, Catalog.withDivider, List.mem_cons, List.not_mem_nil,
    or_false] at hstandard
  obtain rfl | rfl | rfl | rfl | rfl | rfl | rfl | rfl | rfl | rfl | rfl | rfl | rfl | rfl :=
    hstandard
  · exact Rules.within_invertNegativePowers ht
  · exact Rules.within_invertNegativeMultipliers ht
  · exact Rules.within_collapseFactorialMultiplications ht
  · exact Rules.within_expandFactorialDivisions ht
  · cases hkind
  · refine Rules.within_trigonometric ht fun harcs => hpi ?_
    rw [Rule.writesRightAngle, harcs, Option.any_some]
    exact BEq.rfl
  · cases hkind
  · exact Rules.within_powers ht
  · exact Rules.within_common ht
  · cases hkind
  · cases hkind
  · exact Rules.within_longDivision ht
  · exact Rules.within_canonicalSort ht
  · cases hkind

theorem within_pass (ht : t.Within V)
    (hpi : ∀ stage ∈ stages (ofSettings settings).simplifying t,
      ∀ x ∈ stage.2.sites stage.1.apply, stage.1.writesRightAngle x = true →
        V.HasComplementaryArcs → V.name "pi") : ((ofSettings settings).pass t).Within V := by
  refine (RewriteRelation.within V).trans
    ((RewriteRelation.within V).applyAll_of_stages fun stage hstage x hx hwithin => ?_)
    ((RewriteRelation.within V).rewrite (fun x hwithin => ?_) _) ht
  · exact within_rule (mem_of_mem_stages hstage) hwithin (hpi stage hstage x hx)
  · exact Rules.within_foldNode hwithin

/-- A run stays within every vocabulary of its start that has `pi` in case of complementary arcs. -/
theorem within_simplify (ht : t.Within V)
    (hpi : (ofSettings settings).meetsComplementaryArcs t = true → V.HasComplementaryArcs →
      V.name "pi") : ((ofSettings settings).simplify t).Within V := by
  obtain ⟨k, hsame, hbefore⟩ := (ofSettings settings).exists_iterate_same_simplify t
  refine (within_iff_of_same hsame).mp ?_
  -- The first passes are those before the result, as far as `k`.
  have hiterate : ∀ i ≤ k, ((ofSettings settings).pass^[i] t).Within V := by
    intro i hi
    induction i with
    | zero => exact ht
    | succ i ih =>
      rw [Function.iterate_succ_apply']
      refine within_pass (ih (Nat.le_of_succ_le hi)) fun stage hstage x hx harcs => hpi ?_
      simp only [meetsComplementaryArcs, List.any_eq_true]
      exact ⟨_, hbefore i hi, stage, hstage, x, hx, harcs⟩
  exact hiterate k (Nat.le_refl k)

end Run

theorem marks_simplify_subset (settings : Settings) (t : Expr) :
    ((ofSettings settings).simplify t).marks ⊆ t.marks :=
  Vocabulary.within_ofMarks.mp
    (within_simplify (Vocabulary.within_ofMarks.mpr (List.Subset.refl t.marks))
      fun _ _ => Or.inl rfl)

end Simplifier

namespace Expr

variable {t u : Expr}

/-- Some node is of the kind. -/
def HasInert (t : Expr) (kind : String) : Prop := ∃ x ∈ t.preorder, x.inertKind? = some kind

theorem isInert_iff : t.isInert = true ↔ ∃ kind, t.inertKind? = some kind := by
  cases t <;> simp [isInert, inertKind?]

theorem freeVariables_subset_of_marks (h : u.marks ⊆ t.marks) :
    u.freeVariables ⊆ t.freeVariables :=
  fun _ hname => free_mem_marks.mp (h (free_mem_marks.mpr hname))

theorem hasInert_of_marks (h : u.marks ⊆ t.marks) {kind : String} (hu : u.HasInert kind) :
    t.HasInert kind :=
  inert_mem_marks.mp (h (inert_mem_marks.mpr hu))

theorem tensorsFit_of_marks (h : u.marks ⊆ t.marks) (ht : t.TensorsFit) : u.TensorsFit := by
  intro dims elements hmem
  obtain ⟨old, hold, hlength⟩ :=
    tensor_mem_marks.mp (h (tensor_mem_marks.mpr ⟨elements, hmem, rfl⟩))
  rw [← hlength]
  exact ht dims old hold

theorem exists_compile_of_marks (h : u.marks ⊆ t.marks) {names : List String} {p : Program}
    (hp : t.compile names = .ok p) : ∃ q, u.compile names = .ok q ∧ q.arity = p.arity := by
  obtain ⟨hnames, hfree, hinert⟩ := exists_compileWith.mp ⟨p, hp⟩
  have hinert' : ∀ x ∈ u.preorder, x.isInert = false := by
    intro x hx
    by_contra hx'
    obtain ⟨kind, hkind⟩ := isInert_iff.mp (Bool.not_eq_false _ ▸ hx')
    obtain ⟨y, hy, hykind⟩ := hasInert_of_marks h ⟨x, hx, hkind⟩
    exact Bool.false_ne_true ((hinert y hy).symm.trans (isInert_iff.mpr ⟨kind, hykind⟩))
  obtain ⟨q, hq⟩ := exists_compileWith.mpr ⟨hnames, fun name hname =>
    hfree name (freeVariables_subset_of_marks h hname), hinert'⟩
  exact ⟨q, hq, (arity_of_compileWith hq).trans (arity_of_compileWith hp).symm⟩

end Expr

namespace Simplifier

/-- A run brings in no free variable, no kind of calculus node or tensor and no tensor that does not
fit its dimensions, so a tree that compiles over a list of names does so when simplified, and with
the same arity. -/
theorem simplify_keeps_compilability (settings : Settings) (t : Expr) :
    ((ofSettings settings).simplify t).freeVariables ⊆ t.freeVariables ∧
      (∀ kind, ((ofSettings settings).simplify t).HasInert kind → t.HasInert kind) ∧
      (t.TensorsFit → ((ofSettings settings).simplify t).TensorsFit) ∧
      ∀ names p, t.compile names = .ok p →
        ∃ q, ((ofSettings settings).simplify t).compile names = .ok q ∧ q.arity = p.arity := by
  have hmarks := marks_simplify_subset settings t
  exact ⟨freeVariables_subset_of_marks hmarks, fun _ => hasInert_of_marks hmarks,
    tensorsFit_of_marks hmarks, fun _ _ => exists_compile_of_marks hmarks⟩

/-- Two arcs become half of pi, which is compiled as a constant; a tensor keeps its shape. -/
theorem simplify_keeps_compilability_arcs :
    let t := sum (arcsin (var "x")) (arccos (var "x"))
    let row := tensor [2] [t, product (int 1) (var "y")]
    ((ofSettings {}).simplify t == Rules.rightAngle) = true ∧
      (∃ q, ((ofSettings {}).simplify t).compile ["x"] = .ok q ∧ q.arity = 1) ∧
      ((ofSettings {}).simplify row == tensor [2] [Rules.rightAngle, var "y"]) = true ∧
      ((ofSettings {}).simplify row).TensorsFit := by
  intro t row
  refine ⟨by decide +kernel, ?_, by decide +kernel, ?_⟩
  · exact (simplify_keeps_compilability {} t).2.2.2 ["x"] ⟨1, _⟩ rfl
  · refine (simplify_keeps_compilability {} row).2.2.1 fun dims elements hmem => ?_
    obtain ⟨rfl, rfl⟩ : dims = [2] ∧ elements = [t, product (int 1) (var "y")] := by
      simpa [row, t, preorder] using hmem
    rfl

end Simplifier

end SymbolicAlgebra
