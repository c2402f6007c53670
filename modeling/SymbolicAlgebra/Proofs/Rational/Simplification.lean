import SymbolicAlgebra.Proofs.Rational.Arithmetic
import SymbolicAlgebra.Proofs.Rational.LongDivision
import SymbolicAlgebra.Proofs.Rational.Ordering
import SymbolicAlgebra.Proofs.Rational.Powers
import SymbolicAlgebra.Proofs.Rational.ZerothPowers
import SymbolicAlgebra.Proofs.Simplifier.Soundness

/-!
# Rational values over a run

A run is exact if its passes up to the result write exact literals, and those from exact values, and
raise none to the least word. An exact run keeps the rational value of an arithmetic tree with exact
literals. Between the rules of a pass a zeroth power may stand over a base without a value, so the
rules are followed in the lenient reading; the folding at the end of the pass leaves no such power.
-/

namespace SymbolicAlgebra

open SymbolicAlgebra.Expr

/-- Whether the rule raises a literal to the least word, which would come out as one. -/
def Rule.raisesToLeastWord (r : Rule) (t : Expr) : Bool :=
  (Rules.literalsRaised t).any (·.2.isLeastWord) &&
    Rules.literalPowerFamily.any fun template => (template t).any (· == r.apply t)

theorem Rule.raisesToLeastWord_eq {r : Rule} {t : Expr} {c d : Number}
    (hr : r.apply t = Rules.powers t) (h : Rules.RaisesLiteral t c d) :
    r.raisesToLeastWord t = d.isLeastWord := by
  obtain ⟨hcd, template, hmem, htemplate⟩ := h
  have hresult : Rules.literalPowerFamily.any (fun template =>
      (template t).any (· == r.apply t)) = true := by
    refine List.any_eq_true.mpr ⟨template, hmem, ?_⟩
    rw [htemplate, hr, Option.any_some]
    exact BEq.rfl
  rw [raisesToLeastWord, hcd, Option.any_some, hresult, Bool.and_true]

def Rule.takesExactValues (r : Rule) (t : Expr) : Bool :=
  !r.raisesToLeastWord t &&
    (r.evaluated t).all fun e => e.value?.all fun v => v.isExact && e.avoidsLeastWord

/-- Whether the rule writes exact literals at every node of the tree, from exact values where it
changes the node. -/
def Rule.isExactOn (r : Rule) (t : Expr) : Bool :=
  (t.sites r.apply).all fun x =>
    (r.apply x).isExact && (r.apply x == x || r.takesExactValues x)

def Folding.isExactAt (t : Expr) : Bool :=
  (foldNode t).isExact &&
    match t with
    | power (num _) (num d) => !d.isLeastWord
    | _ => true

namespace Simplifier

def isExactPass (s : Simplifier) (t : Expr) : Bool :=
  (stages s.simplifying t).all (fun stage => stage.1.isExactOn stage.2) &&
    ((applyAll s.simplifying t).sites Folding.foldNode).all Folding.isExactAt

def isExactRun (s : Simplifier) (t : Expr) : Bool := (s.beforeResult t).all s.isExactPass

end Simplifier

/-- What a step may make of an exact arithmetic tree. A literal integer may be an exponent, so it is
left alone. -/
structure KeepsValues (t u : Expr) : Prop where
  isArithmetic : u.isArithmetic = true
  isExact : u.isExact = true
  literal : t.isIntegerLiteral = true → u = t
  refines : ∀ σ, (Interpretation.lenient σ).Refines t u

namespace KeepsValues

variable {t u v x : Expr} {settings : Settings}

theorem refl (ht : t.isArithmetic = true) (hexact : t.isExact = true) : KeepsValues t t where
  isArithmetic := ht
  isExact := hexact
  literal _ := rfl
  refines σ := (Interpretation.lenient σ).rewriteRelation_refines.refl t

theorem trans (h : KeepsValues t u) (h' : KeepsValues u v) : KeepsValues t v where
  isArithmetic := h'.isArithmetic
  isExact := h'.isExact
  literal ht := by
    obtain rfl := h.literal ht
    exact h'.literal ht
  refines σ := (Interpretation.lenient σ).rewriteRelation_refines.trans (h.refines σ) (h'.refines σ)

theorem binary {op : Operator} {a b a' b' : Expr} (ha : KeepsValues a a') (hb : KeepsValues b b')
    (h : (binary op a b).isArithmetic = true) : KeepsValues (binary op a b) (binary op a' b') where
  isArithmetic := by
    cases op with
    | power =>
      have hliteral : b.isIntegerLiteral = true := (Bool.and_eq_true_iff.mp h).2
      rw [hb.literal hliteral, isArithmetic_power, ha.isArithmetic, hliteral]
      rfl
    | _ => exact Bool.and_eq_true_iff.mpr ⟨ha.isArithmetic, hb.isArithmetic⟩
  isExact := Bool.and_eq_true_iff.mpr ⟨ha.isExact, hb.isExact⟩
  literal hliteral := by cases hliteral
  refines σ := (Interpretation.lenient σ).refines_binary (ha.refines σ) (hb.refines σ)

theorem rewriteRelation : RewriteRelation fun t u =>
    t.isArithmetic = true → t.isExact = true → KeepsValues t u where
  refl _ := refl
  trans htu huv ht hexact := by
    have hu := htu ht hexact
    exact hu.trans (huv hu.isArithmetic hu.isExact)
  node {t u ts} hchildren hu ht hexact := by
    cases t with
    | num c =>
      cases hchildren
      cases hu
      exact refl ht hexact
    | var x =>
      cases hchildren
      cases hu
      exact refl ht hexact
    | binary op a b =>
      simp only [children, List.forall₂_cons_left_iff, List.forall₂_nil_left_iff] at hchildren
      obtain ⟨a', _, ha, ⟨b', _, hb, rfl, rfl⟩, rfl⟩ := hchildren
      cases hu
      obtain ⟨hta, htb⟩ := isArithmetic_binary ht
      obtain ⟨hexacta, hexactb⟩ := Bool.and_eq_true_iff.mp hexact
      exact (ha hta hexacta).binary (hb htb hexactb) ht
    | _ => cases ht

/-! ## Rules -/

theorem of_eq (ht : t.isArithmetic = true) (hexact : t.isExact = true) (h : u = t) :
    KeepsValues t u := by
  rw [h]
  exact refl ht hexact

theorem of_function {f : Expr → Expr} (hfixed : ∀ n, f (int n) = int n)
    (hshape : (f t).isArithmetic = true) (hexact : (f t).isExact = true)
    (hrefines : ∀ σ, (Interpretation.lenient σ).Refines t (f t)) : KeepsValues t (f t) where
  isArithmetic := hshape
  isExact := hexact
  literal ht := by
    obtain ⟨n, rfl⟩ := isIntegerLiteral_iff.mp ht
    exact hfixed n
  refines := hrefines

theorem powers (ht : t.isArithmetic = true) (hexact : (Rules.powers t).isExact = true)
    (hword : ∀ c d, Rules.RaisesLiteral t c d → d.isLeastWord = false) :
    KeepsValues t (Rules.powers t) := by
  refine of_function (fun _ => rfl) (Rules.isArithmetic_powers ht) hexact fun σ => ?_
  refine Interpretation.powers_refines _ t hexact hword ?_ ?_ fun _ _ _ _ => Or.inl trivial
  · rintro c a rfl
    cases ht
  · rintro a n m rfl -
    have hbase : (power a n).isArithmetic = true := (isArithmetic_binary ht).1
    obtain ⟨k, rfl⟩ := isIntegerLiteral_iff.mp (Bool.and_eq_true_iff.mp hbase).2
    rfl

theorem foldNode (ht : t.isArithmetic = true) (h : Folding.isExactAt t = true) :
    KeepsValues t (Folding.foldNode t) := by
  obtain ⟨hexact, hword⟩ := Bool.and_eq_true_iff.mp h
  refine of_function (fun _ => rfl) (Rules.isArithmetic_foldNode ht) hexact fun σ =>
    Interpretation.foldNode_refines _ t hexact ?_
  rintro c d rfl
  simpa using hword

theorem rule {r : Rule} (hr : r ∈ (Simplifier.ofSettings settings).simplifying)
    (ht : t.isArithmetic = true) (ht' : t.isExact = true) (hexact : (r.apply t).isExact = true)
    (hvalues : r.takesExactValues t = true) : KeepsValues t (r.apply t) := by
  obtain ⟨hraised, hevaluated⟩ := Bool.and_eq_true_iff.mp hvalues
  have hevaluated : Interpretation.ExactlyEvaluated (r.evaluated t) := by
    intro e he v hv
    have hvalue := List.all_eq_true.mp hevaluated e he
    rw [hv] at hvalue
    exact Bool.and_eq_true_iff.mp hvalue
  obtain ⟨hmem, hkind⟩ := Simplifier.mem_simplifying.mp hr
  have hstandard := Simplifier.mem_standard hmem
  simp only [Catalog.standard, Catalog.withDivider, List.mem_cons, List.not_mem_nil,
    or_false] at hstandard
  obtain rfl | rfl | rfl | rfl | rfl | rfl | rfl | rfl | rfl | rfl | rfl | rfl | rfl | rfl :=
    hstandard
  · exact of_function (fun _ => rfl) (Rules.isArithmetic_invertNegativePowers ht) hexact fun _ =>
      Interpretation.invertNegativePowers_refines _ t
  · exact of_function (fun _ => rfl) (Rules.isArithmetic_invertNegativeMultipliers ht) hexact
      fun _ => Interpretation.invertNegativeMultipliers_refines _ t
  · exact of_eq ht ht' (Rules.collapseFactorialMultiplications_eq_self ht)
  · exact of_eq ht ht' (Rules.expandFactorialDivisions_eq_self ht)
  · cases hkind
  · exact of_eq ht ht' (Rules.trigonometric_eq_self ht)
  · cases hkind
  · refine powers ht hexact fun c d hraises => ?_
    rwa [Rule.raisesToLeastWord_eq rfl hraises, Bool.not_eq_true'] at hraised
  · exact of_function (fun _ => rfl) (Rules.isArithmetic_common ht) hexact fun _ =>
      Interpretation.common_refines _ t
  · cases hkind
  · cases hkind
  · exact of_function (fun _ => rfl) (Rules.isArithmetic_longDivision ht) hexact fun _ =>
      Interpretation.longDivision_refines _ (isRationalOver_of_isArithmetic ht) ht' hevaluated
  · exact of_function (fun _ => rfl) (Rules.isArithmetic_canonicalSort ht) hexact fun _ =>
      Interpretation.canonicalSort_refines _ _ t
  · cases hkind

/-! ## Passes and runs -/

open Simplifier

theorem applyAll (ht : t.isArithmetic = true) (hexact : t.isExact = true)
    (h : (ofSettings settings).isExactPass t = true) :
    KeepsValues t (Simplifier.applyAll (ofSettings settings).simplifying t) := by
  refine rewriteRelation.applyAll_of_stages (fun stage hstage x hx hx' hx'' => ?_) ht hexact
  have hexactOn := List.all_eq_true.mp (Bool.and_eq_true_iff.mp h).1 stage hstage
  have hsite := List.all_eq_true.mp hexactOn x hx
  obtain ⟨hresult, hvalues⟩ := Bool.and_eq_true_iff.mp hsite
  obtain hsame | hvalues := Bool.or_eq_true_iff.mp hvalues
  · exact of_eq hx' hx'' (Expr.eq_of_same hresult hsame)
  · exact rule (mem_of_mem_stages hstage) hx' hx'' hresult hvalues

theorem pass (ht : t.isArithmetic = true) (hexact : t.isExact = true)
    (h : (ofSettings settings).isExactPass t = true) :
    KeepsValues t ((ofSettings settings).pass t) ∧
      ((ofSettings settings).pass t).zerothPowerFree = true := by
  have hrules := applyAll ht hexact h
  have hsites := List.all_eq_true.mp (Bool.and_eq_true_iff.mp h).2
  have hfold := rewriteRelation.rewrite_of_sites fun x hx hx' _ => foldNode hx' (hsites x hx)
  exact ⟨hrules.trans (hfold hrules.isArithmetic hrules.isExact),
    Folding.zerothPowerFree_fold hrules.isArithmetic fun x hx =>
      (Bool.and_eq_true_iff.mp (hsites x hx)).1⟩

theorem iterate (ht : t.isArithmetic = true) (hexact : t.isExact = true) {k : ℕ}
    (h : ∀ i < k, (ofSettings settings).isExactPass ((ofSettings settings).pass^[i] t) = true) :
    KeepsValues t ((ofSettings settings).pass^[k] t) ∧
      (k = 0 ∨ ((ofSettings settings).pass^[k] t).zerothPowerFree = true) := by
  induction k with
  | zero => exact ⟨refl ht hexact, Or.inl rfl⟩
  | succ k ih =>
    obtain ⟨hkeeps, -⟩ := ih fun i hi => h i (Nat.lt_succ_of_lt hi)
    obtain ⟨hpass, hfree⟩ := pass hkeeps.isArithmetic hkeeps.isExact (h k k.lt_succ_self)
    rw [Function.iterate_succ_apply']
    exact ⟨hkeeps.trans hpass, Or.inr hfree⟩

end KeepsValues

namespace Simplifier

variable {t : Expr} {settings : Settings}

/-- An exact run from an arithmetic tree with exact literals leads to one that is defined and has
the same value wherever the input is defined. -/
theorem simplify_refines_of_isExactRun (ht : t.isArithmetic = true) (hexact : t.isExact = true)
    (hrun : (ofSettings settings).isExactRun t = true) :
    ((ofSettings settings).simplify t).isArithmetic = true ∧
      ((ofSettings settings).simplify t).isExact = true ∧
      ∀ σ, (Interpretation.arithmetic σ).Refines t ((ofSettings settings).simplify t) := by
  obtain ⟨k, hsame, hbefore⟩ := (ofSettings settings).exists_iterate_same_simplify t
  obtain ⟨hkeeps, hfree⟩ := KeepsValues.iterate ht hexact fun i hi =>
    List.all_eq_true.mp hrun _ (hbefore i hi)
  rw [← Expr.eq_of_same hkeeps.isExact hsame]
  refine ⟨hkeeps.isArithmetic, hkeeps.isExact, fun σ hdef => ?_⟩
  obtain ⟨hdef', hvalue⟩ := hkeeps.refines σ (Interpretation.defined_lenient ht hdef)
  rw [Interpretation.value_lenient hkeeps.isArithmetic, Interpretation.value_lenient ht] at hvalue
  refine ⟨?_, hvalue⟩
  obtain rfl | hfree := hfree
  · exact hdef
  · exact Interpretation.defined_of_lenient hkeeps.isArithmetic hfree hdef'

theorem simplify_refines_of_isExactRun_quotient :
    let t := sum (quotient (power (product (int 2) (var "x")) (int 3)) (product (int 4) (var "x")))
      (product (int 3) (power (var "x") (int 2)))
    (t.isArithmetic = true ∧ t.isExact = true ∧ (ofSettings {}).isExactRun t = true ∧
        (Interpretation.arithmetic fun _ => 2).Defined t) ∧
      ((ofSettings {}).simplify t == product (power (var "x") (int 2)) (int 5)) = true ∧
      ∀ σ, (Interpretation.arithmetic σ).Refines t ((ofSettings {}).simplify t) := by
  intro t
  have ht : t.isArithmetic = true := by decide +kernel
  have hexact : t.isExact = true := by decide +kernel
  have hrun : (ofSettings {}).isExactRun t = true := by decide +kernel
  have hdef : (Interpretation.arithmetic fun _ => 2).Defined t := by
    simp [t, Interpretation.defined_power_int, Interpretation.arithmetic]
  refine ⟨⟨ht, hexact, hrun, hdef⟩, by decide +kernel, ?_⟩
  exact (simplify_refines_of_isExactRun ht hexact hrun).2.2

/-- A run with a power to the least word, `2 ^ -9223372036854775808`, which comes out as one. -/
example :
    let t := quotient (power (int 2) (int 1)) (power (int 2) (int 9223372036854775809))
    (t.isArithmetic = true ∧ t.isExact = true) ∧ (ofSettings {}).isExactRun t = false ∧
      ((ofSettings {}).simplify t == int 1) = true := by
  decide +kernel

/-- A run that is not exact: the zeroth powers are drawn together over the quotient `1 / (y * 0)`,
and a literal is divided by zero in it before anything is folded. -/
theorem not_isExact_simplify_zerothPowers :
    let t := quotient (power (int 1) (int 0)) (power (product (var "y") (int 0)) (int 0))
    t.isArithmetic = true ∧ t.isExact = true ∧ (∀ σ, (Interpretation.arithmetic σ).Defined t) ∧
      ((ofSettings {}).simplify t).isExact = false := by
  intro t
  refine ⟨by decide +kernel, by decide +kernel, fun σ => ?_, by decide +kernel⟩
  simp [t, Interpretation.defined_power, Number.toRat_integer, Interpretation.arithmetic]

end Simplifier

end SymbolicAlgebra
