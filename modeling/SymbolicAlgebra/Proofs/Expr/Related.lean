import SymbolicAlgebra.Proofs.Expr.Renaming
import SymbolicAlgebra.Rules.Template

/-!
# A tree and the renamed tree

A template matches a renamed tree exactly if it matches the tree. Both directions are one statement
about related trees, of which one is the other one renamed: from a match of the first tree follows a
match of the second, whichever of them has been renamed.
-/

namespace SymbolicAlgebra

namespace Expr

/-- One tree is the other one renamed; the flag says which of them. -/
def Related (s : Renaming) : (forward : Bool) → Expr → Expr → Prop
  | true, t, u => u = t.rename s
  | false, t, u => t = u.rename s

variable {s : Renaming} {forward : Bool} {t u a b a' b' : Expr}

@[grind =] theorem related_num {c : Number} : Related s forward (num c) u ↔ u = num c := by
  cases forward <;> cases u <;> simp [Related, eq_comm]

theorem related_binary {op : Operator} :
    Related s forward (binary op a b) u ↔
      ∃ a' b', u = binary op a' b' ∧ Related s forward a a' ∧ Related s forward b b' := by
  cases forward <;> cases u <;> simp [Related, eq_comm]

theorem related_apply {f : Elementary} :
    Related s forward (apply f a) u ↔ ∃ a', u = apply f a' ∧ Related s forward a a' := by
  cases forward <;> cases u <;> simp [Related, eq_comm]

theorem related_log :
    Related s forward (log a b) u ↔
      ∃ a' b', u = log a' b' ∧ Related s forward a a' ∧ Related s forward b b' := by
  cases forward <;> cases u <;> simp [Related, eq_comm]

@[grind =] theorem related_binary_binary {op op' : Operator} :
    Related s forward (binary op a b) (binary op' a' b') ↔
      op = op' ∧ Related s forward a a' ∧ Related s forward b b' := by
  rw [related_binary]
  grind

@[grind =] theorem related_apply_apply {f f' : Elementary} :
    Related s forward (apply f a) (apply f' a') ↔ f = f' ∧ Related s forward a a' := by
  rw [related_apply]
  grind

@[grind =] theorem related_log_log :
    Related s forward (log a b) (log a' b') ↔ Related s forward a a' ∧ Related s forward b b' := by
  rw [related_log]
  grind

namespace Related

theorem symm (h : Related s forward t u) : Related s (!forward) u t := by
  cases forward <;> exact h

@[grind →] theorem exists_binary {op : Operator} (h : Related s forward (.binary op a b) u) :
    ∃ a' b', u = .binary op a' b' := by
  obtain ⟨a', b', rfl, -⟩ := related_binary.mp h
  exact ⟨a', b', rfl⟩

@[grind →] theorem exists_apply {f : Elementary} (h : Related s forward (.apply f a) u) :
    ∃ a', u = .apply f a' := by
  obtain ⟨a', rfl, -⟩ := related_apply.mp h
  exact ⟨a', rfl⟩

@[grind →] theorem exists_log (h : Related s forward (.log a b) u) :
    ∃ a' b', u = .log a' b' := by
  obtain ⟨a', b', rfl, -⟩ := related_log.mp h
  exact ⟨a', b', rfl⟩

theorem binary (op : Operator) (ha : Related s forward a a') (hb : Related s forward b b') :
    Related s forward (.binary op a b) (.binary op a' b') :=
  related_binary.mpr ⟨a', b', rfl, ha, hb⟩

theorem map {f : Expr → Expr} (h : ∀ t, f (t.rename s) = (f t).rename s)
    (ha : Related s forward a a') : Related s forward (f a) (f a') := by
  cases forward with
  | true =>
    obtain rfl : a' = a.rename s := ha
    exact h a
  | false =>
    obtain rfl : a = a'.rename s := ha
    exact h a'

theorem map₂ {f : Expr → Expr → Expr} (h : ∀ a b, f (a.rename s) (b.rename s) = (f a b).rename s)
    (ha : Related s forward a a') (hb : Related s forward b b') :
    Related s forward (f a b) (f a' b') := by
  cases forward with
  | true =>
    obtain rfl : a' = a.rename s := ha
    obtain rfl : b' = b.rename s := hb
    exact h a b
  | false =>
    obtain rfl : a = a'.rename s := ha
    obtain rfl : b = b'.rename s := hb
    exact h a' b'

variable (ha : Related s forward a a') (hb : Related s forward b b')

include ha

/-- What renaming does not change is the same for related trees. -/
theorem eq_of_rename {α : Type} {f : Expr → α} (h : ∀ t, f (t.rename s) = f t) : f a = f a' := by
  cases forward with
  | true =>
    obtain rfl : a' = a.rename s := ha
    exact (h a).symm
  | false =>
    obtain rfl : a = a'.rename s := ha
    exact h a'

theorem isFunction : a.isFunction = a'.isFunction := ha.eq_of_rename (isFunction_rename s)

theorem isVariable : a.isVariable = a'.isVariable := ha.eq_of_rename (isVariable_rename s)

theorem isNumber : a.isNumber = a'.isNumber := ha.eq_of_rename (isNumber_rename s)

theorem isFinite : a.isFinite = a'.isFinite := ha.eq_of_rename (isFinite_rename s)

theorem isZero : a.isZero = a'.isZero := ha.eq_of_rename (isZero_rename s)

theorem isInt (n : ℤ) : a.isInt n = a'.isInt n :=
  ha.eq_of_rename (f := fun t => t.isInt n) fun t => isInt_rename s t n

include hb

theorem same : (a == b) = (a' == b') := by
  cases forward with
  | true =>
    obtain rfl : a' = a.rename s := ha
    obtain rfl : b' = b.rename s := hb
    exact (same_rename s a b).symm
  | false =>
    obtain rfl : a = a'.rename s := ha
    obtain rfl : b = b'.rename s := hb
    exact same_rename s a' b'

end Related

/-- If the first result is there, so is the second, and it is related. -/
def RelatedResults (s : Renaming) (forward : Bool) (x y : Option Expr) : Prop :=
  ∀ u, x = some u → ∃ u', y = some u' ∧ Related s forward u u'

@[grind =] theorem relatedResults_none {y : Option Expr} :
    RelatedResults s forward none y ↔ True := by
  simp [RelatedResults]

@[grind =] theorem relatedResults_some :
    RelatedResults s forward (some t) (some u) ↔ Related s forward t u := by
  simp [RelatedResults]

theorem RelatedResults.map {x y : Option Expr} {f g : Expr → Expr}
    (h : RelatedResults s forward x y)
    (hfg : ∀ {t u}, Related s forward t u → Related s forward (f t) (g u)) :
    RelatedResults s forward (x.map f) (y.map g) := by
  intro u hu
  obtain ⟨t, ht, rfl⟩ := Option.map_eq_some_iff.mp hu
  obtain ⟨t', ht', hrelated⟩ := h t ht
  exact ⟨g t', by rw [ht', Option.map_some], hfg hrelated⟩

-- What a template asks about a subtree, it also asks about the related one.
grind_pattern Related.isFunction => Related s forward a a', a.isFunction
grind_pattern Related.isVariable => Related s forward a a', a.isVariable
grind_pattern Related.isNumber => Related s forward a a', a.isNumber
grind_pattern Related.isFinite => Related s forward a a', a.isFinite
grind_pattern Related.isZero => Related s forward a a', a.isZero
grind_pattern Related.isInt => Related s forward a a', a.isInt n
grind_pattern Related.same => Related s forward a a', Related s forward b b', a == b

end Expr

namespace Template

variable {s : Renaming}

/-- Gives related results for related trees. -/
def Respects (s : Renaming) (template : Template) : Prop :=
  ∀ ⦃forward t t'⦄, Expr.Related s forward t t' →
    Expr.RelatedResults s forward (template t) (template t')

theorem respects_of_rename {template : Template}
    (h : ∀ t, template (t.rename s) = (template t).map (Expr.rename s)) : Respects s template := by
  intro forward t t' ht u hu
  cases forward with
  | true =>
    obtain rfl : t' = t.rename s := ht
    rw [h, hu]
    exact ⟨u.rename s, rfl, rfl⟩
  | false =>
    obtain rfl : t = t'.rename s := ht
    rw [h] at hu
    obtain ⟨u', hu', rfl⟩ := Option.map_eq_some_iff.mp hu
    exact ⟨u', hu', rfl⟩

theorem Respects.rename {template : Template} (h : Respects s template) (t : Expr) :
    template (t.rename s) = (template t).map (Expr.rename s) := by
  have hforward : Expr.Related s true t (t.rename s) := rfl
  have hbackward : Expr.Related s false (t.rename s) t := rfl
  cases ht : template t with
  | some u =>
    obtain ⟨u', hu', rfl⟩ := h hforward u ht
    rw [hu', Option.map_some]
  | none =>
    cases ht' : template (t.rename s) with
    | none => rfl
    | some u =>
      obtain ⟨u', hu', -⟩ := h hbackward u ht'
      rw [ht] at hu'
      cases hu'

theorem rewrite_rename {family : List Template} (h : ∀ template ∈ family, template.Respects s)
    (t : Expr) : rewrite family (t.rename s) = (rewrite family t).rename s := by
  have hfirst : first family (t.rename s) = (first family t).map (Expr.rename s) := by
    unfold first
    induction family with
    | nil => rfl
    | cons template family ih =>
      rw [List.findSome?_cons, List.findSome?_cons, (h template List.mem_cons_self).rename]
      cases template t with
      | some u => rfl
      | none => exact ih fun template hmem => h template (List.mem_cons_of_mem _ hmem)
  rw [rewrite, rewrite, hfirst]
  cases first family t <;> rfl

end Template

end SymbolicAlgebra
