import SymbolicAlgebra.Proofs.Expr.Marks
import SymbolicAlgebra.Proofs.Expr.Sameness

/-!
# Vocabulary of a tree

A vocabulary says which variables, functions, calculus nodes and tensors may stand in a tree.
Variables are counted by name, reserved names too. To stay within a vocabulary is carried through
rewrites. The marks of a tree make up a vocabulary that has all functions and reserved names.
-/

namespace SymbolicAlgebra

structure Vocabulary where
  name : String → Prop
  function : Elementary → Prop
  mark : Mark → Prop

/-- Both arcs of a pair that adds up to a right angle. -/
def Vocabulary.HasComplementaryArcs (V : Vocabulary) : Prop :=
  (V.function .arcsin ∧ V.function .arccos) ∨ (V.function .arctan ∧ V.function .arccot)

/-- Whether the node itself is in the vocabulary, whatever its children are. -/
def Vocabulary.Allows (V : Vocabulary) : Expr → Prop
  | .var name => V.name name
  | .apply f _ => V.function f
  | x => ∀ m ∈ x.nodeMarks, V.mark m

namespace Expr

def Within (V : Vocabulary) (t : Expr) : Prop := ∀ x ∈ t.preorder, V.Allows x

variable {V : Vocabulary} {a b : Expr}

theorem within_iff {t : Expr} : t.Within V ↔ V.Allows t ∧ ∀ c ∈ t.children, c.Within V := by
  simp only [Within, preorder_eq t, List.forall_mem_cons, List.forall_mem_flatMap]

@[simp, grind .] theorem within_num (value : Number) : (num value).Within V := by
  simp [within_iff (t := num value), Vocabulary.Allows, nodeMarks, children]

@[simp, grind =] theorem within_var {name : String} : (var name).Within V ↔ V.name name := by
  simp [within_iff (t := var name), Vocabulary.Allows, children]

@[simp, grind =] theorem within_binary {op : Operator} :
    (binary op a b).Within V ↔ a.Within V ∧ b.Within V := by
  simp [within_iff (t := binary op a b), Vocabulary.Allows, nodeMarks, children]

@[simp, grind =] theorem within_apply {f : Elementary} :
    (apply f a).Within V ↔ V.function f ∧ a.Within V := by
  simp [within_iff (t := apply f a), Vocabulary.Allows, children]

@[simp, grind =] theorem within_log {base : Expr} :
    (log base a).Within V ↔ base.Within V ∧ a.Within V := by
  simp [within_iff (t := log base a), Vocabulary.Allows, nodeMarks, children]

theorem allows_of_withChildren {t u : Expr} {ts : List Expr} (h : t.withChildren ts = some u)
    (ht : V.Allows t) : V.Allows u := by
  have hmarks := nodeMarks_of_withChildren h
  unfold withChildren at h
  split at h
  case h_9 =>
    split_ifs at h
    cases h
    simp only [Vocabulary.Allows, hmarks]
    exact ht
  case h_10 => cases h
  all_goals
    cases h
    exact ht

theorem within_of_forall₂ {ts us : List Expr}
    (h : List.Forall₂ (fun t u => t.Within V → u.Within V) ts us)
    (hts : ∀ t ∈ ts, t.Within V) : ∀ u ∈ us, u.Within V := by
  induction h with
  | nil => simp
  | cons hhead _ ih =>
    obtain ⟨hfirst, hrest⟩ := List.forall_mem_cons.mp hts
    exact List.forall_mem_cons.mpr ⟨hhead hfirst, ih hrest⟩

theorem within_iff_of_same {t u : Expr} (h : t.same u = true) : t.Within V ↔ u.Within V := by
  induction t generalizing u with
  | tensor dims elements ih =>
    cases u <;> simp only [same, Bool.false_eq_true, Bool.and_eq_true, decide_eq_true_eq] at h
    have helements := map_eq_of_sameList (fun e he u hsame => propext (ih e he hsame)) h.2
    have hlength := congrArg List.length helements
    rw [List.length_map, List.length_map] at hlength
    have hforall : ∀ ts : List Expr, (∀ c ∈ ts, c.Within V) ↔ ∀ p ∈ ts.map (Within V), p :=
      fun ts => (List.forall_mem_map (P := fun p => p)).symm
    rw [within_iff, within_iff]
    simp only [children, Vocabulary.Allows, nodeMarks, hforall, h.1, helements, hlength]
  | _ =>
    cases u <;> simp only [same, Bool.false_eq_true, Bool.and_eq_true, decide_eq_true_eq,
      beq_iff_eq] at h
    all_goals
      rw [within_iff, within_iff]
      simp only [children, Vocabulary.Allows, nodeMarks] <;> grind

end Expr

/-- Staying within a vocabulary is carried through rewrites. -/
theorem RewriteRelation.within (V : Vocabulary) :
    RewriteRelation fun t u => t.Within V → u.Within V where
  refl _ h := h
  trans htu huv h := huv (htu h)
  node {t u ts} hchildren hu h := by
    obtain ⟨hroot, hts⟩ := Expr.within_iff.mp h
    refine Expr.within_iff.mpr ⟨Expr.allows_of_withChildren hu hroot, ?_⟩
    rw [Expr.children_of_withChildren hu]
    exact Expr.within_of_forall₂ hchildren hts

namespace Vocabulary

/-- All functions and reserved names, and what the marks tell. -/
def ofMarks (M : List Mark) : Vocabulary where
  name x := Constants.standard.isReserved x = true ∨ .free x ∈ M
  function _ := True
  mark m := m ∈ M

theorem allows_ofMarks {M : List Mark} {t : Expr} :
    (ofMarks M).Allows t ↔ t.nodeMarks ⊆ M := by
  cases t with
  | var name =>
    by_cases hreserved : Constants.standard.isReserved name = true <;>
      simp [Allows, ofMarks, Expr.nodeMarks, hreserved]
  | apply f a => simp [Allows, ofMarks, Expr.nodeMarks]
  | _ => rfl

theorem within_ofMarks {M : List Mark} {t : Expr} : t.Within (ofMarks M) ↔ t.marks ⊆ M := by
  simp only [Expr.Within, allows_ofMarks, Expr.marks, List.subset_def, List.mem_flatMap,
    forall_exists_index, and_imp]
  exact ⟨fun h m x hx hm => h x hx hm, fun h x hx m hm => h x hx hm⟩

end Vocabulary

end SymbolicAlgebra
