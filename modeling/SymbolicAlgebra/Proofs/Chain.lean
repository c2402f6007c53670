import SymbolicAlgebra.Chain

/-!
# Chains and their terms

A map that commutes with joining commutes with hanging a list. A list that is hung evenly is split in
half down to single terms, and `exists_balanced` and `balanced_induction` follow the halves. `Hung`
relates a list to everything that can be hung from it: the terms in their order, joined with any
bracketing.
-/

namespace SymbolicAlgebra.Chain

variable {α : Type} {f : α → α}

theorem linear_map (join : α → α → α) (h : ∀ a b, join (f a) (f b) = f (join a b))
    (terms : List α) :
    linear join (terms.map f) = (linear join terms).map f := by
  cases terms with
  | nil => rfl
  | cons t ts =>
    rw [List.map_cons, linear, linear, Option.map_some, Option.some.injEq]
    induction ts generalizing t with
    | nil => rfl
    | cons x ts ih => rw [List.map_cons, List.foldl_cons, List.foldl_cons, h, ih]

section Balancing

variable {join : α → α → α} {motive : List α → α → Prop} {terms : List α}

/-- Terms are hung evenly unless there are none. What holds of a single term, and of a joined tree
as soon as it holds of both halves, holds of the result. -/
theorem exists_balanced (one : ∀ x, motive [x] x)
    (halves : ∀ ts l r, 2 ≤ ts.length → motive (ts.take (ts.length / 2)) l →
      motive (ts.drop (ts.length / 2)) r → motive ts (join l r))
    (h : terms ≠ []) : ∃ t, balanced join terms = some t ∧ motive terms t := by
  generalize hlength : terms.length = n
  induction n using Nat.strongRecOn generalizing terms with
  | _ n ih =>
    have hpos : 1 ≤ terms.length := List.length_pos_iff.mpr h
    by_cases hone : terms.length = 1
    · obtain ⟨x, rfl⟩ := List.length_eq_one_iff.mp hone
      exact ⟨x, rfl, one x⟩
    · have htwo : 2 ≤ terms.length := by omega
      have htake : (terms.take (terms.length / 2)).length = terms.length / 2 := by
        rw [List.length_take]
        omega
      have hdrop : (terms.drop (terms.length / 2)).length = terms.length - terms.length / 2 :=
        List.length_drop
      obtain ⟨l, hl, hleft⟩ :=
        ih _ (by omega) (List.ne_nil_of_length_pos (by omega)) htake
      obtain ⟨r, hr, hright⟩ :=
        ih _ (by omega) (List.ne_nil_of_length_pos (by omega)) hdrop
      refine ⟨join l r, ?_, halves terms l r htwo hleft hright⟩
      rw [balanced_split join htwo, hl, hr, joinParts]

theorem balanced_induction (one : ∀ x, motive [x] x)
    (halves : ∀ ts l r, 2 ≤ ts.length → motive (ts.take (ts.length / 2)) l →
      motive (ts.drop (ts.length / 2)) r → motive ts (join l r))
    {t : α} (h : balanced join terms = some t) : motive terms t := by
  have hne : terms ≠ [] := by
    rintro rfl
    cases h
  obtain ⟨u, hu, hmotive⟩ := exists_balanced one halves hne
  cases h.symm.trans hu
  exact hmotive

theorem balanced_map (join : α → α → α) (h : ∀ a b, join (f a) (f b) = f (join a b))
    (terms : List α) :
    balanced join (terms.map f) = (balanced join terms).map f := by
  by_cases hnil : terms = []
  · rw [hnil]
    rfl
  · obtain ⟨t, ht, hmap⟩ := exists_balanced
      (motive := fun ts t => balanced join (ts.map f) = some (f t)) (fun _ => rfl)
      (fun ts l r htwo hl hr => by
        rw [balanced_split join (by rwa [List.length_map]), List.length_map, ← List.map_take,
          ← List.map_drop, hl, hr, joinParts, h]) hnil
    rw [hmap, ht, Option.map_some]

end Balancing

/-- Hung from the terms of the list, in their order. -/
inductive Hung (join : α → α → α) : List α → α → Prop
  | leaf (t : α) : Hung join [t] t
  | node {l r : List α} {a b : α} : Hung join l a → Hung join r b → Hung join (l ++ r) (join a b)

section Hanging

variable {P : α → Prop} {join : α → α → α} {terms : List α} {a t : α}

theorem Hung.foldl (h : Hung join terms a) (ts : List α) :
    Hung join (terms ++ ts) (ts.foldl join a) := by
  induction ts generalizing terms a with
  | nil => simpa using h
  | cons x ts ih => simpa using ih (h.node (.leaf x))

theorem hung_linear (h : linear join terms = some t) : Hung join terms t := by
  cases terms with
  | nil => cases h
  | cons x ts =>
    cases h
    exact (Hung.leaf x).foldl ts

theorem eq_nil_of_linear (h : linear join terms = none) : terms = [] := by
  cases terms with
  | nil => rfl
  | cons x ts => cases h

theorem Hung.foldl_groups (h : Hung join terms a) (groups : List (List α)) :
    Hung join (terms ++ groups.flatten)
      ((groups.filterMap (linear join)).foldl join a) := by
  induction groups generalizing terms a with
  | nil => simpa using h
  | cons group groups ih =>
    cases hlinear : linear join group with
    | none =>
      rw [eq_nil_of_linear hlinear]
      exact ih h
    | some b => simpa [hlinear] using ih (h.node (hung_linear hlinear))

/-- Every group is hung, then what the groups give. -/
theorem hung_groups {groups : List (List α)}
    (h : linear join (groups.filterMap (linear join)) = some t) : Hung join groups.flatten t := by
  induction groups with
  | nil => cases h
  | cons group groups ih =>
    cases group with
    | nil => exact ih h
    | cons x xs =>
      cases h
      exact ((Hung.leaf x).foldl xs).foldl_groups groups

theorem hung_balanced (h : balanced join terms = some t) : Hung join terms t := by
  refine balanced_induction .leaf (fun ts l r _ hl hr => ?_) h
  simpa using hl.node hr

theorem Hung.keeps (ht : Hung join terms t) (hjoin : ∀ {a b}, P a → P b → P (join a b))
    (hterms : ∀ x ∈ terms, P x) : P t := by
  induction ht with
  | leaf x => exact hterms x List.mem_cons_self
  | node _ _ ihl ihr =>
    rw [List.forall_mem_append] at hterms
    exact hjoin (ihl hterms.1) (ihr hterms.2)

theorem Hung.exists_join (h : Hung join terms t) (hlength : 2 ≤ terms.length) :
    ∃ a b, t = join a b := by
  cases h with
  | leaf => simp at hlength
  | node hl hr => exact ⟨_, _, rfl⟩

end Hanging

end SymbolicAlgebra.Chain
