import SymbolicAlgebra.Proofs.Program.Slots
import SymbolicAlgebra.Proofs.Simplifier.Compilation

/-!
# Arguments that a simplified tree depends on

A run brings in no variable but `pi`, and that one only if a rule comes to a sum of complementary
arcs and makes it a right angle. A caller may declare `pi` as an argument, and then the simplified
program reads an argument that the program of the tree does not read. This is the only way to depend
on a further argument.
-/

namespace SymbolicAlgebra

namespace Expr

def HasFunction (t : Expr) (f : Elementary) : Prop := ∃ a, apply f a ∈ t.preorder

/-- Both arcs of a pair that adds up to a right angle. -/
def HasComplementaryArcs (t : Expr) : Prop :=
  (t.HasFunction .arcsin ∧ t.HasFunction .arccos) ∨ (t.HasFunction .arctan ∧ t.HasFunction .arccot)

end Expr

/-- The names and functions of a tree, and `pi` if `rightAngle` holds. -/
def Vocabulary.ofTree (t : Expr) (rightAngle : Prop) : Vocabulary where
  name x := .var x ∈ t.preorder ∨ (x = "pi" ∧ rightAngle)
  function := t.HasFunction
  mark _ := True

theorem Vocabulary.within_ofTree (t : Expr) (rightAngle : Prop) :
    t.Within (ofTree t rightAngle) := by
  intro x hx
  cases x with
  | var name => exact Or.inl hx
  | apply f a => exact ⟨a, hx⟩
  | _ => exact fun _ _ => trivial

namespace Simplifier

open SymbolicAlgebra.Expr

theorem var_mem_preorder_simplify {settings : Settings} {t : Expr} {name : String}
    (h : .var name ∈ ((ofSettings settings).simplify t).preorder) :
    .var name ∈ t.preorder ∨ (name = "pi" ∧ t.HasComplementaryArcs ∧
      (ofSettings settings).meetsComplementaryArcs t = true) :=
  within_simplify (Vocabulary.within_ofTree t _)
    (fun hmeets harcs => Or.inr ⟨rfl, harcs, hmeets⟩) (.var name) h

/-- Every slot that the simplified program reads is read by the program of the tree, except the slot
of a declared `pi` if the tree has complementary arcs and the run comes to a sum of them. -/
theorem slotsRead_simplify (settings : Settings) {t : Expr} {names : List String} {p : Program}
    (h : t.compile names = .ok p) :
    ∃ q, ((ofSettings settings).simplify t).compile names = .ok q ∧
      ∀ k ∈ q.slotsRead, k ∈ p.slotsRead ∨
        (names[k]? = some "pi" ∧ t.HasComplementaryArcs ∧
          (ofSettings settings).meetsComplementaryArcs t = true) := by
  obtain ⟨q, hq, -⟩ := exists_compile_of_marks (marks_simplify_subset settings t) h
  refine ⟨q, hq, fun k hk => ?_⟩
  obtain ⟨name, hname, slot, hslot, rfl⟩ := (mem_slotsRead hq).mp hk
  obtain hold | ⟨rfl, harcs⟩ := var_mem_preorder_simplify hname
  · exact Or.inl ((mem_slotsRead h).mpr ⟨name, hold, slot, hslot, rfl⟩)
  · exact Or.inr ⟨getElem?_of_slot? hslot, harcs⟩

/-- A right angle is written with a declared `pi`, a logarithm keeps its base. Complementary arcs
that are multiplied make no right angle. -/
theorem slotsRead_simplify_right_angle :
    let t := sum (sum (arctan (var "x")) (arccot (var "x"))) (ln (var "y"))
    let u := product (arcsin (var "x")) (product (arccos (var "x")) (int 1))
    let names := ["y", "pi", "e", "x"]
    (∃ p q, t.compile names = .ok p ∧ p.slotsRead = [3, 3, 2, 0] ∧
      ((ofSettings {}).simplify t).compile names = .ok q ∧
      ∀ k ∈ q.slotsRead, k ∈ [3, 3, 2, 0] ∨ (names[k]? = some "pi" ∧ t.HasComplementaryArcs ∧
        (ofSettings {}).meetsComplementaryArcs t = true)) ∧
    ∃ p q, u.compile names = .ok p ∧ p.slotsRead = [3, 3] ∧
      ((ofSettings {}).simplify u).compile names = .ok q ∧ ∀ k ∈ q.slotsRead, k ∈ [3, 3] := by
  intro t u names
  have hcompile : t.compile names = .ok ⟨4, _⟩ := rfl
  have hcompile' : u.compile names = .ok ⟨4, _⟩ := rfl
  obtain ⟨q, hq, hslots⟩ := slotsRead_simplify {} hcompile
  obtain ⟨q', hq', hslots'⟩ := slotsRead_simplify {} hcompile'
  have hmeets : (ofSettings {}).meetsComplementaryArcs u = false := by decide +kernel
  refine ⟨⟨_, q, hcompile, rfl, hq, hslots⟩, _, q', hcompile', rfl, hq', fun k hk => ?_⟩
  refine (hslots' k hk).resolve_right fun hpi => ?_
  rw [hmeets] at hpi
  exact absurd hpi.2.2 Bool.false_ne_true

/-- `arcsin x + arccos x` reads the first argument, and its simplified form `pi / 2` the second. -/
theorem not_slotsRead_simplify_subset :
    ¬∀ (settings : Settings) (t : Expr) (names : List String) (p q : Program),
      t.compile names = .ok p → ((ofSettings settings).simplify t).compile names = .ok q →
        q.slotsRead ⊆ p.slotsRead := by
  intro hsubset
  let t := sum (arcsin (var "x")) (arccos (var "x"))
  have hcompile : t.compile ["x", "pi"] = .ok ⟨2, _⟩ := rfl
  have hreads : (((ofSettings {}).simplify t).compile ["x", "pi"]).toOption.map
      Program.slotsRead = some [1] := by decide +kernel
  obtain ⟨q, hq, -⟩ := exists_compile_of_marks (marks_simplify_subset {} t) hcompile
  rw [hq] at hreads
  have hslots : q.slotsRead = [1] := Option.some.inj hreads
  have hmem : 1 ∈ [0, 0] := hsubset {} t ["x", "pi"] _ q hcompile hq (by simp [hslots])
  exact absurd hmem (by decide)

end Simplifier

end SymbolicAlgebra
