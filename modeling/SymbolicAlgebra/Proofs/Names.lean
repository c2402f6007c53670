import Mathlib.Data.List.Sort
import Mathlib.Data.String.Basic
import SymbolicAlgebra.Names

/-!
# Sets of names are determined by their members

The order of names is the order of strings, and a set of names is a strictly increasing list.
-/

namespace SymbolicAlgebra.Names

theorem precedesChars_iff {cs ds : List Char} : precedesChars cs ds = true ↔ cs < ds := by
  induction cs generalizing ds with
  | nil => cases ds <;> simp [precedesChars]
  | cons c cs ih =>
    cases ds with
    | nil => simp [precedesChars]
    | cons d ds =>
      have hlt : c.toNat < d.toNat ↔ c < d := Iff.rfl
      simp [precedesChars, List.cons_lt_cons_iff, ih, hlt]

theorem precedes_iff {x y : String} : precedes x y = true ↔ x < y := by
  rw [precedes, precedesChars_iff, String.lt_iff_toList_lt]

theorem pairwise_insert {xs : List String} (h : xs.Pairwise (· < ·)) (x : String) :
    (insert x xs).Pairwise (· < ·) := by
  induction xs with
  | nil => simp [insert]
  | cons y ys ih =>
    have htail := List.pairwise_cons.mp h
    unfold insert
    split_ifs with heq hlt
    · exact h
    · have hxy : x < y := precedes_iff.mp hlt
      refine List.pairwise_cons.mpr ⟨fun z hz => ?_, h⟩
      obtain rfl | hz := List.mem_cons.mp hz
      · exact hxy
      · exact hxy.trans (htail.1 z hz)
    · have hyx : y < x :=
        lt_of_le_of_ne (not_lt.mp fun hxy => hlt (precedes_iff.mpr hxy)) (Ne.symm heq)
      refine List.pairwise_cons.mpr ⟨fun z hz => ?_, ih htail.2⟩
      obtain rfl | hz := mem_insert.mp hz
      · exact hyx
      · exact htail.1 z hz

theorem pairwise_union {ys : List String} (h : ys.Pairwise (· < ·)) (xs : List String) :
    (union xs ys).Pairwise (· < ·) := by
  induction xs with
  | nil => exact h
  | cons x xs ih => exact pairwise_insert ih x

end SymbolicAlgebra.Names
