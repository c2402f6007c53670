import Mathlib.Data.List.Induction
import SymbolicAlgebra.Proofs.Document.Layout

/-!
# Merging sections

A document takes the entries of its sections one after the other, and each entry replaces what was
under its title and key. So of the entries of one title and key the last one counts, wherever the
sections have them.
-/

namespace SymbolicAlgebra.Document

open Source

def entriesOf (s : Section) : List Entry := s.pairs.map fun pair => ((s.title, pair.1), pair.2)

def addEntry (d : Document) (e : Entry) : Document := addPair e.1.1 d (e.1.2, e.2)

theorem ofSections_eq (sections : List Section) :
    ofSections sections = (sections.flatMap entriesOf).foldl addEntry [] := by
  simp only [ofSections, List.foldl_flatMap]
  congr 1
  funext d s
  rw [entriesOf, List.foldl_map]
  rfl

theorem get?_addEntry (d : Document) (e : Entry) (title : String) :
    Dictionary.get? (addEntry d e) title =
      if e.1.1 = title then
        some (Dictionary.insert e.1.2 (some e.2) ((Dictionary.get? d title).getD []))
      else Dictionary.get? d title := by
  rw [addEntry, addPair, Dictionary.get?_insert]
  split_ifs with h
  · rw [h]
  · rfl

theorem at?_addEntry (d : Document) (e : Entry) (title key : String) :
    at? (addEntry d e) title key = if e.1 = (title, key) then some (some e.2) else at? d title key := by
  obtain ⟨⟨title', key'⟩, vs⟩ := e
  rw [at?, get?_addEntry]
  by_cases htitle : title' = title
  · rw [if_pos htitle, Option.bind_some, Dictionary.get?_insert]
    cases hget : Dictionary.get? d title <;> simp [at?, hget, htitle, Dictionary.get?]
  · simp [at?, htitle]

theorem at?_foldl (entries : List Entry) (title key : String) :
    at? (entries.foldl addEntry []) title key =
      (entries.reverse.lookup (title, key)).map some := by
  induction entries using List.reverseRecOn with
  | nil => rfl
  | append_singleton entries e ih =>
    rw [List.foldl_concat, at?_addEntry, ih, List.reverse_concat, List.lookup_cons]
    by_cases h : e.1 = (title, key)
    · simp [h]
    · rw [if_neg h, beq_eq_false_iff_ne.mpr (Ne.symm h)]

theorem isSome_get?_foldl (entries : List Entry) (title : String) :
    (Dictionary.get? (entries.foldl addEntry []) title).isSome = true ↔
      ∃ e ∈ entries, e.1.1 = title := by
  induction entries using List.reverseRecOn with
  | nil => simp [Dictionary.get?]
  | append_singleton entries e ih =>
    rw [List.foldl_concat, get?_addEntry]
    split_ifs with h
    · simp [h]
    · simp [ih, or_and_right, exists_or, h]

theorem represents_ofSections (sections : List Source.Section) :
    Represents (ofSections (sections.map Source.Section.read)) sections := by
  have hentries : (sections.map Source.Section.read).flatMap entriesOf = Source.entries sections := by
    rw [List.flatMap_map, Source.entries]
    congr 1
    funext s
    rw [entriesOf, Source.Section.read, List.map_map]
    rfl
  rw [ofSections_eq, hentries]
  refine ⟨at?_foldl _, fun title => ?_⟩
  rw [isSome_get?_foldl]
  constructor
  · rintro ⟨e, he, rfl⟩
    obtain ⟨s, hs, p, hp, rfl⟩ : ∃ s ∈ sections, ∃ p ∈ s.pairs,
        ((s.title.name, p.key.name), p.read.2) = e := by
      simpa [Source.entries] using he
    exact ⟨s, hs, rfl⟩
  · rintro ⟨s, hs, rfl⟩
    obtain ⟨p, hp⟩ := List.exists_mem_of_ne_nil s.pairs s.pairs_ne_nil
    refine ⟨((s.title.name, p.key.name), p.read.2), ?_, rfl⟩
    exact List.mem_flatMap.mpr ⟨s, hs, List.mem_map_of_mem hp⟩

end SymbolicAlgebra.Document
