import Mathlib.Data.List.FinRange
import Mathlib.Data.List.SplitBy
import Mathlib.Tactic.ByContra
import SymbolicAlgebra.Chain

/-!
# Groups of terms that agree

Grouping is a stable partition: it splits the positions of a list into classes that agree, each in
increasing order, and the classes in the order of their first positions. The same groups come out of
a stable sort by the order in which the keys of the terms are first seen, cut where the key changes.
Grouping the grouped terms gives the same groups, and a coarser relation merges whole groups.
-/

namespace SymbolicAlgebra.Chain

variable {α β κ : Type} {agree : α → α → Bool} {terms g : List α} {x y : α}

/-- Grouping goes on with the terms that do not agree with the first. -/
theorem groups_induction {motive : List α → Prop} (agree : α → α → Bool) (nil : motive [])
    (cons : ∀ t ts, motive (ts.filter (!agree t ·)) → motive (t :: ts)) (terms : List α) :
    motive terms := by
  generalize hlength : terms.length = n
  induction n using Nat.strongRecOn generalizing terms with
  | _ n ih =>
    cases terms with
    | nil => exact nil
    | cons t ts =>
      refine cons t ts (ih _ ?_ _ rfl)
      rw [← hlength, List.length_cons]
      exact Nat.lt_succ_of_le (List.length_filter_le _ ts)

/-- A map that keeps which terms agree commutes with grouping. -/
theorem groups_map {agree' : β → β → Bool} {f : α → β}
    (h : ∀ a b, agree' (f a) (f b) = agree a b) (terms : List α) :
    groups agree' (terms.map f) = (groups agree terms).map (List.map f) := by
  induction terms using groups_induction agree with
  | nil => rfl
  | cons t ts ih =>
    have hmap : (ts.map f).filter (!agree' (f t) ·) = (ts.filter (!agree t ·)).map f := by
      simp only [List.filter_map, Function.comp_def, h]
    rw [List.map_cons, groups_cons, hmap, ih, groups_cons, List.map_cons, List.map_cons,
      List.filter_map]
    simp only [Function.comp_def, h]

theorem groups_flatten_perm (agree : α → α → Bool) (terms : List α) :
    (groups agree terms).flatten.Perm terms := by
  induction terms using groups_induction agree with
  | nil => simp
  | cons t ts ih =>
    rw [groups_cons, List.flatten_cons, List.cons_append]
    refine List.Perm.cons t ?_
    exact (ih.append_left _).trans (List.filter_append_perm (agree t) ts)

theorem length_groups_of_short (agree : α → α → Bool) {terms : List α} (h : terms.length < 2) :
    (groups agree terms).length = terms.length := by
  match terms with
  | [] => rfl
  | [_] => rfl

theorem filter_append_of_separated {p : α → Bool} {l r : List α} (hl : ∀ x ∈ l, p x = true)
    (hr : ∀ x ∈ r, p x = false) : (l ++ r).filter p = l ∧ (l ++ r).filter (!p ·) = r := by
  have hnone : r.filter p = [] := List.filter_eq_nil_iff.mpr fun x hx => by simp [hr x hx]
  have hnone' : l.filter (!p ·) = [] := List.filter_eq_nil_iff.mpr fun x hx => by simp [hl x hx]
  have hall : l.filter p = l := List.filter_eq_self.mpr hl
  have hall' : r.filter (!p ·) = r := List.filter_eq_self.mpr fun x hx => by simp [hr x hx]
  rw [List.filter_append, List.filter_append, hnone, hnone', hall, hall', List.append_nil,
    List.nil_append]
  exact ⟨rfl, rfl⟩

theorem agree_of_mem_rest {t : α} {ts : List α}
    (hx : x ∈ (groups agree (ts.filter (!agree t ·))).flatten) : agree t x = false := by
  simpa using (List.mem_filter.mp ((groups_flatten_perm agree _).mem_iff.mp hx)).2

/-- The first group is found again, since no term of the others agrees with its first member. -/
theorem groups_flatten (agree : α → α → Bool) (terms : List α) :
    groups agree (groups agree terms).flatten = groups agree terms := by
  induction terms using groups_induction agree with
  | nil => rfl
  | cons t ts ih =>
    have hfirst : ∀ x ∈ ts.filter (agree t), agree t x = true := fun x hx =>
      (List.mem_filter.mp hx).2
    obtain ⟨hagree, hdiffer⟩ := filter_append_of_separated hfirst fun _ => agree_of_mem_rest
    rw [groups_cons, List.flatten_cons, List.cons_append, groups_cons, hagree, hdiffer, ih]

theorem nil_notMem_groups (agree : α → α → Bool) (terms : List α) : [] ∉ groups agree terms := by
  induction terms using groups_induction agree with
  | nil => exact List.not_mem_nil
  | cons t ts ih => simp [groups_cons, ih]

theorem sublist_of_mem_groups (hg : g ∈ groups agree terms) : g.Sublist terms := by
  induction terms using groups_induction agree with
  | nil => cases hg
  | cons t ts ih =>
    rw [groups_cons] at hg
    obtain rfl | hg := List.mem_cons.mp hg
    · exact List.filter_sublist.cons_cons t
    · exact ((ih hg).trans List.filter_sublist).cons t

theorem heads_sublist (agree : α → α → Bool) (terms : List α) :
    ((groups agree terms).filterMap List.head?).Sublist terms := by
  induction terms using groups_induction agree with
  | nil => exact List.Sublist.slnil
  | cons t ts ih =>
    rw [groups_cons, List.filterMap_cons_some List.head?_cons]
    exact (ih.trans List.filter_sublist).cons_cons t

theorem length_groups_le (agree : α → α → Bool) (terms : List α) :
    (groups agree terms).length ≤ terms.length := by
  induction terms using groups_induction agree with
  | nil => exact Nat.le_refl 0
  | cons t ts ih =>
    rw [groups_cons, List.length_cons, List.length_cons]
    exact Nat.succ_le_succ (ih.trans (List.length_filter_le _ ts))

/-- There are as many groups as terms just if no two terms agree. -/
theorem length_groups_eq_iff :
    (groups agree terms).length = terms.length ↔ terms.Pairwise (agree · · = false) := by
  induction terms using groups_induction agree with
  | nil => simp
  | cons t ts ih =>
    rw [groups_cons, List.length_cons, List.length_cons, Nat.succ_inj, List.pairwise_cons]
    constructor
    · intro h
      have hrest := length_groups_le agree (ts.filter (!agree t ·))
      have hfilter : ts.filter (!agree t ·) = ts :=
        List.filter_sublist.eq_of_length (Nat.le_antisymm (List.length_filter_le _ ts) (h ▸ hrest))
      rw [hfilter] at ih h
      exact ⟨fun a ha => by simpa using List.filter_eq_self.mp hfilter a ha, ih.mp h⟩
    · rintro ⟨hfirst, hrest⟩
      have hfilter : ts.filter (!agree t ·) = ts :=
        List.filter_eq_self.mpr fun a ha => by rw [hfirst a ha]; rfl
      rw [hfilter] at ih ⊢
      exact ih.mpr hrest

theorem groups_congr {agree' : α → α → Bool}
    (h : ∀ a ∈ terms, ∀ b ∈ terms, agree a b = agree' a b) :
    groups agree terms = groups agree' terms := by
  induction terms using groups_induction agree with
  | nil => rfl
  | cons t ts ih =>
    have hfirst : ∀ a ∈ ts, agree t a = agree' t a := fun a ha =>
      h t List.mem_cons_self a (List.mem_cons_of_mem t ha)
    have hrest : ts.filter (!agree t ·) = ts.filter (!agree' t ·) :=
      List.filter_congr fun a ha => by rw [hfirst a ha]
    have hmem : ∀ a ∈ ts.filter (!agree t ·), a ∈ t :: ts := fun a ha =>
      List.mem_cons_of_mem t (List.mem_filter.mp ha).1
    rw [groups_cons, groups_cons, List.filter_congr hfirst, ← hrest,
      ih fun a ha b hb => h a (hmem a ha) b (hmem b hb)]

/-! ## Classes -/

section Classes

variable (hagree : Equivalence fun a b => agree a b = true)

include hagree

theorem agree_of_mem_first {t : α} {ts : List α} (hx : x ∈ t :: ts.filter (agree t)) :
    agree t x = true := by
  obtain rfl | hx := List.mem_cons.mp hx
  · exact hagree.refl x
  · exact (List.mem_filter.mp hx).2

theorem agree_of_mem_groups (hg : g ∈ groups agree terms) (hx : x ∈ g) (hy : y ∈ g) :
    agree x y = true := by
  induction terms using groups_induction agree with
  | nil => cases hg
  | cons t ts ih =>
    rw [groups_cons] at hg
    obtain rfl | hg := List.mem_cons.mp hg
    · have htx := agree_of_mem_first hagree hx
      exact hagree.trans (hagree.symm htx) (agree_of_mem_first hagree hy)
    · exact ih hg

theorem exists_mem_groups (hx : x ∈ terms) (hy : y ∈ terms) (hxy : agree x y = true) :
    ∃ g ∈ groups agree terms, x ∈ g ∧ y ∈ g := by
  induction terms using groups_induction agree with
  | nil => cases hx
  | cons t ts ih =>
    rw [groups_cons]
    have hfirst : ∀ z ∈ t :: ts, agree t z = true → z ∈ t :: ts.filter (agree t) := by
      intro z hz htz
      exact (List.mem_cons.mp hz).elim (fun h => h ▸ List.mem_cons_self)
        fun hz => List.mem_cons_of_mem t (List.mem_filter.mpr ⟨hz, htz⟩)
    have hrest : ∀ z ∈ t :: ts, agree t z = false → z ∈ ts.filter (!agree t ·) := by
      intro z hz htz
      obtain rfl | hz := List.mem_cons.mp hz
      · rw [hagree.refl z] at htz
        cases htz
      · exact List.mem_filter.mpr ⟨hz, by rw [htz]; rfl⟩
    cases htx : agree t x with
    | true =>
      exact ⟨_, List.mem_cons_self, hfirst x hx htx, hfirst y hy (hagree.trans htx hxy)⟩
    | false =>
      have hty : agree t y = false := by
        by_contra hty
        rw [Bool.not_eq_false] at hty
        rw [hagree.trans hty (hagree.symm hxy)] at htx
        cases htx
      obtain ⟨g, hg, hxg, hyg⟩ := ih (hrest x hx htx) (hrest y hy hty)
      exact ⟨g, List.mem_cons_of_mem _ hg, hxg, hyg⟩

/-- Terms of different groups do not agree. -/
theorem pairwise_groups (terms : List α) :
    (groups agree terms).Pairwise fun g g' => ∀ x ∈ g, ∀ y ∈ g', agree x y = false := by
  induction terms using groups_induction agree with
  | nil => exact List.Pairwise.nil
  | cons t ts ih =>
    rw [groups_cons]
    refine List.Pairwise.cons (fun g hg x hx y hy => ?_) ih
    have htx := agree_of_mem_first hagree hx
    have hty : agree t y = false := agree_of_mem_rest (List.mem_flatten.mpr ⟨g, hg, hy⟩)
    by_contra hxy
    rw [Bool.not_eq_false] at hxy
    rw [hagree.trans htx hxy] at hty
    cases hty

end Classes

/-! ## Positions -/

/-- The groups of a list as lists of positions. -/
def places (agree : α → α → Bool) (terms : List α) : List (List (Fin terms.length)) :=
  groups (fun i j => agree (terms.get i) (terms.get j)) (List.finRange terms.length)

theorem groups_eq_map_places (agree : α → α → Bool) (terms : List α) :
    groups agree terms = (places agree terms).map (List.map terms.get) := by
  calc
    groups agree terms = groups agree ((List.finRange terms.length).map terms.get) := by
      rw [List.map_get_finRange]
    _ = (places agree terms).map (List.map terms.get) := groups_map (fun _ _ => rfl) _

/-- Lists of positions that split the list into classes of terms that agree, each class in the order
of the list and the classes in the order of their first members. -/
structure IsStablePartition (agree : α → α → Bool) (terms : List α)
    (classes : List (List (Fin terms.length))) : Prop where
  nonempty : ∀ c ∈ classes, c ≠ []
  together_iff : ∀ i j, (∃ c ∈ classes, i ∈ c ∧ j ∈ c) ↔ agree (terms.get i) (terms.get j) = true
  increasing : ∀ c ∈ classes, c.Pairwise (· < ·)
  firsts_increasing : (classes.filterMap List.head?).Pairwise (· < ·)
  perm : classes.flatten.Perm (List.finRange terms.length)

theorem isStablePartition_places (hagree : Equivalence fun a b => agree a b = true)
    (terms : List α) : IsStablePartition agree terms (places agree terms) where
  nonempty c hc := by
    rintro rfl
    exact nil_notMem_groups _ _ hc
  together_iff i j := by
    have hpositions : Equivalence fun i j => agree (terms.get i) (terms.get j) = true :=
      hagree.comap terms.get
    constructor
    · rintro ⟨c, hc, hi, hj⟩
      have hij := agree_of_mem_groups hpositions hc hi hj
      exact hij
    · exact exists_mem_groups hpositions (List.mem_finRange i) (List.mem_finRange j)
  increasing c hc := (List.pairwise_lt_finRange _).sublist (sublist_of_mem_groups hc)
  firsts_increasing := (List.pairwise_lt_finRange _).sublist (heads_sublist _ _)
  perm := groups_flatten_perm _ _

theorem IsStablePartition.eq_of_mem {classes : List (List (Fin terms.length))}
    (h : IsStablePartition agree terms classes) {c c' : List (Fin terms.length)}
    (hc : c ∈ classes) (hc' : c' ∈ classes) {i : Fin terms.length} (hi : i ∈ c) (hi' : i ∈ c') :
    c = c' := by
  by_contra hne
  have hnodup : classes.flatten.Nodup := h.perm.nodup_iff.mpr (List.nodup_finRange _)
  have : Std.Symm (@List.Disjoint (Fin terms.length)) := ⟨fun _ _ h _ ha hb => h hb ha⟩
  exact (List.nodup_flatten.mp hnodup).2.forall hc hc' hne hi hi'

/-- Where a coarser relation is used, every class is contained in just one class. -/
theorem IsStablePartition.existsUnique_subset {agree' : α → α → Bool}
    {classes classes' : List (List (Fin terms.length))}
    (h : IsStablePartition agree terms classes) (h' : IsStablePartition agree' terms classes')
    (hcoarser : ∀ a b, agree a b = true → agree' a b = true) {c : List (Fin terms.length)}
    (hc : c ∈ classes) : ∃! c', c' ∈ classes' ∧ c ⊆ c' := by
  obtain ⟨i, hi⟩ := List.exists_mem_of_ne_nil c (h.nonempty c hc)
  have htogether : ∀ j ∈ c, ∃ c' ∈ classes', i ∈ c' ∧ j ∈ c' := fun j hj =>
    (h'.together_iff i j).mpr (hcoarser _ _ ((h.together_iff i j).mp ⟨c, hc, hi, hj⟩))
  obtain ⟨c', hc', hic', -⟩ := htogether i hi
  refine ⟨c', ⟨hc', fun j hj => ?_⟩, fun d ⟨hd, hcd⟩ => h'.eq_of_mem hd hc' (hcd hi) hic'⟩
  obtain ⟨d, hd, hid, hjd⟩ := htogether j hj
  exact h'.eq_of_mem hd hc' hid hic' ▸ hjd

/-! ## Stable sorts -/

section Ranks

variable {r : α → ℕ} {l l' : List α}

/-- Stability: terms of one rank keep their order. -/
theorem filter_mergeSort (r : α → ℕ) (l : List α) (k : ℕ) :
    (l.mergeSort fun a b => r a ≤ r b).filter (r · = k) = l.filter (r · = k) := by
  have hfiber : (l.filter (r · = k)).Pairwise fun a b => decide (r a ≤ r b) = true := by
    refine List.pairwise_of_forall_mem_list fun a ha b hb => ?_
    simp only [List.mem_filter, decide_eq_true_eq] at ha hb
    rw [ha.2, hb.2]
    exact decide_eq_true (Nat.le_refl k)
  have hsub : (l.filter (r · = k)).Sublist (l.mergeSort fun a b => r a ≤ r b) :=
    List.sublist_mergeSort (by simp only [decide_eq_true_eq]; omega)
      (by simp only [Bool.or_eq_true, decide_eq_true_eq]; omega) hfiber List.filter_sublist
  have hperm := (List.mergeSort_perm l fun a b => r a ≤ r b).filter (r · = k)
  have hfilter := hsub.filter (r · = k)
  rw [List.filter_filter] at hfilter
  simp only [Bool.and_self] at hfilter
  exact (hfilter.eq_of_length hperm.length_eq.symm).symm

/-- Sorted lists are the same if they have the same terms of each rank in the same order. -/
theorem eq_of_fibers (hl : l.Pairwise (r · ≤ r ·)) (hl' : l'.Pairwise (r · ≤ r ·))
    (h : ∀ k, l.filter (r · = k) = l'.filter (r · = k)) : l = l' := by
  induction l generalizing l' with
  | nil =>
    cases l' with
    | nil => rfl
    | cons b l' => simpa using h (r b)
  | cons a l ih =>
    cases l' with
    | nil => simpa using h (r a)
    | cons b l' =>
      -- The first terms have the least rank of either list, and the lists have the same ranks.
      obtain ⟨ha, htail⟩ := List.pairwise_cons.mp hl
      obtain ⟨hb, htail'⟩ := List.pairwise_cons.mp hl'
      have hab : r a = r b := by
        have hmem : a ∈ (b :: l').filter (r · = r a) := by rw [← h]; simp
        have hmem' : b ∈ (a :: l).filter (r · = r b) := by rw [h]; simp
        simp only [List.mem_filter, List.mem_cons] at hmem hmem'
        grind
      have hcons := h (r a)
      simp only [List.filter_cons, hab, decide_true, if_true, List.cons.injEq] at hcons
      obtain ⟨rfl, -⟩ := hcons
      refine congrArg (a :: ·) (ih htail htail' fun k => ?_)
      have hk := h k
      rw [List.filter_cons, List.filter_cons] at hk
      split_ifs at hk
      · exact (List.cons.inj hk).2
      · exact hk

end Ranks

/-! ## Sorting by first sight -/

/-- Grouping keeps the order of the terms of a class. -/
theorem filter_flatten_groups {p : α → Bool}
    (hclass : ∀ a ∈ terms, ∀ b ∈ terms, agree a b = true → p a = p b)
    (hone : ∀ a ∈ terms, ∀ b ∈ terms, p a = true → p b = true → agree a b = true) :
    (groups agree terms).flatten.filter p = terms.filter p := by
  induction terms using groups_induction agree with
  | nil => rfl
  | cons t ts ih =>
    have hmem : ∀ a ∈ ts.filter (!agree t ·), a ∈ t :: ts := fun a ha =>
      List.mem_cons_of_mem t (List.mem_filter.mp ha).1
    have hrest := ih (fun a ha b hb => hclass a (hmem a ha) b (hmem b hb))
      fun a ha b hb => hone a (hmem a ha) b (hmem b hb)
    have hsplit : (ts.filter (agree t)).filter p ++ (ts.filter (!agree t ·)).filter p =
        ts.filter p := by
      have htrue : ∀ x ∈ ts, agree t x = true → p t = p x := fun x hx =>
        hclass t List.mem_cons_self x (List.mem_cons_of_mem t hx)
      have hfalse : ∀ x ∈ ts, p t = true → p x = true → agree t x = true := fun x hx =>
        hone t List.mem_cons_self x (List.mem_cons_of_mem t hx)
      rw [List.filter_filter, List.filter_filter]
      cases hpt : p t with
      | true =>
        have hnone : ts.filter (fun x => p x && !agree t x) = [] :=
          List.filter_eq_nil_iff.mpr fun x hx => by grind
        rw [hnone, List.append_nil]
        exact List.filter_congr fun x hx => by grind
      | false =>
        have hnone : ts.filter (fun x => p x && agree t x) = [] :=
          List.filter_eq_nil_iff.mpr fun x hx => by grind
        rw [hnone, List.nil_append]
        exact List.filter_congr fun x hx => by grind
    rw [groups_cons, List.flatten_cons, List.cons_append, List.filter_cons, List.filter_cons,
      List.filter_append, hrest, hsplit]

section Keys

variable [DecidableEq κ] {key : α → κ}

def keysAgree (key : α → κ) (a b : α) : Bool := key a = key b

theorem equivalence_keysAgree (key : α → κ) :
    Equivalence fun a b => keysAgree key a b = true := by
  simp only [keysAgree, decide_eq_true_eq]
  exact ⟨fun _ => rfl, Eq.symm, Eq.trans⟩

/-- The number of a term's key in the order in which the keys of the list are first seen. -/
def firstSeen (key : α → κ) (terms : List α) (t : α) : ℕ :=
  (terms.map key).eraseDups.idxOf (key t)

/-- A stable sort by the number of the key, cut where the key changes. -/
def groupsByKey (key : α → κ) (terms : List α) : List (List α) :=
  (terms.mergeSort fun a b => firstSeen key terms a ≤ firstSeen key terms b).splitBy (keysAgree key)

theorem firstSeen_eq_iff (hx : x ∈ terms) :
    firstSeen key terms x = firstSeen key terms y ↔ keysAgree key x y = true := by
  rw [firstSeen, firstSeen, keysAgree, decide_eq_true_eq]
  exact List.idxOf_inj (List.mem_eraseDups.mpr (List.mem_map_of_mem hx))

theorem firstSeen_cons (t : α) (ts : List α) (x : α) :
    firstSeen key (t :: ts) x =
      if keysAgree key t x then 0 else firstSeen key (ts.filter (!keysAgree key t ·)) x + 1 := by
  have hkeys : (ts.map key).filter (!· == key t) = (ts.filter (!keysAgree key t ·)).map key := by
    rw [List.filter_map]
    congr 1
    refine List.filter_congr fun u _ => ?_
    grind [keysAgree]
  rw [firstSeen, List.map_cons, List.eraseDups_cons, hkeys, List.idxOf_cons]
  grind [keysAgree, firstSeen]

theorem pairwise_flatten_groups (key : α → κ) (terms : List α) :
    (groups (keysAgree key) terms).flatten.Pairwise
      (firstSeen key terms · ≤ firstSeen key terms ·) := by
  induction terms using groups_induction (keysAgree key) with
  | nil => exact List.Pairwise.nil
  | cons t ts ih =>
    have hfirst : ∀ x ∈ t :: ts.filter (keysAgree key t), firstSeen key (t :: ts) x = 0 := by
      intro x hx
      rw [firstSeen_cons, if_pos (agree_of_mem_first (equivalence_keysAgree key) hx)]
    have hrest : ∀ x ∈ (groups (keysAgree key) (ts.filter (!keysAgree key t ·))).flatten,
        firstSeen key (t :: ts) x = firstSeen key (ts.filter (!keysAgree key t ·)) x + 1 := by
      intro x hx
      rw [firstSeen_cons, agree_of_mem_rest hx, if_neg Bool.false_ne_true]
    rw [groups_cons, List.flatten_cons, List.pairwise_append]
    refine ⟨?_, ?_, fun x hx y _ => hfirst x hx ▸ Nat.zero_le _⟩
    · refine List.pairwise_of_forall_mem_list fun x hx y hy => ?_
      rw [hfirst x hx, hfirst y hy]
    · refine ih.imp_of_mem fun hx hy hxy => ?_
      rw [hrest _ hx, hrest _ hy]
      exact Nat.succ_le_succ hxy

theorem mergeSort_firstSeen (key : α → κ) (terms : List α) :
    (terms.mergeSort fun a b => firstSeen key terms a ≤ firstSeen key terms b) =
      (groups (keysAgree key) terms).flatten := by
  refine eq_of_fibers ?_ (pairwise_flatten_groups key terms) fun k => ?_
  · refine (List.pairwise_mergeSort ?_ ?_ terms).imp fun h => of_decide_eq_true h
    · simp only [decide_eq_true_eq]
      omega
    · simp only [Bool.or_eq_true, decide_eq_true_eq]
      omega
  · rw [filter_mergeSort, filter_flatten_groups]
    · intro a ha b _ hab
      rw [(firstSeen_eq_iff ha).mpr hab]
    · intro a ha b _ hka hkb
      rw [decide_eq_true_eq] at hka hkb
      exact (firstSeen_eq_iff ha).mp (hka.trans hkb.symm)

/-- Sorting by the numbers of the keys and cutting is grouping by the keys. -/
theorem groupsByKey_eq (key : α → κ) (terms : List α) :
    groupsByKey key terms = groups (keysAgree key) terms := by
  have hequivalence := equivalence_keysAgree key
  have hnonempty := nil_notMem_groups (keysAgree key) terms
  rw [groupsByKey, mergeSort_firstSeen]
  refine List.splitBy_flatten hnonempty (fun g hg => ?_) ?_
  · refine (List.pairwise_of_forall_mem_list fun x hx y hy => ?_).isChain
    exact agree_of_mem_groups hequivalence hg hx hy
  · refine ((pairwise_groups hequivalence terms).imp_of_mem fun hg hg' h => ?_).isChain
    have hne : ∀ g ∈ groups (keysAgree key) terms, g ≠ [] := fun g hg hnil =>
      hnonempty (hnil ▸ hg)
    exact ⟨hne _ hg, hne _ hg', h _ (List.getLast_mem _) _ (List.head_mem _)⟩

end Keys

end SymbolicAlgebra.Chain
