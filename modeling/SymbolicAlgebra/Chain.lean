/-!
# Lists hung on a binary operation

`linear` joins the terms of a list from the left, `balanced` splits it in half again and again.
Neither has a result for the empty list. `groups` splits a list into groups of terms that agree, in
the order of their first members.

`balanced` and `groups` count their steps down from the length of the list, which is always enough:
`balanced_split` and `groups_cons` are their equations.
-/

namespace SymbolicAlgebra.Chain

variable {α : Type}

def linear (join : α → α → α) : List α → Option α
  | [] => none
  | t :: ts => some (ts.foldl join t)

/-- Joins two parts that are there. -/
def joinParts (join : α → α → α) : Option α → Option α → Option α
  | some l, some r => some (join l r)
  | _, _ => none

def balancedUpTo (join : α → α → α) : Nat → List α → Option α
  | _, [] => none
  | _, [t] => some t
  | 0, _ => none
  | n + 1, t :: t' :: ts =>
    let terms := t :: t' :: ts
    let half := terms.length / 2
    joinParts join (balancedUpTo join n (terms.take half)) (balancedUpTo join n (terms.drop half))

def balanced (join : α → α → α) (terms : List α) : Option α :=
  balancedUpTo join terms.length terms

theorem balancedUpTo_eq (join : α → α → α) {n : Nat} {terms : List α} (h : terms.length ≤ n) :
    balancedUpTo join n terms = balanced join terms := by
  unfold balanced
  generalize hm : terms.length = m at h
  replace hm : terms.length ≤ m := by omega
  induction n generalizing m terms with
  | zero =>
    obtain rfl : m = 0 := by omega
    rfl
  | succ n ih =>
    match terms, m with
    | [], _ => simp [balancedUpTo]
    | [t], _ => simp [balancedUpTo]
    | t :: t' :: ts, 0 => simp at hm
    | t :: t' :: ts, m + 1 =>
      simp only [List.length_cons] at hm
      have hl : ((t :: t' :: ts).take ((t :: t' :: ts).length / 2)).length ≤ m := by
        simp only [List.length_take, List.length_cons]
        omega
      have hr : ((t :: t' :: ts).drop ((t :: t' :: ts).length / 2)).length ≤ m := by
        simp only [List.length_drop, List.length_cons]
        omega
      simp only [balancedUpTo]
      rw [ih m (by omega) hl, ih m (by omega) hr]

@[simp] theorem balanced_nil (join : α → α → α) : balanced join [] = none := rfl

@[simp] theorem balanced_one (join : α → α → α) (t : α) : balanced join [t] = some t := rfl

/-- More than one term is split in half. -/
theorem balanced_split (join : α → α → α) {terms : List α} (h : 2 ≤ terms.length) :
    balanced join terms =
      joinParts join (balanced join (terms.take (terms.length / 2)))
        (balanced join (terms.drop (terms.length / 2))) := by
  match terms with
  | [] => simp at h
  | [t] => simp at h
  | t :: t' :: ts =>
    have hl : ((t :: t' :: ts).take ((t :: t' :: ts).length / 2)).length ≤ ts.length + 1 := by
      simp only [List.length_take, List.length_cons]
      omega
    have hr : ((t :: t' :: ts).drop ((t :: t' :: ts).length / 2)).length ≤ ts.length + 1 := by
      simp only [List.length_drop, List.length_cons]
      omega
    rw [← balancedUpTo_eq join hl, ← balancedUpTo_eq join hr]
    rfl

def groupsUpTo (agree : α → α → Bool) : Nat → List α → List (List α)
  | _, [] => []
  | 0, _ => []
  | n + 1, t :: ts =>
    (t :: ts.filter (agree t)) :: groupsUpTo agree n (ts.filter (!agree t ·))

def groups (agree : α → α → Bool) (terms : List α) : List (List α) :=
  groupsUpTo agree terms.length terms

theorem groupsUpTo_eq (agree : α → α → Bool) {n : Nat} {terms : List α} (h : terms.length ≤ n) :
    groupsUpTo agree n terms = groups agree terms := by
  unfold groups
  generalize hm : terms.length = m at h
  replace hm : terms.length ≤ m := by omega
  induction n generalizing m terms with
  | zero =>
    obtain rfl : m = 0 := by omega
    rfl
  | succ n ih =>
    match terms, m with
    | [], _ => simp [groupsUpTo]
    | t :: ts, 0 => simp at hm
    | t :: ts, m + 1 =>
      have := List.length_filter_le (!agree t ·) ts
      simp only [List.length_cons] at hm
      simp only [groupsUpTo]
      rw [ih m (by omega) (by omega)]

@[simp] theorem groups_nil (agree : α → α → Bool) : groups agree [] = [] := rfl

/-- The first term with all that agree with it, then the groups of the others. -/
theorem groups_cons (agree : α → α → Bool) (t : α) (ts : List α) :
    groups agree (t :: ts) =
      (t :: ts.filter (agree t)) :: groups agree (ts.filter (!agree t ·)) := by
  rw [← groupsUpTo_eq agree (List.length_filter_le (!agree t ·) ts)]
  rfl

end SymbolicAlgebra.Chain
