/-!
# Dictionaries

Entries under names, in the order in which the names came first. Inserting under a name that is
there replaces its entry.
-/

namespace SymbolicAlgebra

abbrev Dictionary (α : Type) := List (String × α)

namespace Dictionary

variable {α : Type}

def get? (d : Dictionary α) (name : String) : Option α :=
  match d with
  | [] => none
  | (x, a) :: d => if x = name then some a else get? d name

def insert (name : String) (a : α) : Dictionary α → Dictionary α
  | [] => [(name, a)]
  | (x, b) :: d => if x = name then (x, a) :: d else (x, b) :: insert name a d

/-- Later entries of one name replace earlier ones. -/
def ofList (entries : List (String × α)) : Dictionary α :=
  entries.foldl (fun d entry => insert entry.1 entry.2 d) []

theorem get?_insert (d : Dictionary α) (x y : String) (a : α) :
    get? (insert x a d) y = if x = y then some a else get? d y := by
  induction d with
  | nil => simp [insert, get?]
  | cons entry d ih =>
    obtain ⟨z, b⟩ := entry
    by_cases h : z = x
    · subst h
      by_cases hy : z = y <;> simp [insert, get?, hy]
    · by_cases hz : z = y
      · subst hz
        simp [insert, get?, h, Ne.symm h]
      · simp [insert, get?, h, hz, ih]

end Dictionary

end SymbolicAlgebra
