import SymbolicAlgebra.Catalog
import SymbolicAlgebra.Folding
import SymbolicAlgebra.Settings

/-!
# Simplification runs

A pass applies every simplifying rule of the catalog to the whole tree and then folds numbers. A run
repeats passes until a tree comes back, at a fixpoint or later, or the pass limit is reached. Its
result is the least complex tree of the run, the input among them, and of equally complex ones the
latest.

`visits` is the history of a run; result and report are both read off it.
-/

namespace SymbolicAlgebra

structure Simplifier where
  settings : Settings
  catalog : Catalog

inductive Progress where
  | fresh | fixpoint | repeated
  deriving DecidableEq

/-- A pass of a run: the tree before and after it. -/
structure Visit where
  before : Expr
  tree : Expr
  progress : Progress

namespace Simplifier

def ofSettings (s : Settings) : Simplifier :=
  let catalog := Catalog.standard s.sortLevel
  ⟨s, if s.longDivision then catalog else catalog.without Catalog.longDivisionName⟩

def applyAll (rules : List Rule) (t : Expr) : Expr :=
  rules.foldl (fun t r => r.applyEverywhere t) t

def simplifying (s : Simplifier) : List Rule := s.catalog.ofKind .simplifying

def pass (s : Simplifier) (t : Expr) : Expr := Folding.fold (applyAll s.simplifying t)

/-- At most `n` passes from `t`, where `seen` holds `t` and the trees before it. -/
def visits (step : Expr → Expr) : (n : Nat) → (seen : List Expr) → Expr → List Visit
  | 0, _, _ => []
  | n + 1, seen, t =>
    let next := step t
    if next == t then [⟨t, next, .fixpoint⟩]
    else if seen.any (next == ·) then [⟨t, next, .repeated⟩]
    else ⟨t, next, .fresh⟩ :: visits step n (next :: seen) next

def history (s : Simplifier) (t : Expr) : List Visit :=
  visits s.pass s.settings.maxPasses [t] t

def better (best t : Expr) : Expr := if t.complexity ≤ best.complexity then t else best

/-- The trees of a run after its start; a fixpoint is no new tree. -/
def candidates (history : List Visit) : List Expr :=
  (history.filter fun v => v.progress ≠ .fixpoint).map (·.tree)

def simplify (s : Simplifier) (t : Expr) : Expr :=
  (candidates (s.history t)).foldl better t

/-! ## Reports -/

/-- What a rule reports: its evaluations, and the tree if it changed. -/
def ruleRecords (r : Rule) (t : Expr) : List Log.Record :=
  let next := r.applyEverywhere t
  r.records t ++
    if next == t then [] else [⟨.trace, r.name ++ ": " ++ t.text ++ " -> " ++ next.text⟩]

def rulesRecords : List Rule → Expr → List Log.Record
  | [], _ => []
  | r :: rules, t => ruleRecords r t ++ rulesRecords rules (r.applyEverywhere t)

def progressRecords (n : Nat) : Progress → List Log.Record
  | .fresh => []
  | .fixpoint => [⟨.debug, "fixpoint after " ++ n.repr ++ " passes"⟩]
  | .repeated => [⟨.debug, "pass " ++ n.repr ++ " repeats an earlier tree"⟩]

def visitRecords (s : Simplifier) (n : Nat) (v : Visit) : List Log.Record :=
  rulesRecords s.simplifying v.before ++
    ⟨.debug, "pass " ++ n.repr ++ ": " ++ v.tree.text⟩ :: progressRecords n v.progress

def historyRecords (s : Simplifier) : (n : Nat) → List Visit → List Log.Record
  | _, [] => []
  | n, v :: history => s.visitRecords n v ++ s.historyRecords (n + 1) history

def treeRecord (what : String) (t : Expr) : Log.Record :=
  ⟨.info, what ++ " " ++ t.text ++ " (complexity " ++ t.complexity.repr ++ ")"⟩

def records (s : Simplifier) (t : Expr) : List Log.Record :=
  treeRecord "simplifying" t ::
    s.historyRecords 1 (s.history t) ++ [treeRecord "result" (s.simplify t)]

/-- What a run shows. An active level of the settings takes the place of the given verbosity; a
level that is no level is reported and leaves it. -/
def report (s : Simplifier) (base : Log.Verbosity) (t : Expr) : List Log.Record :=
  match s.settings.verbosity with
  | .ok none => (s.records t).filter base.shows
  | .ok (some level) => (s.records t).filter (Log.Verbosity.shows (some level))
  | .error e =>
    (⟨.warn, e.message ++ ", logging not started"⟩ :: s.records t).filter base.shows

end Simplifier

end SymbolicAlgebra
