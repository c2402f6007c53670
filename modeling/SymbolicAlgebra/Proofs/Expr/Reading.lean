import SymbolicAlgebra.Expr.Text
import SymbolicAlgebra.Proofs.Expr.Arithmetic
import SymbolicAlgebra.Proofs.Rules.Exactness
import SymbolicAlgebra.Proofs.Text.Pieces

/-!
# Reading a tree back

The text of a tree determines it, as long as its literals are exact and its variables are named by
identifiers. A reader shows this. What an opening parenthesis begins is told by what stands behind
the tree in it, and a word is a variable unless a parenthesis or an angle bracket follows, so a
variable may have the name of a function.

A node is read back as soon as its children are, whatever closes it. So all trees are, by induction
on how deep the reader may go.
-/

namespace SymbolicAlgebra

open Document (Reader)
open Text

def Operator.ofSymbol? (c : Char) : Option Operator :=
  [sum, difference, product, quotient, power].find? (·.symbol = c)

/-- The factorial is not written with its name. -/
def Elementary.ofName? (name : String) : Option Elementary :=
  [sin, cos, tan, cot, arcsin, arccos, arctan, arccot].find? (·.name = name)

def Side.ofName? (name : String) : Option Side := [left, right, both].find? (·.name = name)

@[simp] theorem Operator.ofSymbol?_symbol (op : Operator) : ofSymbol? op.symbol = some op := by
  cases op <;> rfl

theorem Elementary.ofName?_name {f : Elementary} (h : f ≠ factorial) :
    ofName? f.name = some f := by
  cases f <;> first | rfl | contradiction

@[simp] theorem Side.ofName?_name (side : Side) : ofName? side.name = some side := by
  cases side <;> rfl

namespace Number

variable {q : ℚ}

theorem isNegative_ofRat (q : ℚ) : (ofRat q).isNegative = decide (q < 0) := by
  unfold ofRat
  split_ifs <;> simp [isNegative, Rat.num_neg]

theorem isReal_ofRat (q : ℚ) : (ofRat q).isReal = true := by
  unfold ofRat
  split_ifs <;> rfl

/-- A fraction in lowest terms is written without its denominator if that is one. -/
theorem text_ofRat (hq : 0 ≤ q) :
    (ofRat q).text =
      q.num.natAbs.repr.toList ++ if q.den = 1 then [] else '/' :: q.den.repr.toList := by
  obtain ⟨n, hn⟩ := Int.eq_ofNat_of_zero_le (Rat.num_nonneg.mpr hq)
  unfold ofRat
  split_ifs with hden
  · rw [text, hn, List.append_nil]
    rfl
  · rw [text, ratText, hn]
    rfl

theorem text_ofRat_of_neg (hq : q < 0) : (ofRat q).text = '-' :: (ofRat (-q)).text := by
  obtain ⟨n, hn⟩ := Int.eq_negSucc_of_lt_zero (Rat.num_neg.mpr hq)
  have hsign : q.num.repr.toList = '-' :: (n + 1).repr.toList := by
    rw [hn]
    exact String.toList_append
  rw [text_ofRat (neg_nonneg.mpr hq.le), Rat.num_neg_eq_neg_num, Rat.den_neg_eq_den, hn,
    Int.neg_negSucc, Int.natAbs_natCast]
  unfold ofRat
  split_ifs with hden
  · rw [text, hsign, List.append_nil]
  · rw [text, ratText, hsign, List.cons_append]

end Number

namespace Expr

section Legibility

/-- All literals are exact and all variables are named by identifiers. -/
structure Legible (t : Expr) : Prop where
  exact : t.isExact = true
  names : ∀ name, var name ∈ t.preorder → isIdentifier name = true

variable {t c : Expr}

theorem Legible.of_mem_children (h : Legible t) (hc : c ∈ t.children) : Legible c where
  exact := isExact_of_mem_children h.exact hc
  names name hname := by
    refine h.names name ?_
    rw [preorder_eq]
    exact List.mem_cons_of_mem t (List.mem_flatMap.mpr ⟨c, hc, hname⟩)

theorem Legible.isIdentifier {name : String} (h : Legible (var name)) :
    isIdentifier name = true :=
  h.names name (preorder_eq (var name) ▸ List.mem_cons_self)

end Legibility

namespace Reading

section Readers

/-- A numeral, or two with a slash between them. -/
def magnitude : Reader ℚ := fun cs => do
  let (n, cs) ← numeral cs
  match cs with
  | '/' :: cs =>
    let (d, cs) ← numeral cs
    return (n / d, cs)
  | cs => return (n, cs)

def literal : Reader Expr := fun cs => do
  let (q, cs) ← magnitude cs
  return (num (.ofRat q), cs)

def side : Reader Side := fun cs => do
  let (name, cs) := word cs
  return (← Side.ofName? name, cs)

/-- One more argument. -/
def next {α : Type} (item : Reader α) : Reader α := fun cs => (cs.dropPrefix? separator).bind item

/-- The tree is complete with a closing parenthesis. -/
def close (t : Expr) : Reader Expr
  | ')' :: cs => some (t, cs)
  | _ => none

def negative : Reader Expr
  | '-' :: cs => do
    let (q, cs) ← magnitude cs
    close (num (.ofRat (-q))) cs
  | _ => none

variable (child : Reader Expr)

/-- Behind an opening parenthesis. No tree begins with a sign, so a sign belongs to a literal. -/
def parenthesized : Reader Expr := fun cs =>
  match child cs with
  | none => negative cs
  | some (a, ')' :: '!' :: cs) => some (factorial a, cs)
  | some (a, ' ' :: symbol :: ' ' :: cs) => do
    let op ← Operator.ofSymbol? symbol
    let (b, cs) ← child cs
    close (binary op a b) cs
  | _ => none

/-- Behind the first argument of a derivative or an integral. -/
def counted (join : Expr → Expr → Nat → Expr) (a : Expr) : Reader Expr := fun cs => do
  let (v, cs) ← next child cs
  let (order, cs) ← next numeral cs
  close (join a v order) cs

/-- Behind the name of a function and an opening parenthesis. -/
def call (name : String) : Reader Expr := fun cs => do
  let (a, cs) ← child cs
  match name with
  | "log" =>
    let (b, cs) ← next child cs
    close (log a b) cs
  | "derivative" => counted child derivative a cs
  | "integral" => counted child integral a cs
  | "limit" =>
    let (v, cs) ← next child cs
    let (destination, cs) ← next child cs
    let (side, cs) ← next side cs
    close (limit a v destination side) cs
  | name =>
    let f ← Elementary.ofName? name
    close (apply f a) cs

/-- Behind an opening angle bracket. -/
def shaped : Reader Expr := fun cs =>
  match separated numeral ['x'] cs with
  | (dims, '>' :: '[' :: cs) =>
    match separated child separator cs with
    | (elements, ']' :: cs) => some (tensor dims elements, cs)
    | _ => none
  | _ => none

/-- Behind a name that is read already. -/
def named (name : String) : Reader Expr
  | '(' :: cs => call child name cs
  | '<' :: cs => shaped child cs
  | cs => some (var name, cs)

/-- A tree whose children are read by the given reader. -/
def node : Reader Expr
  | [] => none
  | c :: cs =>
    if c = '(' then parenthesized child cs
    else if c.isDigit then literal (c :: cs)
    else if isWordChar c then
      let (name, cs) := word (c :: cs)
      named child name cs
    else none

/-- Reads trees that are nested no deeper than the given number. -/
def read : Nat → Reader Expr
  | 0 => fun _ => none
  | n + 1 => node (read n)

end Readers

section Texts

variable {rest cs : List Char} {c : Char} {q : ℚ}

/-- What stands behind a tree inside another one, or nothing. -/
def Closes (rest : List Char) : Prop := ∀ c ∈ rest.head?, c ∈ [' ', ')', ',', ']']

theorem closes_nil : Closes [] := by simp [Closes]

@[simp] theorem closes_cons : Closes (c :: cs) ↔ c ∈ [' ', ')', ',', ']'] := by simp [Closes]

@[simp] theorem closes_separator (cs : List Char) : Closes (separator ++ cs) := by
  simp [separator]

theorem Closes.leaves (h : Closes rest) {p : Char → Bool}
    (hp : [' ', ')', ',', ']'].all (!p ·) = true) : Leaves p rest := by
  intro c hc
  simpa using List.all_eq_true.mp hp c (h c hc)

theorem dimsChars_eq (dims : List Nat) : dimsChars dims = joinWith ['x'] (dims.map natChars) := by
  induction dims with
  | nil => rfl
  | cons d ds ih =>
    cases ds with
    | nil => rfl
    | cons e es => rw [dimsChars, ih] <;> simp [joinWith]

theorem charsList_eq (ts : List Expr) : charsList ts = joinWith separator (ts.map chars) := by
  induction ts with
  | nil => rfl
  | cons t ts ih =>
    cases ts with
    | nil => rfl
    | cons u us =>
      calc charsList (t :: u :: us)
          = t.chars ++ separator ++ charsList (u :: us) := rfl
        _ = joinWith separator ((t :: u :: us).map chars) := by rw [ih]; rfl

theorem magnitude_append (hq : 0 ≤ q) (hrest : Closes rest) :
    magnitude ((Number.ofRat q).text ++ rest) = some (q, rest) := by
  obtain ⟨n, hn⟩ := Int.eq_ofNat_of_zero_le (Rat.num_nonneg.mpr hq)
  have hdigits : Leaves Char.isDigit rest := hrest.leaves (by decide)
  have hvalue : (n : ℚ) / q.den = q := by
    rw [← Int.cast_natCast, ← hn, Rat.num_div_den]
  rw [Number.text_ofRat hq, magnitude, hn, Int.natAbs_natCast]
  split_ifs with hden
  · rw [hden, Nat.cast_one, div_one] at hvalue
    rw [List.append_nil, numeral_append n hdigits, Option.bind_eq_bind, Option.bind_some]
    dsimp only
    split
    · simp at hrest
    · rw [hvalue]
      rfl
  · have hslash : Leaves Char.isDigit ('/' :: (q.den.repr.toList ++ rest)) :=
      leaves_cons (by decide) _
    rw [List.append_assoc, List.cons_append, numeral_append n hslash]
    simp only [Option.bind_eq_bind, Option.bind_some, numeral_append q.den hdigits, hvalue]
    rfl

theorem numberChars_ofRat (q : ℚ) :
    numberChars (.ofRat q) =
      if q < 0 then '(' :: '-' :: (Number.ofRat (-q)).text ++ [')'] else (Number.ofRat q).text := by
  simp only [numberChars, Number.isNegative_ofRat, Number.isReal_ofRat, Bool.not_true,
    Bool.or_false, decide_eq_true_eq]
  split_ifs with hq
  · rw [Number.text_ofRat_of_neg hq]
  · rfl

end Texts

section Nodes

/-- The reader gives the tree back, whatever may stand behind it. -/
def Reads (r : Reader Expr) (t : Expr) : Prop :=
  ∀ rest, Closes rest → r (t.chars ++ rest) = some (t, rest)

variable {child : Reader Expr} {a b v base destination : Expr} {cs : List Char} {name : String}

@[simp] theorem next_separator {α : Type} (item : Reader α) (cs : List Char) :
    next item (separator ++ cs) = item cs := by
  rw [next, dropPrefix?_append, Option.bind_some]

@[simp] theorem close_cons (t : Expr) (cs : List Char) : close t (')' :: cs) = some (t, cs) := rfl

theorem numeral_natChars (n : Nat) (hcs : Closes cs) : numeral (natChars n ++ cs) = some (n, cs) :=
  numeral_append n (hcs.leaves (by decide))

theorem side_append (s : Side) (hcs : Closes cs) : side (s.name.toList ++ cs) = some (s, cs) := by
  have hname : isIdentifier s.name = true := by cases s <;> decide
  simp [side, word_append hname (hcs.leaves (by decide))]

theorem node_word (hname : isIdentifier name = true) (hcs : Leaves isWordChar cs) :
    node child (name.toList ++ cs) = named child name cs := by
  have hword := word_append hname hcs
  obtain ⟨c, run, hrun, hdigit, hchars⟩ := exists_of_isIdentifier hname
  have hc : isWordChar c = true := hchars c List.mem_cons_self
  have hopen : c ≠ '(' := by
    rintro rfl
    exact absurd hc (by decide)
  rw [hrun, List.cons_append] at hword ⊢
  rw [node, if_neg hopen, if_neg (by simp [hdigit]), if_pos hc, hword]

theorem node_call (hname : isIdentifier name = true) :
    node child (name.toList ++ '(' :: cs) = call child name cs :=
  node_word hname (leaves_cons (by decide) _)

theorem node_text {q : ℚ} (hq : 0 ≤ q) :
    node child ((Number.ofRat q).text ++ cs) = literal ((Number.ofRat q).text ++ cs) := by
  obtain ⟨c, run, hrun, hdigit⟩ := exists_repr_eq_cons q.num.natAbs
  have hopen : c ≠ '(' := by
    rintro rfl
    exact absurd hdigit (by decide)
  rw [Number.text_ofRat hq, hrun, List.cons_append, List.cons_append, node, if_neg hopen,
    if_pos hdigit]

theorem reads_num {value : Number} (hexact : value.isExact = true)
    (hsign : ∀ cs, child ('-' :: cs) = none) : Reads (node child) (num value) := by
  obtain ⟨q, rfl⟩ := Number.isExact_iff.mp hexact
  intro rest hrest
  change node child (numberChars (.ofRat q) ++ rest) = some (num (.ofRat q), rest)
  rw [numberChars_ofRat]
  split_ifs with hq
  · have hmagnitude : magnitude ((Number.ofRat (-q)).text ++ ')' :: rest) =
        some (-q, ')' :: rest) := magnitude_append (neg_nonneg.mpr hq.le) (by simp)
    simp [node, parenthesized, hsign, negative, hmagnitude]
  · rw [node_text (not_lt.mp hq), literal, magnitude_append (not_lt.mp hq) hrest]
    rfl

theorem reads_var (hname : isIdentifier name = true) : Reads (node child) (var name) := by
  intro rest hrest
  change node child (name.toList ++ rest) = some (var name, rest)
  rw [node_word hname (hrest.leaves (by decide))]
  unfold named
  split
  · simp at hrest
  · simp at hrest
  · rfl

theorem reads_binary (op : Operator) (ha : Reads child a) (hb : Reads child b) :
    Reads (node child) (binary op a b) := by
  intro rest _
  have hlast := hb (')' :: rest) (by simp)
  have hfirst := ha (' ' :: op.symbol :: ' ' :: (b.chars ++ ')' :: rest)) (by simp)
  change node child ('(' :: a.chars ++ ' ' :: op.symbol :: ' ' :: b.chars ++ [')'] ++ rest) = _
  simp [node, parenthesized, hfirst, hlast]

theorem reads_factorial (ha : Reads child a) : Reads (node child) (factorial a) := by
  intro rest _
  have hfirst := ha (')' :: '!' :: rest) (by simp)
  change node child ('(' :: a.chars ++ [')', '!'] ++ rest) = _
  simp [node, parenthesized, hfirst]

theorem chars_apply {f : Elementary} (hf : f ≠ .factorial) (a : Expr) :
    (apply f a).chars = f.name.toList ++ '(' :: a.chars ++ [')'] := by
  cases f <;> first | rfl | contradiction

theorem reads_apply {f : Elementary} (hf : f ≠ .factorial) (ha : Reads child a) :
    Reads (node child) (apply f a) := by
  intro rest _
  have hfirst := ha (')' :: rest) (by simp)
  have hname : isIdentifier f.name = true := by cases f <;> decide
  have hcall : call child f.name (a.chars ++ ')' :: rest) =
      (Elementary.ofName? f.name).bind fun f => close (apply f a) (')' :: rest) := by
    rw [call, hfirst]
    cases f <;> rfl
  calc node child ((apply f a).chars ++ rest)
      = node child (f.name.toList ++ '(' :: (a.chars ++ ')' :: rest)) := by simp [chars_apply hf]
    _ = call child f.name (a.chars ++ ')' :: rest) := node_call hname
    _ = some (apply f a, rest) := by rw [hcall, Elementary.ofName?_name hf]; rfl

theorem reads_log (hbase : Reads child base) (ha : Reads child a) :
    Reads (node child) (log base a) := by
  intro rest _
  let args := base.chars ++ (separator ++ (a.chars ++ ')' :: rest))
  have hlast := ha (')' :: rest) (by simp)
  have hfirst := hbase (separator ++ (a.chars ++ ')' :: rest)) (by simp)
  calc node child ((log base a).chars ++ rest)
      = node child ("log(".toList ++ base.chars ++ separator ++ a.chars ++ [')'] ++ rest) := rfl
    _ = node child ("log".toList ++ '(' :: args) := by simp [args]
    _ = call child "log" args := node_call (by decide)
    _ = some (log base a, rest) := by simp [call, args, hfirst, hlast]

/-- The derivative and the integral differ in their names only. -/
theorem reads_counted {join : Expr → Expr → Nat → Expr} {order : Nat} (name : String)
    (hname : isIdentifier name = true)
    (hchars : (join a v order).chars = name.toList ++
      '(' :: (a.chars ++ separator ++ v.chars ++ separator ++ natChars order ++ [')']))
    (hcall : ∀ cs, call child name cs = (child cs).bind fun (a, cs) => counted child join a cs)
    (ha : Reads child a) (hv : Reads child v) : Reads (node child) (join a v order) := by
  intro rest _
  let last := separator ++ (natChars order ++ ')' :: rest)
  let args := a.chars ++ (separator ++ (v.chars ++ last))
  have hlast : numeral (natChars order ++ ')' :: rest) = some (order, ')' :: rest) :=
    numeral_natChars order (by simp)
  have hsecond := hv last (closes_separator _)
  have hfirst := ha (separator ++ (v.chars ++ last)) (by simp)
  calc node child ((join a v order).chars ++ rest)
      = node child (name.toList ++ '(' :: args) := by simp [hchars, args, last]
    _ = call child name args := node_call hname
    _ = counted child join a (separator ++ (v.chars ++ last)) := by
      rw [hcall, hfirst, Option.bind_some]
    _ = some (join a v order, rest) := by simp [counted, hsecond, last, hlast]

theorem reads_derivative (order : Nat) (ha : Reads child a) (hv : Reads child v) :
    Reads (node child) (derivative a v order) :=
  reads_counted "derivative" (by decide) rfl (fun _ => rfl) ha hv

theorem reads_integral (order : Nat) (ha : Reads child a) (hv : Reads child v) :
    Reads (node child) (integral a v order) :=
  reads_counted "integral" (by decide) rfl (fun _ => rfl) ha hv

theorem reads_limit (s : Side) (ha : Reads child a) (hv : Reads child v)
    (hdestination : Reads child destination) :
    Reads (node child) (limit a v destination s) := by
  intro rest _
  let last := separator ++ (s.name.toList ++ ')' :: rest)
  let args := a.chars ++ (separator ++ (v.chars ++ (separator ++ (destination.chars ++ last))))
  have hlast : side (s.name.toList ++ ')' :: rest) = some (s, ')' :: rest) :=
    side_append s (by simp)
  have hthird := hdestination last (closes_separator _)
  have hsecond := hv (separator ++ (destination.chars ++ last)) (by simp)
  have hfirst := ha (separator ++ (v.chars ++ (separator ++ (destination.chars ++ last)))) (by simp)
  calc node child ((limit a v destination s).chars ++ rest)
      = node child ("limit(".toList ++ a.chars ++ separator ++ v.chars ++ separator ++
          destination.chars ++ separator ++ s.name.toList ++ [')'] ++ rest) := rfl
    _ = node child ("limit".toList ++ '(' :: args) := by simp [args, last]
    _ = call child "limit" args := node_call (by decide)
    _ = some (limit a v destination s, rest) := by
      simp [call, args, last, hfirst, hsecond, hthird, hlast]

theorem separated_dims (dims : List Nat) (cs : List Char) :
    separated numeral ['x'] (dimsChars dims ++ '>' :: cs) = (dims, '>' :: cs) := by
  rw [dimsChars_eq]
  exact separated_joinWith (fun n _ _ => numeral_append n) (by simp)
    (leaves_cons (by decide)) (leaves_cons (by decide) cs) rfl rfl

theorem separated_elements {elements : List Expr} (h : ∀ e ∈ elements, Reads child e)
    (hbracket : ∀ cs, child (']' :: cs) = none) (cs : List Char) :
    separated child separator (charsList elements ++ ']' :: cs) = (elements, ']' :: cs) := by
  rw [charsList_eq]
  exact separated_joinWith h (by simp [separator]) closes_separator (by simp) (hbracket cs) rfl

theorem reads_tensor (dims : List Nat) {elements : List Expr} (h : ∀ e ∈ elements, Reads child e)
    (hbracket : ∀ cs, child (']' :: cs) = none) : Reads (node child) (tensor dims elements) := by
  intro rest _
  let body := charsList elements ++ ']' :: rest
  have hdims := separated_dims dims ('[' :: body)
  have helements := separated_elements h hbracket rest
  calc node child ((tensor dims elements).chars ++ rest)
      = node child ("tensor<".toList ++ dimsChars dims ++ ">[".toList ++ charsList elements ++
          [']'] ++ rest) := rfl
    _ = node child ("tensor".toList ++ '<' :: (dimsChars dims ++ '>' :: '[' :: body)) := by
      simp [body]
    _ = shaped child (dimsChars dims ++ '>' :: '[' :: body) :=
      node_word (by decide) (leaves_cons (by decide) _)
    _ = some (tensor dims elements, rest) := by
      simp only [shaped, hdims, body, helements]

/-- A tree is read back if its children are and nothing else is taken for a tree. -/
theorem reads_node {t : Expr} (ht : Legible t) (hchildren : ∀ c ∈ t.children, Reads child c)
    (hsign : ∀ cs, child ('-' :: cs) = none) (hbracket : ∀ cs, child (']' :: cs) = none) :
    Reads (node child) t := by
  cases t with
  | num value => exact reads_num ht.exact hsign
  | var name => exact reads_var ht.isIdentifier
  | binary op a b =>
    simp only [children, List.forall_mem_cons] at hchildren
    exact reads_binary op hchildren.1 hchildren.2.1
  | apply f a =>
    have ha := hchildren a List.mem_cons_self
    by_cases hf : f = .factorial
    · exact hf ▸ reads_factorial ha
    · exact reads_apply hf ha
  | log base a =>
    simp only [children, List.forall_mem_cons] at hchildren
    exact reads_log hchildren.1 hchildren.2.1
  | derivative a v order =>
    simp only [children, List.forall_mem_cons] at hchildren
    exact reads_derivative order hchildren.1 hchildren.2.1
  | integral a v order =>
    simp only [children, List.forall_mem_cons] at hchildren
    exact reads_integral order hchildren.1 hchildren.2.1
  | limit a v destination s =>
    simp only [children, List.forall_mem_cons] at hchildren
    exact reads_limit s hchildren.1 hchildren.2.1 hchildren.2.2.1
  | tensor dims elements => exact reads_tensor dims hchildren hbracket

end Nodes

section Trees

variable {t u : Expr} {n : Nat}

theorem complexity_le_of_mem {ts : List Expr} (h : t ∈ ts) :
    t.complexity ≤ complexityList ts := by
  induction ts with
  | nil => cases h
  | cons u us ih =>
    rw [complexityList_cons]
    rcases List.mem_cons.mp h with rfl | h
    · exact Nat.le_add_right _ _
    · exact (ih h).trans (Nat.le_add_left _ _)

theorem complexity_lt_of_mem_children {c : Expr} (h : c ∈ t.children) :
    c.complexity < t.complexity := by
  rw [complexity_eq t, Nat.add_comm]
  exact Nat.lt_succ_of_le (complexity_le_of_mem h)

theorem read_eq_none {c : Char} (h : c ∈ ['-', ']']) (n : Nat) (cs : List Char) :
    read n (c :: cs) = none := by
  cases n with
  | zero => rfl
  | succ n =>
    simp only [List.mem_cons, List.not_mem_nil, or_false] at h
    rcases h with rfl | rfl <;> rfl

theorem reads_read (ht : Legible t) (hn : t.complexity ≤ n) : Reads (read n) t := by
  -- The children of any tree are smaller than it, so one step less is enough for them.
  induction n generalizing t with
  | zero => exact absurd hn (Nat.not_le_of_lt (complexity_pos t))
  | succ n ih =>
    refine reads_node ht (fun c hc => ih (ht.of_mem_children hc) ?_)
      (read_eq_none (by decide) n) (read_eq_none (by decide) n)
    have hlt := complexity_lt_of_mem_children hc
    omega

/-- The text of a tree is read back as the tree. -/
theorem read_text (ht : Legible t) (hn : t.complexity ≤ n) :
    read n t.text.toList = some (t, []) := by
  rw [text, String.toList_ofList, ← reads_read ht hn [] closes_nil, List.append_nil]

end Trees

end Reading

/-- Two trees have the same text just if they are the same tree. -/
theorem text_eq_iff {t u : Expr} (ht : Legible t) (hu : Legible u) :
    t.text = u.text ↔ (t == u) = true := by
  constructor
  · intro h
    have hread := Reading.read_text ht (Nat.le_max_left t.complexity u.complexity)
    rw [h, Reading.read_text hu (Nat.le_max_right _ _)] at hread
    obtain ⟨rfl, -⟩ := Prod.mk.inj (Option.some.inj hread)
    exact BEq.rfl
  · intro h
    rw [eq_of_same ht.exact h]

/-- A quotient of literals and a literal fraction, each beside the factorial of a negative literal
and a variable that has the name of a function. -/
theorem text_ne_of_quotient_and_fraction :
    let t := tensor [3, 1] [quotient (int 1) (int 2), factorial (int (-3)), var "log"]
    let u := tensor [3, 1]
      [num (.rational ⟨1, 2, by decide, by decide⟩ (by decide)), factorial (int (-3)), var "log"]
    Legible t ∧ Legible u ∧ t.text ≠ u.text := by
  intro t u
  have hname : isIdentifier "log" = true := by decide
  have ht : Legible t := ⟨by decide, by simp [t, preorder, hname]⟩
  have hu : Legible u := ⟨by decide, by simp [u, preorder, hname]⟩
  have hne : ¬ (t == u) = true := by decide
  exact ⟨ht, hu, mt (text_eq_iff ht hu).mp hne⟩

end Expr

end SymbolicAlgebra
