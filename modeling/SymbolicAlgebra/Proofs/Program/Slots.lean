import SymbolicAlgebra.Proofs.Program.Compilability

/-!
# Argument slots that a program reads

A compiled tree reads the slots of the declared names among its variables, reserved names included,
and no others.
-/

namespace SymbolicAlgebra

def Instruction.slot? {n : Nat} : Instruction n → Option (Fin n)
  | argument slot => some slot
  | _ => none

/-- The slots that are pushed, in the order of the instructions. -/
def Program.slotsRead (p : Program) : List Nat := (p.code.filterMap Instruction.slot?).map Fin.val

namespace Expr

variable {constants : Constants} {names : List String} {t : Expr}

theorem slot?_of_variableCode {name : String} {i : Instruction names.length}
    (h : variableCode constants names name = .ok i) : i.slot? = slot? names name := by
  unfold variableCode at h
  cases hslot : slot? names name with
  | some slot =>
    rw [hslot] at h
    cases h
    rfl
  | none =>
    rw [hslot] at h
    cases hconstant : constants.value? name with
    | none => simp [hconstant] at h
    | some value =>
      rw [hconstant] at h
      cases h
      rfl

/-- Calls read no slot, so the slots of a node are those of its children. -/
theorem mem_slots_of_code {is : List (Instruction names.length)}
    (h : code constants names t = .ok is) {slot : Fin names.length} :
    slot ∈ is.filterMap Instruction.slot? ↔
      ∃ name, var name ∈ t.preorder ∧ slot? names name = some slot := by
  induction t generalizing is with
  | num value =>
    obtain rfl : [.constant value] = is := by simpa [code] using h
    simp [Instruction.slot?, preorder]
  | var name =>
    obtain ⟨i, hi, rfl⟩ := code_var_eq_ok.mp h
    simp [slot?_of_variableCode hi, preorder]
  | binary op a b iha ihb =>
    obtain ⟨left, right, hl, hr, rfl⟩ := code_binary_eq_ok.mp h
    simp [Instruction.slot?, preorder, iha hl, ihb hr, or_and_right, exists_or]
  | apply f a iha =>
    obtain ⟨operand, ho, rfl⟩ := code_apply_eq_ok.mp h
    simp [Instruction.slot?, preorder, iha ho]
  | log base a ihb iha =>
    obtain ⟨left, right, hl, hr, rfl⟩ := code_log_eq_ok.mp h
    simp [Instruction.slot?, preorder, ihb hl, iha hr, or_and_right, exists_or]
  | derivative a v order => simp [code] at h
  | integral a v order => simp [code] at h
  | limit a v destination side => simp [code] at h
  | tensor dims elements => simp [code] at h

theorem mem_slotsRead {p : Program} (h : t.compileWith constants names = .ok p) {k : Nat} :
    k ∈ p.slotsRead ↔
      ∃ name, var name ∈ t.preorder ∧ ∃ slot, slot? names name = some slot ∧ slot.val = k := by
  obtain ⟨-, is, hcode, rfl⟩ := compileWith_eq_ok.mp h
  simp only [Program.slotsRead, List.mem_map, mem_slots_of_code hcode]
  exact ⟨fun ⟨slot, ⟨name, hname, hslot⟩, hk⟩ => ⟨name, hname, slot, hslot, hk⟩,
    fun ⟨name, hname, slot, hslot, hk⟩ => ⟨slot, ⟨name, hname, hslot⟩, hk⟩⟩

theorem getElem?_of_slot? {name : String} {slot : Fin names.length}
    (h : slot? names name = some slot) : names[slot.val]? = some name := by
  obtain ⟨hname, -⟩ := List.findFinIdx?_eq_some_iff.mp h
  rw [List.getElem?_eq_getElem slot.isLt]
  exact congrArg some (beq_iff_eq.mp hname)

end Expr

end SymbolicAlgebra
