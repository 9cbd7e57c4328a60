import CilAnalysis.Method.Body
import Mathlib

/-!
# Long forms

An abbreviated instruction and its long form stand at the same place and do the same.  This module
collects what holds of all instructions, whether or not their operands fit their opcodes.

* Offset, size and the place that comes next are kept, as the long form replaces the opcode and the
  operand only.
* Operation, control flow and effect on the stack are read off the opcode, and the table of long
  forms agrees with the other tables about them (`Opcode.stackEffect_of_longForm?` and the like).
  These are the places where all opcodes are gone through.
* A variable that is loaded or stored is named by the opcode or by the operand, and the long form
  has it as its operand (`Instruction.slot?_expand`).  So the lists of variables read and written
  are kept.
* A long form has no long form itself, so that expanding twice is expanding once.

Where an operand does not fit its opcode, the long form may lose it; for targets there is therefore
only an inclusion here (`Instruction.targets_expand_subset`).
-/

namespace CilAnalysis

namespace Opcode

variable {op long : Opcode}

private theorem operation_of_longForm? (h : op.longForm? = some long) :
    long.operation = op.operation := by
  cases op <;> cases h <;> rfl

private theorem flow_of_longForm? (h : op.longForm? = some long) : long.flow = op.flow := by
  cases op <;> cases h <;> rfl

/-- What an abbreviated opcode takes and leaves does not depend on a signature. -/
theorem stackEffect_of_longForm? (h : op.longForm? = some long) :
    long.stackPop = op.stackPop ∧ op.stackPop ≠ .byContext ∧ long.stackPush = op.stackPush ∧
      op.stackPush ≠ .bySignature := by
  cases op <;> cases h <;> decide

/-- A long form is not abbreviated itself. -/
theorem longForm?_of_longForm? (h : op.longForm? = some long) : long.longForm? = none := by
  cases op <;> cases h <;> rfl

theorem slot?_of_longForm? (h : op.longForm? = some long) : long.slot? = none := by
  cases op <;> cases h <;> rfl

/-- An opcode that loads or stores a variable loads no constant. -/
theorem constant?_of_variable (h : op.operation = .loadVariable ∨ op.operation = .storeVariable) :
    op.constant? = none ∧ op ≠ .ldc_i4_s ∧ op ≠ .ldc_i4 := by
  revert h
  cases op <;> decide

end Opcode

namespace Instruction

variable (i : Instruction)

@[simp] theorem offset_expand : i.expand.offset = i.offset := by
  unfold expand
  split <;> rfl

@[simp] theorem size_expand : i.expand.size = i.size := by
  unfold expand
  split <;> rfl

theorem expand_of_longForm? (h : i.opcode.longForm? = none) : i.expand = i := by
  unfold expand
  rw [h]

@[simp] theorem expand_expand : i.expand.expand = i.expand := by
  apply expand_of_longForm?
  cases hform : i.opcode.longForm? with
  | none => rw [expand_of_longForm? i hform, hform]
  | some long =>
      unfold expand
      rw [hform]
      exact Opcode.longForm?_of_longForm? hform

@[simp] theorem operation_expand : i.expand.opcode.operation = i.opcode.operation := by
  unfold expand
  split
  next => rfl
  next long hlong => exact Opcode.operation_of_longForm? hlong

@[simp] theorem flow_expand : i.expand.opcode.flow = i.opcode.flow := by
  unfold expand
  split
  next => rfl
  next long hlong => exact Opcode.flow_of_longForm? hlong

@[simp] theorem next_expand : i.expand.next = i.next := by
  unfold expand
  split <;> rfl

@[simp] theorem popCount_expand (returnsValue : Bool) :
    i.expand.popCount returnsValue = i.popCount returnsValue := by
  unfold expand
  split
  next => rfl
  next long hlong =>
    obtain ⟨hpop, hfixed, -, -⟩ := Opcode.stackEffect_of_longForm? hlong
    unfold popCount withCode
    rw [hpop]
    cases hcount : i.opcode.stackPop with
    | byContext => exact absurd hcount hfixed
    | fixed _ | all => rfl

@[simp] theorem pushCount_expand : i.expand.pushCount = i.pushCount := by
  unfold expand
  split
  next => rfl
  next long hlong =>
    obtain ⟨-, -, hpush, hfixed⟩ := Opcode.stackEffect_of_longForm? hlong
    unfold pushCount withCode
    rw [hpush]
    cases hcount : i.opcode.stackPush with
    | bySignature => exact absurd hcount hfixed
    | fixed _ => rfl

@[simp] theorem clearsStack_expand : i.expand.clearsStack = i.clearsStack := by
  unfold expand
  split
  next => rfl
  next long hlong =>
    obtain ⟨hpop, -, -, -⟩ := Opcode.stackEffect_of_longForm? hlong
    unfold clearsStack withCode
    rw [hpop]

theorem targets_expand_subset : i.expand.targets ⊆ i.targets := by
  unfold expand
  split
  next => exact List.Subset.refl _
  next long hlong =>
    unfold targets withCode
    dsimp only
    cases i.constant? with
    | some n => exact List.nil_subset _
    | none =>
        cases i.slot? with
        | some v => exact List.nil_subset _
        | none => exact List.Subset.refl _

theorem slot?_withCode {opcode : Opcode} (h : opcode.slot? = none) (operand : Operand) :
    (i.withCode opcode operand).slot? =
      match operand with
      | .slot v => some v
      | _ => none := by
  unfold slot? withCode
  dsimp only
  rw [h]
  cases operand <;> rfl

/-- The long form of an instruction on a variable names that variable. -/
theorem slot?_expand (hvariable : i.opcode.operation = .loadVariable ∨
    i.opcode.operation = .storeVariable) : i.expand.slot? = i.slot? := by
  obtain ⟨hconstant, hshort, hlong⟩ := Opcode.constant?_of_variable hvariable
  have hnone : i.constant? = none := by
    unfold constant?
    split <;> simp_all
  unfold expand
  split
  next => rfl
  next long hform =>
    rw [slot?_withCode i (Opcode.slot?_of_longForm? hform), hnone]
    cases hslot : i.slot? with
    | some v => rfl
    | none =>
        -- Without a variable in the opcode or the operand the long form has none either.
        unfold slot? at hslot
        split at hslot
        next => exact nomatch hslot
        next => exact nomatch hslot
        next hoperand => cases hop : i.operand <;> simp_all

@[simp] theorem variablesRead_expand : i.expand.variablesRead = i.variablesRead := by
  unfold variablesRead
  rw [operation_expand]
  split
  next hload => rw [slot?_expand i (Or.inl hload)]
  next => rfl

@[simp] theorem variablesWritten_expand : i.expand.variablesWritten = i.variablesWritten := by
  unfold variablesWritten
  rw [operation_expand]
  split
  next hstore => rw [slot?_expand i (Or.inr hstore)]
  next => rfl

end Instruction

namespace MethodBody

/-- An instruction that is found stands in the body, at the offset it was looked up at. -/
theorem of_instructionAt {b : MethodBody} {offset : Nat} {i : Instruction}
    (h : b.instructionAt offset = .ok i) : i ∈ b.instructions ∧ i.offset = offset := by
  unfold instructionAt at h
  split at h
  next j hfound =>
    cases h
    exact ⟨List.mem_of_find?_eq_some hfound, by simpa using List.find?_some hfound⟩
  next => exact nomatch h

/-- The instructions that a run executes are the long forms of those of the method. -/
theorem exists_of_instructionAt_expand {b : MethodBody} {offset : Nat} {i : Instruction}
    (h : b.expand.instructionAt offset = .ok i) :
    ∃ (place : Nat) (j : Instruction), b.instructions[place]? = some j ∧ j.offset = offset ∧
      i = j.expand := by
  obtain ⟨hmem, hoffset⟩ := of_instructionAt h
  obtain ⟨j, hj, rfl⟩ := List.mem_map.mp hmem
  obtain ⟨place, hplace⟩ := List.mem_iff_getElem?.mp hj
  exact ⟨place, j, hplace, j.offset_expand.symm.trans hoffset, rfl⟩

end MethodBody

end CilAnalysis
