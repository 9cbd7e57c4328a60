import CilAnalysis.Proofs.Instruction.Expand
import CilAnalysis.Proofs.Machine.Step

/-!
# Abbreviated instructions

An abbreviated instruction whose operand fits its opcode has the same constant, variable or target
as its long form, and so the tables say the same of both (`Instruction.targets_expand`,
`Instruction.isWellFormed_expand`) and both are the same step (`Setting.execute_expand`).

## Strategy

More than forty opcodes abbreviate others, but they do so in three ways only: they load a constant,
access a variable or branch to a target.  This is read off the table once
(`Opcode.abbreviation_cases`), together with the kind of operand in each case, and from then on no
proof goes through the opcodes.

* `Instruction.Abbreviated` is the view of an instruction that this gives: in each case what it
  names and what its long form is.
* `Instruction.abbreviated` shows that every well-formed instruction with a long form has this view.
  It needs that the operand fits: a constant, for instance, is named by the opcode itself or by a
  short operand, and the long form takes it from either.
* The results are then three cases each.  For the last one, the step of an operation depends on the
  instruction only through its constant, variable or target, and these are the same.
-/

namespace CilAnalysis

namespace Operation

/-- Whether an operation loads, stores or gives away a variable. -/
def accessesVariable : Operation → Bool
  | loadVariable | storeVariable | loadVariableAddress => true
  | _ => false

/-- Whether an operation may branch to the one target in the operand. -/
def branchesToTarget : Operation → Bool
  | branch | leave | branchOnValue _ | branchOnComparison .. => true
  | _ => false

variable {o : Operation}

private theorem ne_loadInt32 (h : o.accessesVariable ∨ o.branchesToTarget) : o ≠ .loadInt32 := by
  rintro rfl
  rcases h with h | h <;> exact Bool.noConfusion h

private theorem accessesVariable_of_branchesToTarget (h : o.branchesToTarget) :
    o.accessesVariable = false := by
  cases o with
  | loadVariable | storeVariable | loadVariableAddress => exact Bool.noConfusion h
  | _ => rfl

end Operation

/-! ## The table -/

namespace Opcode

variable {op long : Opcode}

/-- An opcode that abbreviates another one loads a constant, accesses a variable or branches to a
target.  Constants and variables are named by the opcode itself or by the operand. -/
theorem abbreviation_cases (h : op.longForm? = some long) :
    (op.operation = .loadInt32 ∧ long = .ldc_i4 ∧
        (op = .ldc_i4_s ∨ op.operandKind = .none ∧ op.constant?.isSome)) ∨
      (op.operation.accessesVariable ∧ long.operandKind = .slot ∧
        (op.operandKind = .shortSlot ∨ op.operandKind = .none ∧ op.slot?.isSome)) ∨
      (op.operation.branchesToTarget ∧ long.operandKind = .target ∧
        op.operandKind = .shortTarget) := by
  cases op <;> cases h <;> decide

/-- What an opcode names by itself is what its operation is about. -/
theorem names_of_operation (op : Opcode) :
    (op.slot?.isSome → op.operation.accessesVariable) ∧
      (op.constant?.isSome ∨ op = .ldc_i4_s ∨ op = .ldc_i4 → op.operation = .loadInt32) := by
  cases op <;> decide

private theorem slot?_eq_none (h : op.operation.accessesVariable = false) : op.slot? = none := by
  cases hslot : op.slot? with
  | none => rfl
  | some v =>
      have haccesses := op.names_of_operation.1 (hslot ▸ rfl)
      exact absurd (haccesses.symm.trans h) Bool.noConfusion

end Opcode

namespace Instruction

variable {i : Instruction}

private theorem constant?_eq_none (h : i.opcode.operation ≠ .loadInt32) : i.constant? = none := by
  have hnone : ¬ (i.opcode.constant?.isSome ∨ i.opcode = .ldc_i4_s ∨ i.opcode = .ldc_i4) :=
    fun hnamed => h (i.opcode.names_of_operation.2 hnamed)
  simp only [not_or, Bool.not_eq_true, Option.isSome_eq_false_iff,
    Option.isNone_iff_eq_none] at hnone
  unfold constant?
  split <;> simp_all

/-- What an abbreviated instruction names, and its long form. -/
inductive Abbreviated (i : Instruction) : Prop
  | constant {n : Int32} (hoperation : i.opcode.operation = .loadInt32)
      (htargets : i.targets = []) (hslot : i.slot? = none) (hconstant : i.constant? = some n)
      (hexpand : i.expand = i.withCode .ldc_i4 (.int32 n))
  | slot {v : Variable} {long : Opcode} (hoperation : i.opcode.operation.accessesVariable)
      (htargets : i.targets = []) (hslot : i.slot? = some v) (hkind : long.operandKind = .slot)
      (hlong : long.slot? = none) (hexpand : i.expand = i.withCode long (.slot v))
  | target {t : Nat} {long : Opcode} (hoperation : i.opcode.operation.branchesToTarget)
      (hoperand : i.operand = .target t) (hslot : i.slot? = none)
      (hkind : long.operandKind = .target) (hlong : long.slot? = none)
      (hexpand : i.expand = i.withCode long (.target t))

private theorem expand_eq_withCode {long : Opcode} (h : i.opcode.longForm? = some long) :
    i.expand = i.withCode long
      (match i.constant?, i.slot? with
      | some n, _ => .int32 n
      | none, some v => .slot v
      | none, none => i.operand) := by
  unfold expand
  split
  next hnone =>
    rw [h] at hnone
    cases hnone
  next long' hlong =>
    rw [h] at hlong
    cases hlong
    rfl

/-- The operands that fit an abbreviated opcode. -/
theorem operand_of_isWellFormed (h : i.isWellFormed) :
    match i.opcode.operandKind with
    | .none => i.operand = .none
    | .shortInt => (∃ n, i.operand = .int8 n) ∨ ∃ n, i.operand = .int32 n
    | .shortSlot => ∃ v, i.operand = .slot v
    | .shortTarget => ∃ t, i.operand = .target t
    | _ => True := by
  unfold isWellFormed at h
  cases hkind : i.opcode.operandKind <;> cases hoperand : i.operand <;> simp_all

/-- An instruction that loads a constant is abbreviated by its opcode or by a short operand. -/
theorem constant?_of_abbreviation (hwell : i.isWellFormed)
    (hnamed : i.opcode = .ldc_i4_s ∨ i.opcode.operandKind = .none ∧ i.opcode.constant?.isSome) :
    ∃ n, i.constant? = some n ∧ i.targets = [] ∧ ∀ v, i.operand ≠ .slot v := by
  have hoperand := operand_of_isWellFormed hwell
  rcases hnamed with hop | ⟨hkind, hconstant⟩
  · have hkind : i.opcode.operandKind = .shortInt := by rw [hop]; rfl
    rw [hkind] at hoperand
    rcases hoperand with ⟨n, hoperand⟩ | ⟨n, hoperand⟩ <;>
      simp [constant?, targets, hop, hoperand, Opcode.constant?]
  · rw [hkind] at hoperand
    obtain ⟨n, hn⟩ := Option.isSome_iff_exists.mp hconstant
    simp [constant?, targets, hoperand, hn]

private theorem slot?_of_abbreviation (hwell : i.isWellFormed)
    (hnamed : i.opcode.operandKind = .shortSlot ∨
      i.opcode.operandKind = .none ∧ i.opcode.slot?.isSome) :
    ∃ v, i.slot? = some v ∧ i.targets = [] := by
  have hoperand := operand_of_isWellFormed hwell
  rcases hnamed with hkind | ⟨hkind, hslot⟩
  · rw [hkind] at hoperand
    obtain ⟨v, hoperand⟩ := hoperand
    cases hop : i.opcode.slot? <;> simp [slot?, targets, hoperand, hop]
  · rw [hkind] at hoperand
    obtain ⟨v, hv⟩ := Option.isSome_iff_exists.mp hslot
    simp [slot?, targets, hoperand, hv]

private theorem abbreviated {long : Opcode} (hform : i.opcode.longForm? = some long)
    (hwell : i.isWellFormed) : i.Abbreviated := by
  have hexpand := expand_eq_withCode hform
  have hlong := Opcode.slot?_of_longForm? hform
  rcases Opcode.abbreviation_cases hform with ⟨hoperation, rfl, hnamed⟩ |
    ⟨hoperation, hkind, hnamed⟩ | ⟨hoperation, hkind, hnamed⟩
  · obtain ⟨n, hconstant, htargets, hnoSlot⟩ := constant?_of_abbreviation hwell hnamed
    -- Neither the opcode nor the operand names a variable.
    have hslot : i.slot? = none := by
      have hop : i.opcode.slot? = none := Opcode.slot?_eq_none (by rw [hoperation]; rfl)
      refine (i.slot?_withCode hop i.operand).trans ?_
      cases hoperand : i.operand with
      | slot v => exact absurd hoperand (hnoSlot v)
      | _ => rfl
    rw [hconstant] at hexpand
    exact .constant hoperation htargets hslot hconstant hexpand
  · obtain ⟨v, hslot, htargets⟩ := slot?_of_abbreviation hwell hnamed
    rw [constant?_eq_none (Operation.ne_loadInt32 (.inl hoperation)), hslot] at hexpand
    exact .slot hoperation htargets hslot hkind hlong hexpand
  · have hoperand := operand_of_isWellFormed hwell
    rw [hnamed] at hoperand
    obtain ⟨t, hoperand⟩ := hoperand
    have hslot : i.slot? = none := by
      have hop := Opcode.slot?_eq_none (Operation.accessesVariable_of_branchesToTarget hoperation)
      refine (i.slot?_withCode hop i.operand).trans ?_
      rw [hoperand]
    rw [constant?_eq_none (Operation.ne_loadInt32 (.inr hoperation)), hslot, hoperand] at hexpand
    exact .target hoperation hoperand hslot hkind hlong hexpand

theorem targets_expand (hwell : i.isWellFormed) : i.expand.targets = i.targets := by
  cases hform : i.opcode.longForm? with
  | none => rw [expand_of_longForm? i hform]
  | some long =>
      cases abbreviated hform hwell with
      | constant _ htargets _ _ hexpand => rw [hexpand, htargets]; rfl
      | slot _ htargets _ _ _ hexpand => rw [hexpand, htargets]; rfl
      | target _ hoperand _ _ _ hexpand =>
          rw [hexpand]
          unfold targets withCode
          rw [hoperand]

theorem slot?_expand_of_isWellFormed (hwell : i.isWellFormed) : i.expand.slot? = i.slot? := by
  cases hform : i.opcode.longForm? with
  | none => rw [expand_of_longForm? i hform]
  | some long =>
      cases abbreviated hform hwell with
      | constant _ _ hslot _ hexpand => rw [hexpand, hslot]; rfl
      | slot _ _ hslot _ hlong hexpand => rw [hexpand, slot?_withCode i hlong, hslot]
      | target _ _ hslot _ hlong hexpand => rw [hexpand, slot?_withCode i hlong, hslot]

theorem isWellFormed_expand (hwell : i.isWellFormed) : i.expand.isWellFormed := by
  cases hform : i.opcode.longForm? with
  | none => rwa [expand_of_longForm? i hform]
  | some long =>
      cases abbreviated hform hwell with
      | constant _ _ _ _ hexpand => rw [hexpand]; rfl
      | slot _ _ _ hkind _ hexpand => simp only [hexpand, isWellFormed, withCode, hkind]
      | target _ _ _ hkind _ hexpand => simp only [hexpand, isWellFormed, withCode, hkind]

end Instruction

namespace Setting

variable (s : Setting) {i : Instruction}

/-- An instruction and its long form are the same step. -/
theorem execute_expand (hwell : i.isWellFormed) : s.execute i.expand = s.execute i := by
  unfold execute
  rw [Instruction.operation_expand]
  cases hform : i.opcode.longForm? with
  | none => rw [i.expand_of_longForm? hform]
  | some long =>
      cases Instruction.abbreviated hform hwell with
      | @constant n hoperation _ _ hconstant hexpand =>
          have hlong : i.expand.constant? = some n := by rw [hexpand]; rfl
          simp only [hoperation, perform, loadInt32, hconstant, hlong, Step.operand]
      | @slot v long haccesses _ hslot _ _ _ =>
          have hlong : i.expand.slot? = some v :=
            (Instruction.slot?_expand_of_isWellFormed hwell).trans hslot
          generalize i.opcode.operation = o at haccesses
          cases o with
          | loadVariable => simp only [perform, loadVariable, hslot, hlong, Step.operand]
          | storeVariable => simp only [perform, storeVariable, hslot, hlong, Step.operand]
          | loadVariableAddress =>
              simp only [perform, loadVariableAddress, hslot, hlong, Step.operand]
          | _ => exact Bool.noConfusion haccesses
      | @target t long hbranches hoperand _ _ _ hexpand =>
          have htarget : i.target? = some t := by unfold Instruction.target?; rw [hoperand]
          have hlong : i.expand.target? = some t := by rw [hexpand]; rfl
          have hif : ∀ condition, Step.branchIf i.expand condition = Step.branchIf i condition := by
            intro condition
            simp only [Step.branchIf, htarget, hlong, Step.operand, Instruction.next_expand]
          generalize i.opcode.operation = o at hbranches
          cases o with
          | branch => simp only [perform, Step.branch, htarget, hlong, Step.operand]
          | leave => simp only [perform, Step.leave, htarget, hlong, Step.operand]
          | branchOnValue _ => simp only [perform, Step.branchOnValue, hif]
          | branchOnComparison _ _ _ => simp only [perform, branchOnComparison, hif]
          | _ => exact Bool.noConfusion hbranches

end Setting
end CilAnalysis
