import CilAnalysis.Proofs.Machine.Step

/-!
# Control goes where the tables say

An instruction that lets control go on to the next one is one that may fall through by the table of
opcodes.  One that sends control elsewhere branches by the table, to an offset in its operand.
Where control forks, each of the ways is one of these (`Setting.perform_leads`).

## Strategy

`Step.Yields` is a judgement about results only: whatever the state is, a step that succeeds has a
result with a property.  Where control goes is the result of the last step of an instruction, so
that all that comes before it may be passed over (`Yields.last`), with the operand as the one
exception (`Yields.operand`): the offsets that control may be sent to are read from there.

`Instruction.Leads` is the property.  It is stated of operations, which are fewer than opcodes.

* Most operations are a step and then the next instruction (`Yields.thenNext`).
* A branch on a condition goes to its target, to the next instruction, or to both if the condition
  is unknown (`branchIf_leads`).
* A switch goes to an offset of its table or, where the index is too large, to the next instruction;
  if the index is unknown it goes to all of them, each listed once (`switch_leads`,
  `mem_withoutRepeats`).
-/

namespace CilAnalysis

namespace Step

variable {α β : Type} {x : Step α} {f : α → Step β} {P : α → Prop} {Q : β → Prop}

/-- Whatever a step results in, unless it faults, has a property. -/
def Yields (x : Step α) (P : α → Prop) : Prop := ∀ m v m', x.run m = (.ok v, m') → P v

namespace Yields

theorem pure {v : α} (h : P v) : Yields (pure v) P := by
  rintro m _ _ hrun
  obtain ⟨hv, -⟩ := Prod.mk.inj hrun
  obtain rfl := Except.ok.inj hv
  exact h

theorem bind (hx : x.Yields P) (hf : ∀ v, P v → (f v).Yields Q) : (x >>= f).Yields Q := by
  intro m u m'' hrun
  rw [run_bind] at hrun
  cases hstep : x.run m with
  | mk r m' =>
      rw [hstep] at hrun
      cases r with
      | error fault => exact nomatch hrun
      | ok v => exact hf v (hx m v m' hstep) m' u m'' hrun

/-- What comes before the last step does not matter. -/
theorem last (hf : ∀ v, (f v).Yields Q) : (x >>= f).Yields Q :=
  bind (P := fun _ => True) (fun _ _ _ _ => trivial) fun v _ => hf v

theorem operand (i : Instruction) (kind : String) (named : Option α) :
    Yields (operand i kind named) (fun v => named = some v) := by
  cases named with
  | none => exact fun _ _ _ hrun => nomatch hrun
  | some v => exact pure rfl

theorem thenNext (step : Step Unit) : (thenNext step).Yields (· = .fallThrough) :=
  last fun _ => pure rfl

end Yields

end Step

/-- Whether an operation may let control go on to the next instruction. -/
def Operation.fallsThrough : Operation → Bool
  | branch | leave | ret | throws _ | endFinally | endFilter | jump => false
  | _ => true

/-- Whether an operation may send control to an offset in the operand. -/
def Operation.branches : Operation → Bool
  | branch | leave | branchOnValue _ | branchOnComparison .. | switch => true
  | _ => false

theorem Opcode.flow_fallsThrough {opcode : Opcode} (h : opcode.operation.fallsThrough) :
    opcode.flow.fallsThrough := by
  revert h
  cases opcode <;> decide

theorem Opcode.flow_branches {opcode : Opcode} (h : opcode.operation.branches) :
    opcode.flow = .branch ∨ opcode.flow = .conditionalBranch := by
  revert h
  cases opcode <;> decide

theorem mem_withoutRepeats {offset : Nat} {offsets : List Nat} :
    offset ∈ withoutRepeats offsets ↔ offset ∈ offsets := by
  -- The fold appends an offset unless it is there already; so it keeps all offsets it has seen.
  suffices hfold : ∀ seen : List Nat,
      offset ∈ offsets.foldl (fun seen o => if seen.contains o then seen else seen ++ [o]) seen ↔
        offset ∈ seen ∨ offset ∈ offsets by
    simpa [withoutRepeats] using hfold []
  induction offsets with
  | nil => simp
  | cons o rest ih =>
      intro seen
      rw [List.foldl_cons, ih]
      by_cases hseen : seen.contains o
      · simp only [hseen, if_true]
        have hmem : o ∈ seen := by simpa using hseen
        grind
      · simp only [hseen, Bool.false_eq_true, if_false]
        grind

namespace Instruction

variable (i : Instruction)

/-- Whether an instruction with an operation may send control to an offset. -/
def MayReach (o : Operation) (offset : Nat) : Prop :=
  o.branches ∧ offset ∈ i.targets ∨ o.fallsThrough ∧ offset = i.next

/-- Where an instruction with an operation may lead. -/
def Leads (o : Operation) : Successor → Prop
  | .fallThrough => o.fallsThrough
  | .branch target => o.branches ∧ target ∈ i.targets
  | .fork offsets => ∀ offset ∈ offsets, i.MayReach o offset
  | _ => True

variable {i} in
theorem Leads.mayReach {o : Operation} {t : Successor} (h : i.Leads o t) {offset : Nat}
    (hoffset : offset ∈ t.targets i.next) : i.MayReach o offset := by
  cases t with
  | fallThrough => exact .inr ⟨h, List.mem_singleton.mp hoffset⟩
  | branch target =>
      obtain rfl := List.mem_singleton.mp hoffset
      exact .inl h
  | fork offsets => exact h offset hoffset
  | _ => exact absurd hoffset List.not_mem_nil

private theorem mem_targets_of_target? {target : Nat} (h : i.target? = some target) :
    target ∈ i.targets := by
  unfold target? at h
  unfold targets
  split at h
  next offset hoperand =>
    cases h
    rw [hoperand]
    exact List.mem_singleton.mpr rfl
  next => exact nomatch h

private theorem targets_of_table? {table : List Nat} (h : i.table? = some table) :
    i.targets = table := by
  unfold table? at h
  unfold targets
  split at h
  next offsets hoperand =>
    cases h
    rw [hoperand]
  next => exact nomatch h

end Instruction

namespace Setting

open Step

variable (s : Setting) (i : Instruction)

private theorem branchIf_leads {o : Operation} (hbranches : o.branches) (hfalls : o.fallsThrough)
    (condition : Ternary) : (branchIf i condition).Yields (i.Leads o) := by
  refine .bind (Yields.operand i _ i.target?) ?_
  intro target htarget
  have hmem := i.mem_targets_of_target? htarget
  cases condition with
  | true => exact .pure ⟨hbranches, hmem⟩
  | false => exact .pure hfalls
  | unknown =>
      refine .pure (P := i.Leads o) (v := .fork [target, i.next]) fun offset hoffset => ?_
      rcases List.mem_pair.mp hoffset with rfl | rfl
      · exact .inl ⟨hbranches, hmem⟩
      · exact .inr ⟨hfalls, rfl⟩

private theorem switch_leads : (Step.switch i).Yields (i.Leads .switch) := by
  refine .bind (Yields.operand i _ i.table?) ?_
  intro table htable
  have htargets := i.targets_of_table? htable
  refine .last fun _ => .last fun index => .pure ?_
  unfold switchTo
  cases index.map Int.toNat with
  -- The index is unknown: any entry of the table, or the next instruction.
  | none =>
      intro offset hoffset
      rw [mem_withoutRepeats, List.mem_append, List.mem_singleton, ← htargets] at hoffset
      exact hoffset.imp (⟨rfl, ·⟩) (⟨rfl, ·⟩)
  | some place =>
      dsimp only
      -- A known index leads to its entry, or past the switch if there is none.
      cases htarget : table[place]? with
      | none => rfl
      | some target =>
          refine ⟨rfl, ?_⟩
          rw [htargets]
          exact List.mem_of_getElem? htarget

private theorem ret_leads : s.ret.Yields (i.Leads .ret) := by
  unfold ret
  cases s.returnsValue with
  | false => exact .pure trivial
  | true => exact .last fun _ => .last fun _ => .pure trivial

private theorem throws_leads (again : Bool) :
    (Step.throws again).Yields (i.Leads (.throws again)) := by
  unfold Step.throws
  cases again with
  | true => exact .pure trivial
  | false =>
      refine .last fun v => ?_
      by_cases hnull : v.isZero = .true
      · simp only [hnull, if_true]
        exact fun _ _ _ hrun => nomatch hrun
      · simp only [hnull, if_false]
        exact .last fun _ => .pure trivial

/-- Control goes on where an operation and the operand of the instruction let it. -/
theorem perform_leads (o : Operation) : (s.perform i o).Yields (i.Leads o) := by
  have hnext : ∀ step : Step Unit, o.fallsThrough → (thenNext step).Yields (i.Leads o) := by
    intro step hfalls m t m' hrun
    rw [Yields.thenNext step m t m' hrun]
    exact hfalls
  cases o with
  | nop => exact .pure rfl
  | branch =>
      refine .bind (Yields.operand i _ i.target?) ?_
      intro target htarget
      exact .pure ⟨rfl, i.mem_targets_of_target? htarget⟩
  | leave =>
      refine .bind (Yields.operand i _ i.target?) ?_
      intro target htarget
      exact .last fun _ => .pure ⟨rfl, i.mem_targets_of_target? htarget⟩
  | branchOnValue whenZero => exact .last fun _ => branchIf_leads i rfl rfl _
  | branchOnComparison c unsigned whenHolds =>
      refine .last fun _ => .last fun _ => .last fun _ => ?_
      exact branchIf_leads i rfl rfl _
  | switch => exact switch_leads i
  | ret => exact s.ret_leads i
  | throws again => exact throws_leads i again
  | endFinally => exact .last fun _ => .pure trivial
  | endFilter => exact .last fun _ => .pure trivial
  | jump =>
      refine .last fun _ => .last fun _ => .last fun _ => ?_
      dsimp only
      split
      · exact .last fun _ => .pure trivial
      · exact .pure trivial
  | _ => exact hnext _ rfl

end Setting

end CilAnalysis
