import CilAnalysis.Proofs.DataFlow.Heights
import CilAnalysis.Slice.Inline

/-!
# Methods with inlined strings

Inlining a string puts a load of the string in the place of the call and instructions without effect
in the places of its slice.  `MethodBody.inlined` is the new method, and
`MethodBody.inlineString_eq_ok` says that it is what an inlining that succeeds returns.  Control
flows as before; what changes is the stack.

## Strategy

* *The new method.*  The function replaces one instruction at a time, each by its place in the list.
  Where offsets ascend, an offset belongs to one instruction, so that each replacement is a map over
  all instructions (`MethodBody.withCode_eq_ok`), and the maps are put together by induction on the
  slice (`MethodBody.withNops_eq_ok`).
* *Control.*  All that is replaced pushes something.  No opcode that pushes ends a block, branches
  or empties the stack, which is read off the table once (`Opcode.pushes_or`).  So the old
  instructions go on to the next one and nowhere else (`Instruction.IsStraight`), and so do those
  that replace them.  From this it follows that the two methods have the same ways of control
  (`MethodBody.flowsTo_inlined`) and that the same instructions are reachable
  (`MethodBody.reachable_inlined`).
-/

namespace CilAnalysis

open Instruction

/-! ## Instructions that push -/

private theorem Opcode.pushes_or (op : Opcode) :
    op.stackPush = .fixed 0 ∨ op.flow.endsBlock = false ∧ op.stackPop ≠ .all ∧
      op.operandKind ≠ .shortTarget ∧ op.operandKind ≠ .target ∧ op.operandKind ≠ .switch := by
  cases op <;> decide

namespace Instruction

/-- An instruction goes on to the next one of its block and nowhere else, and leaves what is deeper
on the stack. -/
structure IsStraight (i : Instruction) : Prop where
  stays : i.opcode.flow.endsBlock = false
  targets : i.targets = []
  clears : i.clearsStack = false

private theorem IsStraight.falls {i : Instruction} (h : i.IsStraight) :
    i.opcode.flow.fallsThrough = true := by
  have hstays := h.stays
  cases hflow : i.opcode.flow <;> simp_all [FlowControl.endsBlock, FlowControl.fallsThrough]

theorem isStraight_of_pushes {i : Instruction} (hi : i.isWellFormed = true)
    (hpush : 0 < i.pushCount) : i.IsStraight := by
  rcases i.opcode.pushes_or with hzero | ⟨hstays, hpops, hshort, htarget, hswitch⟩
  · unfold pushCount at hpush
    rw [hzero] at hpush
    exact absurd hpush (Nat.lt_irrefl 0)
  · refine ⟨hstays, ?_, ?_⟩
    · unfold isWellFormed at hi
      unfold targets
      cases hoperand : i.operand with
      | target _ =>
          rw [hoperand] at hi
          cases hkind : i.opcode.operandKind <;> simp_all
      | switch _ =>
          rw [hoperand] at hi
          cases hkind : i.opcode.operandKind <;> simp_all
      | _ => rfl
    · unfold clearsStack
      simpa using hpops

theorem pushCount_of_returnsString {i : Instruction} (hi : i.returnsString = true) :
    i.pushCount = 1 := by
  have hcall : i.opcode.stackPush = .bySignature ∧
      (i.signature?.any fun signature => signature.returnType == .string) = true := by
    unfold returnsString at hi
    split at hi
    next hopcode => exact ⟨by rw [hopcode]; rfl, hi⟩
    next hopcode => exact ⟨by rw [hopcode]; rfl, hi⟩
    next => exact nomatch hi
  obtain ⟨hpush, hstring⟩ := hcall
  unfold pushCount
  rw [hpush]
  cases hsignature : i.signature? with
  | none =>
      rw [hsignature] at hstring
      exact nomatch hstring
  | some signature =>
      rw [hsignature, Option.any_some, beq_iff_eq] at hstring
      simp [MethodSignature.returnsValue, hstring, TypeSig.isVoid]

/-- The instruction that takes the place of another when a call is replaced by a string. -/
def inlined (i : Instruction) (call : Nat) (slice : List Nat) (text : String) : Instruction :=
  if i.offset = call then i.withCode .ldstr (.string text)
  else if i.offset ∈ slice then i.withCode .nop .none
  else i

variable {i : Instruction} {call : Nat} {slice : List Nat} {text : String}

theorem inlined_call (h : i.offset = call) :
    i.inlined call slice text = i.withCode .ldstr (.string text) := if_pos h

theorem inlined_slice (hne : i.offset ≠ call) (h : i.offset ∈ slice) :
    i.inlined call slice text = i.withCode .nop .none := (if_neg hne).trans (if_pos h)

theorem inlined_other (hne : i.offset ≠ call) (h : i.offset ∉ slice) :
    i.inlined call slice text = i := (if_neg hne).trans (if_neg h)

theorem offset_inlined (i : Instruction) (call : Nat) (slice : List Nat) (text : String) :
    (i.inlined call slice text).offset = i.offset := by
  unfold inlined
  split_ifs <;> rfl

/-- Control goes on as before. -/
theorem fallsThrough_inlined (h : i.offset = call ∨ i.offset ∈ slice → i.IsStraight) :
    (i.inlined call slice text).opcode.flow.fallsThrough = i.opcode.flow.fallsThrough := by
  by_cases hcall : i.offset = call
  · rw [inlined_call hcall, (h (.inl hcall)).falls]
    rfl
  by_cases hslice : i.offset ∈ slice
  · rw [inlined_slice hcall hslice, (h (.inr hslice)).falls]
    rfl
  rw [inlined_other hcall hslice]

theorem targets_inlined (h : i.offset = call ∨ i.offset ∈ slice → i.IsStraight) :
    (i.inlined call slice text).targets = i.targets := by
  by_cases hcall : i.offset = call
  · rw [inlined_call hcall, (h (.inl hcall)).targets]
    rfl
  by_cases hslice : i.offset ∈ slice
  · rw [inlined_slice hcall hslice, (h (.inr hslice)).targets]
    rfl
  rw [inlined_other hcall hslice]

end Instruction

/-! ## The new method -/

namespace MethodBody

variable {b b' : MethodBody}

/-- The method in which a call and its slice are replaced by a string. -/
def inlined (b : MethodBody) (call : Nat) (slice : List Nat) (text : String) : MethodBody :=
  { b with instructions := b.instructions.map fun i => i.inlined call slice text }

theorem Ascending.map {f : Instruction → Instruction} (hb : b.Ascending)
    (hf : ∀ i, (f i).offset = i.offset) :
    MethodBody.Ascending { b with instructions := b.instructions.map f } := by
  have hoffsets : (b.instructions.map f).map offset =
      b.instructions.map offset := by
    rw [List.map_map]
    exact List.map_congr_left fun i _ => hf i
  unfold Ascending
  rw [hoffsets]
  exact hb

theorem withCode_eq_ok (hb : b.Ascending) {offset : Nat} {opcode : Opcode} {operand : Operand}
    (h : b.withCode offset opcode operand = .ok b') :
    b' = { b with
      instructions := b.instructions.map fun i =>
        if i.offset = offset then i.withCode opcode operand else i } := by
  unfold withCode indexOf at h
  cases hindex : b.instructions.findIdx? fun i => i.offset == offset with
  | none =>
      rw [hindex] at h
      exact nomatch h
  | some index =>
      rw [hindex] at h
      obtain rfl := Except.ok.inj h
      obtain ⟨hlt, hoffset, -⟩ := List.findIdx?_eq_some_iff_getElem.mp hindex
      congr 1
      refine List.ext_getElem? fun k => ?_
      rw [List.getElem?_modify, List.getElem?_map]
      cases hk : b.instructions[k]? with
      | none => simp
      | some i =>
          -- The instruction in the place that was found is the only one at the offset.
          have hsame : i.offset = offset ↔ index = k := by
            constructor
            · intro hi
              exact hb.eq_of_offset_eq (List.getElem?_eq_getElem hlt) hk
                ((beq_iff_eq.mp hoffset).trans hi.symm)
            · rintro rfl
              rw [List.getElem?_eq_getElem hlt, Option.some.injEq] at hk
              rw [← hk]
              exact beq_iff_eq.mp hoffset
          by_cases hi : index = k
          · simp [hi, hsame.mpr hi]
          · simp [hi, mt hsame.mp hi]

theorem withNops_eq_ok (hb : b.Ascending) {offsets : List Nat} (h : b.withNops offsets = .ok b') :
    b' = { b with
      instructions := b.instructions.map fun i =>
        if i.offset ∈ offsets then i.withCode .nop .none else i } := by
  unfold withNops at h
  induction offsets generalizing b with
  | nil =>
      obtain rfl := Except.ok.inj h
      simp
  | cons offset rest ih =>
      rw [List.foldlM_cons] at h
      obtain ⟨b₁, hfirst, h⟩ := bind_eq_ok h
      obtain rfl := withCode_eq_ok hb hfirst
      rw [ih (hb.map fun i => by split <;> rfl) h]
      congr 1
      rw [List.map_map]
      refine List.map_congr_left fun i _ => ?_
      by_cases hi : i.offset = offset
      · simp [hi, Instruction.withCode]
      · simp [hi]

/-- What there was when a string was inlined. -/
theorem inlineString_eq_ok (hb : b.Ascending) {call : Nat} {text : String} {slice : List Nat}
    (h : b.inlineString call text = .ok (slice, b')) :
    ∃ i g, b.instructionAt call = .ok i ∧ i.returnsString = true ∧ DataFlowGraph.ofBody b = .ok g ∧
      g.stackSlice call = .ok slice ∧ g.shared? call slice = none ∧
        b' = b.inlined call slice text := by
  obtain ⟨i, hi, h⟩ := bind_eq_ok h
  split at h
  next => exact nomatch h
  next hstring =>
    obtain ⟨g, hg, h⟩ := bind_eq_ok h
    obtain ⟨slice', hslice, h⟩ := bind_eq_ok h
    split at h
    next => exact nomatch h
    next hshared =>
      obtain ⟨b₁, hnops, h⟩ := bind_eq_ok h
      obtain ⟨b₂, hcode, h⟩ := bind_eq_ok h
      obtain ⟨rfl, rfl⟩ := Prod.mk.inj (Except.ok.inj h)
      refine ⟨i, g, hi, by simpa using hstring, hg, hslice, hshared, ?_⟩
      obtain rfl := withNops_eq_ok hb hnops
      rw [withCode_eq_ok (hb.map fun i => by split <;> rfl) hcode]
      unfold inlined
      congr 1
      rw [List.map_map]
      refine List.map_congr_left fun i _ => ?_
      unfold Instruction.inlined
      by_cases hcall : i.offset = call
      · by_cases hin : call ∈ slice' <;> simp [hcall, hin, Instruction.withCode]
      · by_cases hin : i.offset ∈ slice' <;> simp [hcall, hin, Instruction.withCode]

/-! ### Control flow -/

section ControlFlow

variable {call : Nat} {slice : List Nat} {text : String}

private theorem getElem?_inlined (b : MethodBody) (q : Nat) :
    (b.inlined call slice text).instructions[q]? =
      b.instructions[q]?.map fun i => i.inlined call slice text := List.getElem?_map

theorem getElem?_inlined_eq_some {q : Nat} {i' : Instruction} :
    (b.inlined call slice text).instructions[q]? = some i' ↔
      ∃ i, b.instructions[q]? = some i ∧ i.inlined call slice text = i' := by
  rw [getElem?_inlined, Option.map_eq_some_iff]

private theorem hasOffset_inlined {offset : Nat} :
    (b.inlined call slice text).HasOffset offset ↔ b.HasOffset offset := by
  unfold HasOffset inlined
  simp [offset_inlined]

theorem entryHeight?_inlined (b : MethodBody) (q : Nat) :
    (b.inlined call slice text).entryHeight? q = b.entryHeight? q := by
  unfold entryHeight? entryHeightOf
  rw [getElem?_inlined, Option.bind_map]
  simp only [Function.comp_def, offset_inlined]
  rfl

/-- The instructions that are replaced go on to the next one and nowhere else. -/
def ReplacesStraight (b : MethodBody) (call : Nat) (slice : List Nat) : Prop :=
  ∀ i ∈ b.instructions, i.offset = call ∨ i.offset ∈ slice → i.IsStraight

theorem flowsTo_inlined (h : b.ReplacesStraight call slice) {q q' : Nat} {i : Instruction}
    (hi : i ∈ b.instructions) :
    (b.inlined call slice text).FlowsTo q (i.inlined call slice text) q' ↔ b.FlowsTo q i q' := by
  unfold FlowsTo
  rw [fallsThrough_inlined (h i hi), targets_inlined (h i hi)]
  constructor
  · rintro ⟨j', hj', hflows⟩
    obtain ⟨j, hj, rfl⟩ := getElem?_inlined_eq_some.mp hj'
    rw [offset_inlined] at hflows
    exact ⟨j, hj, hflows⟩
  · rintro ⟨j, hj, hflows⟩
    refine ⟨_, getElem?_inlined_eq_some.mpr ⟨j, hj, rfl⟩, ?_⟩
    rwa [offset_inlined]

theorem reachable_inlined (h : b.ReplacesStraight call slice) (text : String) {q : Nat} :
    (b.inlined call slice text).Reachable q ↔ b.Reachable q := by
  constructor
  · intro hq
    induction hq with
    | first hi' =>
        obtain ⟨i, hi, -⟩ := getElem?_inlined_eq_some.mp hi'
        exact .first hi
    | entry hc hj' henters =>
        obtain ⟨j, hj, rfl⟩ := getElem?_inlined_eq_some.mp hj'
        rw [offset_inlined] at henters
        exact .entry hc hj henters
    | flow _ hi' hflows ih =>
        obtain ⟨i, hi, rfl⟩ := getElem?_inlined_eq_some.mp hi'
        exact .flow ih hi ((flowsTo_inlined h (List.mem_of_getElem? hi)).mp hflows)
  · intro hq
    induction hq with
    | first hi => exact .first (getElem?_inlined_eq_some.mpr ⟨_, hi, rfl⟩)
    | entry hc hj henters =>
        refine .entry hc (getElem?_inlined_eq_some.mpr ⟨_, hj, rfl⟩) ?_
        rwa [offset_inlined]
    | flow _ hi hflows ih =>
        exact .flow ih (getElem?_inlined_eq_some.mpr ⟨_, hi, rfl⟩)
          ((flowsTo_inlined h (List.mem_of_getElem? hi)).mpr hflows)

theorem entriesPlaced_inlined :
    (b.inlined call slice text).EntriesPlaced ↔ b.EntriesPlaced := by
  unfold EntriesPlaced
  simp only [hasOffset_inlined]
  rfl

theorem targetsPlaced_inlined (h : b.ReplacesStraight call slice) (htargets : b.TargetsPlaced) :
    (b.inlined call slice text).TargetsPlaced := by
  intro q i' hq hi' offset hoffset
  obtain ⟨i, hi, rfl⟩ := getElem?_inlined_eq_some.mp hi'
  rw [targets_inlined (h i (List.mem_of_getElem? hi))] at hoffset
  exact hasOffset_inlined.mpr (htargets q i ((reachable_inlined h text).mp hq) hi offset hoffset)

end ControlFlow

end MethodBody

end CilAnalysis
