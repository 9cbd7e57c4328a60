import CilAnalysis.DataFlow.Build
import CilAnalysis.Proofs.ControlFlow.Alike
import CilAnalysis.Proofs.Instruction.Abbreviation

/-!
# Long forms mean the same

No execution and no analysis tells a method from the one in which all abbreviated instructions are
written out.  The main result is `expand_preserves_meaning`.

## Strategy

An instruction and its long form are the same step, and the tables say the same of both
(`Instruction.expand_indistinguishable`).  The two graphs that are made of a method are compared in
different ways.

* The control-flow graph keeps the instructions in its blocks, and so the graphs of the two methods
  are not equal.  But its vertices, edges and regions depend on the instructions only through the
  way control flows (`Instruction.FlowsAlike`), so that the two methods get graphs of the same
  shape.
* The data-flow graph names instructions by their offsets.  The worklist that makes it does the same
  at every visit (`FlowProblem.visit_expand`), and by induction on the visits it does the same in
  whole runs.  So the two methods get equal graphs (`DataFlowGraph.ofBody_expand`).

In both it is used that the operands fit their opcodes: only then are the targets of an instruction
those of its long form.
-/

namespace CilAnalysis

open Instruction

/-! ## Data flow -/

namespace Instruction

variable (i : Instruction)

@[simp] theorem flowState_expand : i.expand.flow = i.flow := by
  funext graph pops s
  simp only [flow, pushedSources, offset_expand, pushCount_expand, clearsStack_expand,
    variablesWritten_expand]

@[simp] theorem flowNode_expand : i.expand.flowNode = i.flowNode := by
  funext graph pops s
  simp only [flowNode, offset_expand, variablesRead_expand]

end Instruction

namespace FlowProblem

variable {b : MethodBody} {graph : Nat}

private theorem placeOf_expand : (ofBody graph b.expand).placeOf = (ofBody graph b).placeOf := by
  have hplaces : (ofBody graph b.expand).places = (ofBody graph b).places := by
    simp only [ofBody, MethodBody.expand, List.zipIdx_map, List.map_map]
    congr 2
    funext p
    simp
  funext source target
  unfold placeOf
  rw [hplaces]

private theorem getElem?_code_expand (place : Nat) :
    (ofBody graph b.expand).code[place]? =
      ((ofBody graph b).code[place]?).map Instruction.expand := by
  simp [ofBody, MethodBody.expand]

private theorem propagate_expand :
    (ofBody graph b.expand).propagate = (ofBody graph b).propagate := by
  funext s progress place
  unfold propagate
  rw [getElem?_code_expand]
  cases progress.states.get? place with
  | none => rfl
  | some old =>
      cases (ofBody graph b).code[place]? with
      | none => rfl
      | some i => simp only [Option.map_some, offset_expand]

private theorem entryPlaces_expand :
    (ofBody graph b.expand).entryPlaces = (ofBody graph b).entryPlaces := by
  funext c
  unfold entryPlaces
  rw [placeOf_expand]

private theorem start_expand : (ofBody graph b.expand).start = (ofBody graph b).start := by
  unfold start
  rw [entryPlaces_expand]
  rfl

private theorem successors_expand {i : Instruction} (hwell : i.isWellFormed) (place : Nat) :
    (ofBody graph b.expand).successors place i.expand = (ofBody graph b).successors place i := by
  have hsize : (ofBody graph b.expand).code.size = (ofBody graph b).code.size := by
    simp [ofBody, MethodBody.expand]
  unfold successors
  rw [placeOf_expand, hsize, i.flow_expand, i.offset_expand, targets_expand hwell]

variable (hwell : ∀ i ∈ b.instructions, i.isWellFormed)

include hwell

private theorem visit_expand : (ofBody graph b.expand).visit = (ofBody graph b).visit := by
  funext progress place
  unfold visit
  rw [getElem?_code_expand]
  cases hplace : (ofBody graph b).code[place]? with
  | none => rfl
  | some i =>
      have hi : i ∈ b.instructions := by
        simpa [ofBody] using Array.mem_of_getElem? hplace
      simp only [Option.map_some, popCount_expand, offset_expand,
        flowState_expand, flowNode_expand, entryPlaces_expand,
        propagate_expand, successors_expand (hwell i hi)]
      rfl

private theorem visitAll_expand (visits : Nat) (progress : FlowProgress) :
    (ofBody graph b.expand).visitAll visits progress =
      (ofBody graph b).visitAll visits progress := by
  induction visits generalizing progress with
  | zero => rfl
  | succ visits ih =>
      unfold visitAll
      rw [visit_expand hwell]
      cases progress.queue.first? with
      | none => rfl
      | some e =>
          dsimp only
          cases (ofBody graph b).visit { progress with queue := progress.queue.erase e.1 } e.1 with
          | error _ => rfl
          | ok next => exact ih next

end FlowProblem

theorem DataFlowGraph.ofBody_expand {b : MethodBody} (hwell : ∀ i ∈ b.instructions, i.isWellFormed)
    (id : Nat) : DataFlowGraph.ofBody b.expand id = DataFlowGraph.ofBody b id := by
  have hbound : (FlowProblem.ofBody id b.expand).visitBound =
      (FlowProblem.ofBody id b).visitBound := by
    simp [FlowProblem.visitBound, FlowProblem.ofBody, MethodBody.expand]
  have hempty : b.expand.instructions.isEmpty = b.instructions.isEmpty := by
    simp [MethodBody.expand]
  simp only [ofBody, hempty, FlowProblem.start_expand, hbound, FlowProblem.visitAll_expand hwell]

/-! ## All together -/

/-- Two instructions that stand in the same place, of which the tables say the same, and that do the
same in every setting and every state. -/
structure Instruction.Indistinguishable (i j : Instruction) : Prop where
  offset : i.offset = j.offset
  size : i.size = j.size
  targets : i.targets = j.targets
  slot : i.slot? = j.slot?
  flow : i.opcode.flow = j.opcode.flow
  pops : ∀ returnsValue, i.popCount returnsValue = j.popCount returnsValue
  clears : i.clearsStack = j.clearsStack
  pushes : i.pushCount = j.pushCount
  reads : i.variablesRead = j.variablesRead
  writes : i.variablesWritten = j.variablesWritten
  executes : ∀ (s : Setting) (m : Machine),
    (({} : Interpreter).dispatch s i).run m = (({} : Interpreter).dispatch s j).run m

namespace Instruction

variable {i : Instruction}

private theorem expand_indistinguishable (hwell : i.isWellFormed) :
    i.expand.Indistinguishable i where
  offset := i.offset_expand
  size := i.size_expand
  targets := targets_expand hwell
  slot := slot?_expand_of_isWellFormed hwell
  flow := i.flow_expand
  pops := i.popCount_expand
  clears := i.clearsStack_expand
  pushes := i.pushCount_expand
  reads := i.variablesRead_expand
  writes := i.variablesWritten_expand
  executes s m := by
    rw [Interpreter.dispatch_eq_execute, Interpreter.dispatch_eq_execute, s.execute_expand hwell]

private theorem expand_flowsAlike (hwell : i.isWellFormed) : i.FlowsAlike i.expand where
  offset := i.offset_expand.symm
  next := i.next_expand.symm
  targets := (targets_expand hwell).symm
  flow := .inl i.flow_expand.symm

end Instruction

theorem ControlFlowGraph.ofBody_expand {b : MethodBody}
    (hwell : ∀ i ∈ b.instructions, i.isWellFormed) :
    SameOutcome ControlFlowGraph.SameShape (ofBody b) (ofBody b.expand) := by
  refine ofBody_sameShape ?_ rfl
  unfold MethodBody.expand
  rw [List.forall₂_map_right_iff, List.forall₂_same]
  exact fun i hi => expand_flowsAlike (hwell i hi)

/-- Writing out abbreviations changes no meaning.  A well-formed instruction and its long form
cannot be told apart; the long form is well-formed and its own long form.  A method of well-formed
instructions and the one with all of them written out get control-flow graphs with the same
vertices, edges and regions, or are both refused, and they get the same data-flow graph. -/
theorem expand_preserves_meaning :
    (∀ i : Instruction, i.isWellFormed →
      i.expand.Indistinguishable i ∧ i.expand.isWellFormed ∧ i.expand.expand = i.expand) ∧
    ∀ b : MethodBody, (∀ i ∈ b.instructions, i.isWellFormed) →
      SameOutcome ControlFlowGraph.SameShape (ControlFlowGraph.ofBody b)
        (ControlFlowGraph.ofBody b.expand) ∧
      ∀ id, DataFlowGraph.ofBody b.expand id = DataFlowGraph.ofBody b id := by
  refine ⟨?_, ?_⟩
  · intro i hwell
    exact ⟨expand_indistinguishable hwell, isWellFormed_expand hwell,
      i.expand_expand⟩
  · intro b hwell
    exact ⟨ControlFlowGraph.ofBody_expand hwell, DataFlowGraph.ofBody_expand hwell⟩

/-- A method that counts down from three in a guarded range, all in abbreviated instructions. -/
def guardedCountdown : MethodBody where
  instructions :=
    [⟨0, .ldc_i4_s, .int8 3, 2⟩, ⟨2, .stloc_0, .none, 1⟩, ⟨3, .ldloc_0, .none, 1⟩,
      ⟨4, .ldc_i4_1, .none, 1⟩, ⟨5, .sub, .none, 1⟩, ⟨6, .dup, .none, 1⟩, ⟨7, .stloc_0, .none, 1⟩,
      ⟨8, .brtrue_s, .target 3, 2⟩, ⟨10, .leave_s, .target 13, 2⟩, ⟨12, .endfinally, .none, 1⟩,
      ⟨13, .ret, .none, 1⟩]
  clauses := [⟨.finalizes, 0, 12, 12, 13⟩]
  locals := [.int32]

/-- The long form of a constant, and the graphs of a method with seven abbreviated instructions. -/
theorem expand_preserves_meaning_guardedCountdown :
    (Instruction.mk 0 .ldc_i4_s (.int8 3) 2).expand = ⟨0, .ldc_i4, .int32 3, 2⟩ ∧
      (Instruction.mk 0 .ldc_i4 (.int32 3) 2).Indistinguishable ⟨0, .ldc_i4_s, .int8 3, 2⟩ ∧
      (∀ i ∈ guardedCountdown.instructions, i.isWellFormed) ∧
      (guardedCountdown.instructions.countP fun i => i.expand ≠ i) = 7 ∧
      (∃ g h, ControlFlowGraph.ofBody guardedCountdown = .ok g ∧
        ControlFlowGraph.ofBody guardedCountdown.expand = .ok h ∧ g.SameShape h) ∧
      ∃ g, DataFlowGraph.ofBody guardedCountdown = .ok g ∧
        DataFlowGraph.ofBody guardedCountdown.expand = .ok g := by
  have hwell : ∀ i ∈ guardedCountdown.instructions, i.isWellFormed := by decide
  obtain ⟨hflow, hdata⟩ := expand_preserves_meaning.2 guardedCountdown hwell
  obtain ⟨g, hg, -⟩ := exists_of_map_eq_ok (r := ControlFlowGraph.ofBody guardedCountdown)
    (f := fun g => g.entry) (y := 0) (by decide +kernel)
  obtain ⟨d, hd, -⟩ := exists_of_map_eq_ok (r := DataFlowGraph.ofBody guardedCountdown)
    (f := fun _ => ()) (y := ()) (by decide +kernel)
  obtain ⟨h, hh, hsame⟩ := hflow.exists_ok hg
  exact ⟨rfl, (expand_preserves_meaning.1 ⟨0, .ldc_i4_s, .int8 3, 2⟩ rfl).1, hwell, by decide,
    ⟨g, h, hg, hh, hsame⟩, d, hd, (hdata 0).trans hd⟩

end CilAnalysis
