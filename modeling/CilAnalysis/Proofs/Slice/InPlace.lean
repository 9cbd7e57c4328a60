import CilAnalysis.Proofs.ControlFlow.Alike
import CilAnalysis.Proofs.Edit
import CilAnalysis.Proofs.Slice.InlinedStacks

/-!
# Inlining in place is all or nothing

Inlining in place leaves the new method or the old one, and never one in between
(`MethodBody.inlineString_allOrNothing`).  The instructions it replaces push something, hence stay
within their blocks, and the control-flow graph keeps its shape.

## Strategy

* *In place.*  The edits that replace the slice and the call come after all that can be refused.
  When the first instruction of a slice loses its effect, nothing can fail any more: every offset of
  the slice belongs to an instruction, since it has a node in the data-flow graph
  (`MethodBody.hasOffset_of_stackSlice`), and no offset moves (`MethodBody.exists_withNops`).  So
  the run in place settles as the computation of the new method does
  (`MethodBody.InPlace.run_inlineString`).
* *When it succeeds.*  The search for a shared producer finds none exactly if no other instruction
  takes a value of the slice (`DataFlowGraph.Unshared`).
* *Control.*  The new instructions flow like the old ones, one by one, and control-flow graphs
  depend on no more than that (`ControlFlowGraph.ofBody_sameShape`).
-/

namespace CilAnalysis

open DataFlowGraph

/-! ## Shared producers -/

namespace DataFlowGraph

/-- No instruction outside a slice, other than the call, takes a value that was pushed in it. -/
def Unshared (g : DataFlowGraph) (call : Nat) (slice : List Nat) : Prop :=
  ∀ n ∈ g.nodes.values, n.offset ≠ call → n.offset ∉ slice →
    ∀ d ∈ n.stack.items, ∀ source ∈ d.sources, source.node ∉ slice

private theorem shared?_eq_none_iff {g : DataFlowGraph} {call : Nat} {slice : List Nat} :
    g.shared? call slice = none ↔ g.Unshared call slice := by
  unfold shared? Unshared
  rw [List.findSome?_eq_none_iff]
  refine forall₂_congr fun n _ => ?_
  by_cases hown : n.offset = call ∨ n.offset ∈ slice
  · rw [if_pos (by simpa using hown)]
    refine iff_of_true rfl fun hcall hslice => ?_
    exact absurd hown (not_or.mpr ⟨hcall, hslice⟩)
  · rw [if_neg (by simpa using hown), Option.map_eq_none_iff, DataFlowNode.sourceIn?,
      List.find?_eq_none]
    obtain ⟨hcall, hslice⟩ := not_or.mp hown
    simp only [hcall, hslice, ne_eq, not_false_eq_true, forall_true_left, List.mem_map,
      List.mem_flatMap, List.contains_iff_mem, SortedMap.mem_def]
    grind

end DataFlowGraph

namespace MethodBody

variable {b b' : MethodBody}

/-! ## Replacing instructions in place -/

private theorem hasOffset_map {f : Instruction → Instruction} (hf : ∀ i, (f i).offset = i.offset)
    {offset : Nat} :
    MethodBody.HasOffset { b with instructions := b.instructions.map f } offset ↔
      b.HasOffset offset := by
  simp [HasOffset, hf]

private theorem HasOffset.exists_withCode {offset : Nat} (h : b.HasOffset offset) (opcode : Opcode)
    (operand : Operand) : ∃ b', b.withCode offset opcode operand = .ok b' := by
  obtain ⟨i, hi, hoffset⟩ := h
  unfold withCode indexOf
  cases hindex : b.instructions.findIdx? fun i => i.offset == offset with
  | some index => exact ⟨_, rfl⟩
  | none =>
      have hnone := List.findIdx?_eq_none_iff.mp hindex i hi
      simp [hoffset] at hnone

/-- A slice is made of instructions, since it is made of nodes. -/
theorem hasOffset_of_stackSlice (hb : b.Ascending) {g : DataFlowGraph}
    (hg : DataFlowGraph.ofBody b = .ok g) {call : Nat} {slice : List Nat}
    (hslice : g.stackSlice call = .ok slice) : ∀ o ∈ call :: slice, b.HasOffset o := by
  intro o ho
  obtain ⟨n, hn⟩ := stackSlice_exists_node hslice o ho
  obtain ⟨q, i, hi, hoffset⟩ := exists_instruction_of_node hb hg hn
  exact ⟨i, List.mem_of_getElem? hi, hoffset⟩

/-- Instructions that are there lose their effect one after the other, and are still there. -/
theorem exists_withNops (hb : b.Ascending) {offsets : List Nat}
    (h : ∀ o ∈ offsets, b.HasOffset o) : ∃ b', b.withNops offsets = .ok b' := by
  have hstep : ∀ o ∈ offsets, ∀ c : MethodBody,
      (c.Ascending ∧ ∀ o' ∈ offsets, c.HasOffset o') →
        ∃ c', c.withNop o = .ok c' ∧ c'.Ascending ∧ ∀ o' ∈ offsets, c'.HasOffset o' := by
    rintro o ho c ⟨hc, hthere⟩
    obtain ⟨c', hc'⟩ := (hthere o ho).exists_withCode .nop .none
    have hkept : ∀ i : Instruction,
        (if i.offset = o then i.withCode .nop .none else i).offset = i.offset := by
      intro i
      split <;> rfl
    refine ⟨c', hc', ?_⟩
    rw [withCode_eq_ok hc hc']
    exact ⟨hc.map hkept, fun o' ho' => (hasOffset_map hkept).mpr (hthere o' ho')⟩
  obtain ⟨b', hb', -⟩ := foldlM_total hstep ⟨hb, h⟩
  exact ⟨b', hb'⟩

namespace InPlace

private theorem run_setCode (b : MethodBody) (offset : Nat) (opcode : Opcode) (operand : Operand) :
    (setCode offset opcode operand).run b =
      Edit.settle b ((b.withCode offset opcode operand).map ((), ·)) := by
  unfold setCode withCode
  rw [Edit.run_bind, Edit.run_ask]
  cases b.indexOf offset <;> rfl

private theorem run_setCode_ok {offset : Nat} {opcode : Opcode} {operand : Operand}
    (h : b.withCode offset opcode operand = .ok b') :
    (setCode offset opcode operand).run b = (.ok (), b') := by
  rw [run_setCode, h]
  rfl

private theorem run_forM_setNop {offsets : List Nat} (h : b.withNops offsets = .ok b') :
    (offsets.forM setNop).run b = (.ok (), b') := by
  unfold withNops at h
  induction offsets generalizing b with
  | nil =>
      cases h
      rfl
  | cons offset rest ih =>
      rw [List.foldlM_cons] at h
      obtain ⟨b₁, hfirst, h⟩ := bind_eq_ok h
      have hstep : (setNop offset).run b = (.ok (), b₁) := run_setCode_ok hfirst
      rw [List.forM_eq_forM, List.forM_cons, Edit.run_bind_ok hstep, ← List.forM_eq_forM, ih h]

end InPlace

/-- Once a slice is known nothing keeps it and its call from being replaced. -/
theorem exists_replaced (hb : b.Ascending) {g : DataFlowGraph} (hg : DataFlowGraph.ofBody b = .ok g)
    {call : Nat} {slice : List Nat} (hslice : g.stackSlice call = .ok slice) (text : String) :
    ∃ b₁ b₂, b.withNops slice = .ok b₁ ∧ b₁.withCode call .ldstr (.string text) = .ok b₂ := by
  have hthere : ∀ o ∈ call :: slice, b.HasOffset o := hasOffset_of_stackSlice hb hg hslice
  obtain ⟨b₁, hnops⟩ := exists_withNops hb fun o ho => hthere o (List.mem_cons_of_mem call ho)
  have hcall : b₁.HasOffset call := by
    rw [withNops_eq_ok hb hnops]
    refine (hasOffset_map fun i => ?_).mpr (hthere call List.mem_cons_self)
    split <;> rfl
  obtain ⟨b₂, hcode⟩ := hcall.exists_withCode .ldstr (.string text)
  exact ⟨b₁, b₂, hnops, hcode⟩

/-- The old method is left or the new one, and never one in between. -/
theorem InPlace.run_inlineString (hb : b.Ascending) (call : Nat) (text : String) :
    (InPlace.inlineString call text).run b = Edit.settle b (b.inlineString call text) := by
  unfold InPlace.inlineString MethodBody.inlineString
  refine Edit.run_ask_bind fun i hi => ?_
  split
  next => rfl
  next =>
    refine Edit.run_ask_bind fun g hg => Edit.run_ask_bind (q := fun _ => g.stackSlice call)
      fun slice hslice => ?_
    cases g.shared? call slice with
    | some shared => rfl
    | none =>
        obtain ⟨b₁, b₂, hnops, hcode⟩ := exists_replaced hb hg hslice text
        dsimp only
        rw [Edit.run_bind_ok (run_forM_setNop hnops), Edit.run_bind_ok (run_setCode_ok hcode),
          hnops]
        change _ = Edit.settle b
          (b₁.withCode call .ldstr (.string text) >>= fun new => pure (slice, new))
        rw [hcode]
        rfl

private theorem exists_inlineString_iff (hb : b.Ascending) {call : Nat} {text : String}
    {slice : List Nat} :
    (∃ b', b.inlineString call text = .ok (slice, b')) ↔
      ∃ i g, b.instructionAt call = .ok i ∧ i.returnsString = true ∧
        DataFlowGraph.ofBody b = .ok g ∧ g.stackSlice call = .ok slice ∧ g.Unshared call slice := by
  constructor
  · rintro ⟨b', h⟩
    obtain ⟨i, g, hi, hstring, hg, hslice, hshared, -⟩ := inlineString_eq_ok hb h
    exact ⟨i, g, hi, hstring, hg, hslice, shared?_eq_none_iff.mp hshared⟩
  · rintro ⟨i, g, hi, hstring, hg, hslice, hunshared⟩
    obtain ⟨b₁, b₂, hnops, hcode⟩ := exists_replaced hb hg hslice text
    have hshared := shared?_eq_none_iff.mpr hunshared
    refine ⟨b₂, ?_⟩
    unfold inlineString
    simp only [hi, hstring, hg, hslice, hshared, hnops, hcode, bind, Except.bind, Bool.not_true,
      Bool.false_eq_true, if_false]
    rfl

end MethodBody

/-! ## Control flow -/

namespace Instruction

variable {i : Instruction} {call : Nat} {slice : List Nat} {text : String}

private theorem size_inlined (i : Instruction) (call : Nat) (slice : List Nat) (text : String) :
    (i.inlined call slice text).size = i.size := by
  unfold inlined
  split_ifs <;> rfl

private theorem flowsAlike_inlined (h : i.offset = call ∨ i.offset ∈ slice → i.IsStraight) :
    i.FlowsAlike (i.inlined call slice text) where
  offset := (i.offset_inlined call slice text).symm
  next := by rw [next, next, offset_inlined, size_inlined]
  targets := (targets_inlined h).symm
  flow := by
    by_cases hcall : i.offset = call
    · rw [inlined_call hcall]
      exact .inr ⟨(h (.inl hcall)).stays, rfl⟩
    by_cases hslice : i.offset ∈ slice
    · rw [inlined_slice hcall hslice]
      exact .inr ⟨(h (.inr hslice)).stays, rfl⟩
    rw [inlined_other hcall hslice]
    exact .inl rfl

/-- An instruction in the place of another, where a call and its slice were replaced by a string. -/
structure Replaces (call : Nat) (slice : List Nat) (text : String) (i i' : Instruction) :
    Prop where
  offset : i'.offset = i.offset
  size : i'.size = i.size
  loads : i.offset = call → i'.opcode = .ldstr ∧ i'.operand = .string text
  clears : i.offset ∈ slice → i'.opcode = .nop ∧ i'.operand = .none
  keeps : i.offset ≠ call → i.offset ∉ slice → i' = i

private theorem replaces_inlined (hcall : call ∉ slice) (i : Instruction) :
    Replaces call slice text i (i.inlined call slice text) where
  offset := i.offset_inlined call slice text
  size := i.size_inlined call slice text
  loads := fun h => by
    rw [inlined_call h]
    exact ⟨rfl, rfl⟩
  clears := fun h => by
    have hne : i.offset ≠ call := fun heq => hcall (heq ▸ h)
    rw [inlined_slice hne h]
    exact ⟨rfl, rfl⟩
  keeps := inlined_other

end Instruction

private theorem ControlFlowGraph.ofBody_inlined {b : MethodBody} {call : Nat} {slice : List Nat}
    (h : b.ReplacesStraight call slice) (text : String) :
    SameOutcome ControlFlowGraph.SameShape (ofBody b) (ofBody (b.inlined call slice text)) := by
  refine ofBody_sameShape ?_ rfl
  unfold MethodBody.inlined
  rw [List.forall₂_map_right_iff, List.forall₂_same]
  exact fun i hi => Instruction.flowsAlike_inlined (h i hi)

namespace MethodBody

variable {b b' : MethodBody}

/-- `b'` is `b` with a call and its slice replaced by a string: each instruction stands where it
stood, nothing else took what the slice pushed, and control flows as before. -/
structure Inlines (b : MethodBody) (call : Nat) (text : String) (slice : List Nat)
    (b' : MethodBody) : Prop where
  nodup : slice.Nodup
  call_notMem : call ∉ slice
  placed : ∀ o ∈ call :: slice, b.HasOffset o
  code : List.Forall₂ (Instruction.Replaces call slice text) b.instructions b'.instructions
  rest : b' = { b with instructions := b'.instructions }
  unshared : ∃ g, ofBody b = .ok g ∧ g.Unshared call slice
  control : SameOutcome ControlFlowGraph.SameShape (ControlFlowGraph.ofBody b)
    (ControlFlowGraph.ofBody b')

private theorem inlines_of_inlineString (hb : b.Ascending)
    (hformed : ∀ i ∈ b.instructions, i.isWellFormed = true) {call : Nat} {text : String}
    {slice : List Nat} (h : b.inlineString call text = .ok (slice, b')) :
    b.Inlines call text slice b' := by
  have hdetaches := detaches_of_inlineString hb hformed h
  obtain ⟨-, g, -, -, hg, hslice, hshared, rfl⟩ := inlineString_eq_ok hb h
  have hnodup := stackSlice_nodup hslice
  exact {
    nodup := (List.nodup_cons.mp hnodup).2
    call_notMem := (List.nodup_cons.mp hnodup).1
    placed := hasOffset_of_stackSlice hb hg hslice
    code := by
      unfold inlined
      rw [List.forall₂_map_right_iff, List.forall₂_same]
      exact fun i _ => Instruction.replaces_inlined (List.nodup_cons.mp hnodup).1 i
    rest := rfl
    unshared := ⟨g, hg, shared?_eq_none_iff.mp hshared⟩
    control := ControlFlowGraph.ofBody_inlined hdetaches.straight text }

/-- Inlining a string in place is all or nothing.  If it fails, the method is as it was.  If it
succeeds, exactly the call and its slice are replaced and control flows as before.  It succeeds for
every call of a reachable string method in a method with a data-flow graph, unless a value of the
slice is shared. -/
theorem inlineString_allOrNothing (hb : b.Ascending)
    (hformed : ∀ i ∈ b.instructions, i.isWellFormed = true) (call : Nat) (text : String) :
    (InPlace.inlineString call text).Atomic b ∧
      (∀ slice b', (InPlace.inlineString call text).run b = (.ok slice, b') →
        b.Inlines call text slice b') ∧
      ∀ slice, (∃ b', (InPlace.inlineString call text).run b = (.ok slice, b')) ↔
        ∃ i g, b.instructionAt call = .ok i ∧ i.returnsString = true ∧
          DataFlowGraph.ofBody b = .ok g ∧ g.stackSlice call = .ok slice ∧
          g.Unshared call slice := by
  have hrun := InPlace.run_inlineString hb call text
  have hok : ∀ slice b', (InPlace.inlineString call text).run b = (.ok slice, b') ↔
      b.inlineString call text = .ok (slice, b') := fun slice b' => by
    rw [hrun, Edit.settle_eq_ok]
  refine ⟨Edit.atomic_of_run_eq_settle hrun, fun slice b' h => ?_, fun slice => ?_⟩
  · exact inlines_of_inlineString hb hformed ((hok slice b').mp h)
  · simp only [hok]
    exact exists_inlineString_iff hb

theorem inlineString_allOrNothing_branchAround :
    branchAround.Ascending ∧ (∀ i ∈ branchAround.instructions, i.isWellFormed = true) ∧
      ∃ b', (InPlace.inlineString 6 "x").run branchAround = (.ok [3, 4, 5], b') ∧
        branchAround.Inlines 6 "x" [3, 4, 5] b' := by
  obtain ⟨g, hg, hfound⟩ := exists_of_map_eq_ok (r := ofBody branchAround)
    (f := fun g => (g.leaveWithin ⟨true, false⟩ 10 [] [.enter 6], g.shared? 6 [3, 4, 5]))
    (y := (some ([3, 4, 5] ++ [6]), none)) (by decide +kernel)
  obtain ⟨hleave, hshared⟩ := Prod.mk.inj hfound
  obtain ⟨-, hinlines, hsucceeds⟩ :=
    inlineString_allOrNothing (b := branchAround) (by decide) (by decide) 6 "x"
  obtain ⟨b', hrun⟩ := (hsucceeds [3, 4, 5]).mpr ⟨_, g, rfl, by decide, hg,
    stackSlice_of_leaveWithin hleave, shared?_eq_none_iff.mp hshared⟩
  exact ⟨by decide, by decide, b', hrun, hinlines _ _ hrun⟩

end MethodBody

end CilAnalysis
