import CilAnalysis.Proofs.ControlFlow.Build

/-!
# What the control-flow graph depends on

The graph of a method is made from where its instructions stand, where they may branch to and how
they pass control on.  Two methods whose instructions flow alike, one by one, and that have the same
clauses get graphs of the same shape, or are refused with the same error
(`ControlFlowGraph.ofBody_sameShape`).

## Strategy

The making of the graph is followed stage by stage.  For each stage there is a lemma which says that
two methods that flow alike cannot be told apart there:

* the checks read offsets, targets and the end of the method only (`checkTargets_congr`,
  `checkClause_congr`);
* the leaders also read which instructions end a block (`leaders_congr`), so the methods are cut at
  the same places, into blocks that flow alike (`blocks_congr`);
* the regions read the clauses and the offsets of the blocks (`regions_congr`);
* the edges read the last instruction of each block (`flowEdges_congr`) and the clauses
  (`exceptionEdges_congr`).

Up to the regions the two methods give equal results.  The vertices differ, since they hold the
instructions, so from there on the outcomes are compared up to the shape of the graph
(`SameOutcome Digraph.SameShape`), which decides whether an edge is accepted.
-/

namespace CilAnalysis

/-- Two ways to pass control on that lead to the same edges: they are equal, or both go on to the
next instruction of the block. -/
def FlowControl.Alike (f f' : FlowControl) : Prop :=
  f = f' ∨ f.endsBlock = false ∧ f'.endsBlock = false

/-- Two instructions in the same place that pass control on to the same places. -/
structure Instruction.FlowsAlike (i j : Instruction) : Prop where
  offset : i.offset = j.offset
  next : i.next = j.next
  targets : i.targets = j.targets
  flow : i.opcode.flow.Alike j.opcode.flow

/-- Two blocks at the same offset with instructions that flow alike. -/
structure BasicBlock.FlowsAlike (block block' : BasicBlock Instruction) : Prop where
  offset : block.offset = block'.offset
  instructions : List.Forall₂ Instruction.FlowsAlike block.instructions block'.instructions

/-- Two graphs that differ at most in the instructions of their blocks. -/
structure ControlFlowGraph.SameShape {ι κ : Type} (g : ControlFlowGraph ι)
    (h : ControlFlowGraph κ) : Prop where
  graph : g.graph.SameShape h.graph
  regions : g.regions = h.regions
  entry : g.entry = h.entry

namespace FlowControl.Alike

variable {f f' : FlowControl}

theorem endsBlock (h : f.Alike f') : f.endsBlock = f'.endsBlock := by
  rcases h with rfl | ⟨h, h'⟩
  · rfl
  · rw [h, h']

theorem fallsThrough (h : f.Alike f') : f.fallsThrough = f'.fallsThrough := by
  rcases h with rfl | ⟨h, h'⟩
  · rfl
  · cases f <;> cases f' <;> simp_all [FlowControl.endsBlock, FlowControl.fallsThrough]

end FlowControl.Alike

private theorem map_eq_of_forall₂ {α β γ : Type} {R : α → β → Prop} {f : α → γ} {f' : β → γ}
    (h : ∀ x y, R x y → f x = f' y) {l : List α} {l' : List β} (hl : List.Forall₂ R l l') :
    l.map f = l'.map f' := by
  induction hl with
  | nil => rfl
  | cons hhead _ ih => rw [List.map_cons, List.map_cons, h _ _ hhead, ih]

private theorem head?_of_forall₂ {α β : Type} {R : α → β → Prop} {l : List α} {l' : List β}
    (hl : List.Forall₂ R l l') :
    (l.head? = none ∧ l'.head? = none) ∨
      ∃ x y, l.head? = some x ∧ l'.head? = some y ∧ R x y := by
  cases hl with
  | nil => exact .inl ⟨rfl, rfl⟩
  | cons hhead _ => exact .inr ⟨_, _, rfl, rfl, hhead⟩

private theorem getLast?_of_forall₂ {α β : Type} {R : α → β → Prop} {l : List α} {l' : List β}
    (hl : List.Forall₂ R l l') :
    (l.getLast? = none ∧ l'.getLast? = none) ∨
      ∃ x y, l.getLast? = some x ∧ l'.getLast? = some y ∧ R x y := by
  simpa only [List.head?_reverse] using head?_of_forall₂ (List.forall₂_reverse_iff.mpr hl)

private theorem forM_congr_of_forall₂ {α β ε : Type} {R : α → β → Prop} {f : α → Except ε Unit}
    {f' : β → Except ε Unit} (h : ∀ x y, R x y → f x = f' y) {l : List α} {l' : List β}
    (hl : List.Forall₂ R l l') : l.forM f = l'.forM f' := by
  induction hl with
  | nil => rfl
  | cons hhead _ ih =>
      simp only [List.forM_eq_forM, List.forM_cons] at ih ⊢
      rw [h _ _ hhead, ih]

/-! ## Blocks -/

namespace MethodBody

open Instruction

private theorem followers_congr {l l' : List Instruction} (h : List.Forall₂ FlowsAlike l l') :
    followers l = followers l' := by
  induction h with
  | nil => rfl
  | cons hi hrest ih =>
      cases hrest with
      | nil => rfl
      | cons hj hrest => rw [followers, followers, hi.flow.endsBlock, hj.offset, ih]

private theorem cutBlocks_congr (leads : Nat → Bool) {l l' : List Instruction}
    (h : List.Forall₂ FlowsAlike l l') :
    List.Forall₂ BasicBlock.FlowsAlike (cutBlocks leads l) (cutBlocks leads l') := by
  induction h with
  | nil => exact .nil
  | @cons i j rest rest' hi _ ih =>
      rw [cutBlocks, cutBlocks]
      -- The rest is cut into as many blocks in both, and whether this instruction joins the first
      -- of them depends on its offset.
      generalize cutBlocks leads rest = blocks, cutBlocks leads rest' = blocks' at ih
      cases ih with
      | nil => exact .cons ⟨hi.offset, .cons hi .nil⟩ .nil
      | cons hnext hblocks =>
          dsimp only
          rw [hnext.offset]
          split
          next => exact .cons ⟨hi.offset, .cons hi .nil⟩ (.cons hnext hblocks)
          next => exact .cons ⟨hi.offset, .cons hi hnext.instructions⟩ hblocks

variable {b b' : MethodBody} (hcode : List.Forall₂ FlowsAlike b.instructions b'.instructions)
  (hclauses : b.clauses = b'.clauses)

include hcode

private theorem isOffset_congr : b.isOffset = b'.isOffset := by
  funext offset
  have hoffsets : b.instructions.map Instruction.offset = b'.instructions.map Instruction.offset :=
    map_eq_of_forall₂ (fun _ _ h => h.offset) hcode
  have hany : ∀ c : MethodBody,
      c.isOffset offset = (c.instructions.map Instruction.offset).any (· == offset) := by
    intro c
    rw [List.any_map]
    rfl
  calc b.isOffset offset
      = (b.instructions.map Instruction.offset).any (· == offset) := hany b
    _ = (b'.instructions.map Instruction.offset).any (· == offset) := by rw [hoffsets]
    _ = b'.isOffset offset := (hany b').symm

private theorem endOffset_congr : b.endOffset = b'.endOffset := by
  have hnexts : b.instructions.map Instruction.next = b'.instructions.map Instruction.next :=
    map_eq_of_forall₂ (fun _ _ h => h.next) hcode
  unfold endOffset
  rw [← List.getLast?_map, ← List.getLast?_map, hnexts]

private theorem checkTargets_congr : b.checkTargets = b'.checkTargets := by
  unfold checkTargets
  refine forM_congr_of_forall₂ (fun i j hij => ?_) hcode
  unfold checkBranch
  rw [isOffset_congr hcode, hij.targets, hij.offset]

private theorem checkClause_congr : b.checkClause = b'.checkClause := by
  funext c
  unfold checkClause
  rw [isOffset_congr hcode, endOffset_congr hcode]

include hclauses

private theorem leaders_congr : b.leaders = b'.leaders := by
  unfold leaders
  have hfirst : b.instructions.head?.map Instruction.offset =
      b'.instructions.head?.map Instruction.offset := by
    rw [← List.head?_map, ← List.head?_map, map_eq_of_forall₂ (fun _ _ h => h.offset) hcode]
  have htargets : b.instructions.flatMap Instruction.targets =
      b'.instructions.flatMap Instruction.targets := by
    rw [List.flatMap_def, List.flatMap_def, map_eq_of_forall₂ (fun _ _ h => h.targets) hcode]
  rw [hfirst, htargets, followers_congr hcode, hclauses, endOffset_congr hcode]

private theorem blocks_congr : List.Forall₂ BasicBlock.FlowsAlike b.blocks b'.blocks := by
  unfold blocks
  rw [leaders_congr hcode hclauses]
  exact cutBlocks_congr _ hcode

private theorem regions_congr : b.regions = b'.regions := by
  have hoffsets := map_eq_of_forall₂ (fun _ _ h => h.offset) (blocks_congr hcode hclauses)
  -- Blocks are placed by their offsets alone.
  have hplaced : ∀ (c : MethodBody) (ranges : List ScopeRange) (t : RegionTree),
      c.blocks.foldlM
          (fun t block =>
            t.addBlock (ScopeRange.innermost ranges block.offset (block.offset + 1)) block.offset)
          t =
        (c.blocks.map BasicBlock.offset).foldlM
          (fun t offset => t.addBlock (ScopeRange.innermost ranges offset (offset + 1)) offset)
          t := by
    intro c ranges t
    rw [List.foldlM_map]
  unfold regions clauseRegions clauseGroups
  simp only [hplaced, hoffsets, hclauses]

end MethodBody

/-! ## The graph -/

namespace ControlFlowGraph

private theorem exits_congr {block block' : BasicBlock Instruction} (h : block.FlowsAlike block')
    (next : Option Nat) : exits block next = exits block' next := by
  unfold exits
  rcases getLast?_of_forall₂ h.instructions with ⟨hnone, hnone'⟩ | ⟨i, j, hi, hj, hij⟩
  · rw [hnone, hnone']
  · rw [hi, hj]
    dsimp only
    rw [hij.flow.fallsThrough, hij.targets]
    -- Flow that does not end a block leads to no branch in either.
    rcases hij.flow with hflow | ⟨hgoes, hgoes'⟩
    · rw [hflow]
    · cases hf : i.opcode.flow <;> cases hf' : j.opcode.flow <;> simp_all [FlowControl.endsBlock]

private theorem flowEdges_congr {blocks blocks' : List (BasicBlock Instruction)}
    (h : List.Forall₂ BasicBlock.FlowsAlike blocks blocks') :
    flowEdges blocks = flowEdges blocks' := by
  induction h with
  | nil => rfl
  | @cons block block' rest rest' hblock hrest ih =>
      have hnext : rest.head?.map BasicBlock.offset = rest'.head?.map BasicBlock.offset := by
        rw [← List.head?_map, ← List.head?_map, map_eq_of_forall₂ (fun _ _ h => h.offset) hrest]
      rw [flowEdges, flowEdges, hblock.offset, hnext, exits_congr hblock, ih]

private theorem exceptionEdges_congr {blocks blocks' : List (BasicBlock Instruction)}
    (h : List.Forall₂ BasicBlock.FlowsAlike blocks blocks') :
    exceptionEdges blocks = exceptionEdges blocks' := by
  funext c
  have hedges : ∀ l : List (BasicBlock Instruction), exceptionEdges l c =
      ((l.map BasicBlock.offset).filter c.guards).map fun offset =>
        (⟨offset, c.entry⟩, .abnormal) := by
    intro l
    rw [List.filter_map, List.map_map]
    rfl
  have hoffsets := map_eq_of_forall₂ (fun _ _ h => BasicBlock.FlowsAlike.offset h) h
  calc exceptionEdges blocks c
      = ((blocks.map BasicBlock.offset).filter c.guards).map fun offset =>
          (⟨offset, c.entry⟩, .abnormal) := hedges blocks
    _ = ((blocks'.map BasicBlock.offset).filter c.guards).map fun offset =>
          (⟨offset, c.entry⟩, .abnormal) := by rw [hoffsets]
    _ = exceptionEdges blocks' c := (hedges blocks').symm

private theorem addEdge_sameOutcome {g h : Digraph (FlowNode Instruction) EdgeKind}
    (hgh : g.SameShape h) (head tail : Nat) (kind : EdgeKind) :
    SameOutcome Digraph.SameShape (addEdge g head tail kind) (addEdge h head tail kind) := by
  unfold addEdge Digraph.hasEdge
  rw [hgh.edges]
  split
  next => exact .ok hgh
  next => exact hgh.insertEdge head tail kind

private theorem addBlocks_sameOutcome (regions : RegionTree)
    {blocks blocks' : List (BasicBlock Instruction)}
    (h : List.Forall₂ BasicBlock.FlowsAlike blocks blocks') :
    SameOutcome Digraph.SameShape (addBlocks regions blocks) (addBlocks regions blocks') := by
  refine SameOutcome.foldlM ?_ h ⟨rfl, rfl, rfl, rfl⟩
  intro g g' block block' hgg' hblock
  unfold placeBlock
  rw [hblock.offset]
  cases regions.regionOf? block'.offset with
  | none => exact .error _
  | some region => exact hgg'.insertVertex _ _ _

private theorem addEdges_sameOutcome {g h : Digraph (FlowNode Instruction) EdgeKind}
    (hgh : g.SameShape h) (edges : List (Arc × EdgeKind)) :
    SameOutcome Digraph.SameShape (addEdges g edges) (addEdges h edges) := by
  refine SameOutcome.foldlM (T := Eq) ?_ (List.forall₂_refl edges) hgh
  rintro g h e _ hgh rfl
  exact addEdge_sameOutcome hgh _ _ _

/-- Methods whose instructions flow alike and that have the same clauses get graphs of the same
shape, or none for the same reason. -/
theorem ofBody_sameShape {b b' : MethodBody}
    (hcode : List.Forall₂ Instruction.FlowsAlike b.instructions b'.instructions)
    (hclauses : b.clauses = b'.clauses) : SameOutcome SameShape (ofBody b) (ofBody b') := by
  rcases head?_of_forall₂ hcode with ⟨hnone, hnone'⟩ | ⟨first, first', hfirst, hfirst', hsame⟩
  · rw [ofBody_eq_error hnone, ofBody_eq_error hnone']
    exact .error _
  · have hblocks := MethodBody.blocks_congr hcode hclauses
    have hedges : edgesOf b.blocks b.clauses = edgesOf b'.blocks b'.clauses := by
      unfold edgesOf
      rw [flowEdges_congr hblocks, exceptionEdges_congr hblocks, hclauses]
    rw [ofBody_eq_bind hfirst, ofBody_eq_bind hfirst', MethodBody.checkTargets_congr hcode,
      MethodBody.checkClause_congr hcode, MethodBody.regions_congr hcode hclauses, hedges, hclauses]
    -- Up to the regions both computations are the same.
    refine (SameOutcome.of_eq _).bind fun _ _ _ => (SameOutcome.of_eq _).bind fun _ _ _ => ?_
    refine (SameOutcome.of_eq _).bind ?_
    rintro regions _ rfl
    refine (addBlocks_sameOutcome regions hblocks).bind fun _ _ hvertices => ?_
    refine (addEdges_sameOutcome hvertices _).bind fun _ _ hgraph => ?_
    exact .ok ⟨hgraph, rfl, hsame.offset⟩

end ControlFlowGraph

end CilAnalysis
