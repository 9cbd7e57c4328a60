import CilAnalysis.Proofs.ControlFlow.Execution
import CilAnalysis.Proofs.ControlFlow.Overlap
import CilAnalysis.Proofs.DataFlow.Stacks

/-!
# What control can reach

The control-flow graph says which blocks control can come to, and the data-flow graph has a node for
every instruction that it can come to.  The two are made independently of each other, one with an
edge at most between two blocks and the other instruction by instruction, and they agree
(`ControlFlowGraph.reached_iff_node`).

## Strategy

Both are compared with the instructions that are reachable in the method (`MethodBody.Reachable`).
For the data-flow graph this is `DataFlowGraph.mem_offsets_iff`.  For the control-flow graph there
are two inductions:

* on the way to a block (`ControlFlowGraph.Reached.reachableAt`): control comes to the first
  instruction of every block that is reached;
* on the way to an instruction (`ControlFlowGraph.reached_of_reachable`): every block that it stands
  in is reached.

An instruction inside a block goes on to the next one, so that a block is reachable as a whole if
its first instruction is (`MethodBody.ReachableAt.of_head?`).  Control enters blocks only at their
first instructions: branch targets and the starts of handlers and filters lead blocks
(`MethodBody.leads_of_entersAt`).

An exception counts as a way into a handler on both sides, whether a block of the guarded range is
reached or not.
-/

namespace CilAnalysis

open MethodBody

/-! ## Instructions with targets -/

private theorem Opcode.branches_or (op : Opcode) :
    (op.flow = .branch ∨ op.flow = .conditionalBranch) ∨
      op.operandKind ≠ .shortTarget ∧ op.operandKind ≠ .target ∧ op.operandKind ≠ .switch := by
  cases op <;> decide

/-- Only branches have targets. -/
theorem Instruction.branches_of_mem_targets {i : Instruction} (hi : i.isWellFormed = true)
    {offset : Nat} (h : offset ∈ i.targets) :
    i.opcode.flow = .branch ∨ i.opcode.flow = .conditionalBranch := by
  refine i.opcode.branches_or.resolve_right ?_
  rintro ⟨hshort, htarget, hswitch⟩
  unfold isWellFormed at hi
  unfold targets at h
  split at h
  next hoperand =>
    rw [hoperand] at hi
    cases hkind : i.opcode.operandKind <;> simp_all
  next hoperand =>
    rw [hoperand] at hi
    cases hkind : i.opcode.operandKind <;> simp_all
  next => exact absurd h List.not_mem_nil

namespace MethodBody

variable {b : MethodBody} {i j : Instruction} {block : BasicBlock Instruction}

/-! ## Reachable instructions -/

/-- Control can come to an instruction of the method. -/
def ReachableAt (b : MethodBody) (i : Instruction) : Prop :=
  ∃ q, b.instructions[q]? = some i ∧ b.Reachable q

theorem ReachableAt.target (h : b.ReachableAt i) (hj : j ∈ b.instructions)
    (htarget : j.offset ∈ i.targets) : b.ReachableAt j := by
  obtain ⟨q, hq, hreachable⟩ := h
  obtain ⟨q', hq'⟩ := List.getElem?_of_mem hj
  exact ⟨q', hq', .flow hreachable hq ⟨j, hq', .inr htarget⟩⟩

theorem ReachableAt.next (hb : b.Ascending) (h : b.ReachableAt i)
    (hpair : [i, j] <:+: b.instructions) (hfalls : i.opcode.flow.fallsThrough = true) :
    b.ReachableAt j := by
  obtain ⟨q, hq, hreachable⟩ := h
  obtain ⟨before, after, hsplit⟩ := hpair
  have hi : b.instructions[before.length]? = some i := by simp [← hsplit]
  have hj : b.instructions[before.length + 1]? = some j := by simp [← hsplit]
  obtain rfl := hb.eq_of_offset_eq hq hi rfl
  exact ⟨_, hj, .flow hreachable hq ⟨j, hj, .inl ⟨hfalls, rfl⟩⟩⟩

/-- Control that comes to the first instruction of a block comes to all of them. -/
theorem ReachableAt.of_head? (hb : b.Ascending) (hblock : block ∈ b.blocks)
    (hhead : block.instructions.head? = some i) (hi : b.ReachableAt i) :
    ∀ j ∈ block.instructions, b.ReachableAt j := by
  refine List.IsChain.induction b.ReachableAt _ (List.isChain_isInfix block.instructions) ?_ ?_
  · intro k l hpair hk
    have hinside := hpair.trans (infix_of_mem_cutBlocks hblock)
    refine hk.next hb hinside ?_
    -- One that ends a block would be the last of it.
    have hgoes : k.opcode.flow.endsBlock = false := by
      by_contra hends
      have hleads := leads_of_endsBlock hinside (Bool.eq_true_of_not_eq_false hends)
      rw [not_leads_of_adjacent hblock hpair] at hleads
      exact nomatch hleads
    cases hflow : k.opcode.flow <;> simp_all [FlowControl.endsBlock, FlowControl.fallsThrough]
  · intro hne
    rw [List.head?_eq_some_head hne, Option.some.injEq] at hhead
    rwa [hhead]

/-! ## Where clauses are entered -/

/-- Handlers and filters start blocks: they are not empty, so that none starts where the method
ends. -/
theorem leads_of_entersAt (hb : b.Ascending) {c : Clause} (hc : c ∈ b.clauses)
    (hcheck : b.checkClause c = .ok ()) {offset : Nat} (h : c.EntersAt offset) :
    b.leaders.contains offset = true := by
  obtain ⟨hspans, hbounds⟩ := checkClause_eq_ok hcheck
  obtain ⟨s, hs, rfl⟩ : ∃ s ∈ c.spans, s.start = offset := by
    rcases h with rfl | hfilter
    · exact ⟨_, Clause.mem_spans.mpr (.inr (.inr rfl)), rfl⟩
    · exact ⟨_, Clause.mem_spans.mpr (.inr (.inl ⟨offset, hfilter, rfl⟩)), rfl⟩
  obtain ⟨hstart, hstop⟩ := bounds_of_mem_spans hs
  have hle : s.stop ≤ b.endOffset := by
    rcases hbounds _ hstop with hoffset | hend
    · obtain ⟨i, hi, hoffset⟩ := isOffset_iff.mp hoffset
      exact hoffset ▸ offset_le_endOffset hb hi
    · exact hend.le
  have hbefore : s.start < b.endOffset :=
    calc s.start
        < s.stop := hspans s hs
      _ ≤ b.endOffset := hle
  exact leads_of_bound hc hstart hbefore.ne

end MethodBody

/-! ## Blocks that control reaches -/

namespace ControlFlowGraph

variable {b : MethodBody} {g : ControlFlowGraph Instruction} {i j : Instruction}
  {block : BasicBlock Instruction}

/-- Control can come to the block at an offset: the graph is entered there, or a clause enters its
handler or filter there, or there is an edge from such a block. -/
inductive Reached (g : ControlFlowGraph Instruction) (clauses : List Clause) : Nat → Prop
  | entry : Reached g clauses g.entry
  | clause {c : Clause} {offset : Nat} {node : FlowNode Instruction} (hc : c ∈ clauses)
      (henters : c.EntersAt offset)
      (hnode : g.nodeContaining? (fun i => i.offset == offset) = some node) :
      Reached g clauses node.block.offset
  | edge {head tail : Nat} {kind : EdgeKind} (hhead : Reached g clauses head)
      (hedge : g.graph.edge head tail = .ok kind) : Reached g clauses tail

/-- The node found for the offset of an instruction is that of the block it stands in. -/
theorem nodeContaining?_ofBody (hb : b.Ascending) (hg : ofBody b = .ok g)
    (hblock : block ∈ b.blocks)
    (hi : i ∈ block.instructions) :
    g.nodeContaining? (fun j => j.offset == i.offset) = some (nodeOf g.regions block) := by
  unfold nodeContaining?
  rw [nodes_ofBody hb hg, List.find?_map]
  -- A block that has an instruction at this offset has this one, and so it is this block.
  have hfound : (b.blocks.find? fun block =>
      block.instructions.any fun j => j.offset == i.offset) = some block := by
    cases hfind : b.blocks.find? fun block =>
        block.instructions.any fun j => j.offset == i.offset with
    | none =>
        have hnone := List.find?_eq_none.mp hfind block hblock
        exact absurd (List.any_eq_true.mpr ⟨i, hi, by simp⟩) hnone
    | some found =>
        have hmem := List.mem_of_find?_eq_some hfind
        have hany : (found.instructions.any fun j => j.offset == i.offset) = true :=
          List.find?_some (p := fun block : BasicBlock Instruction =>
            block.instructions.any fun j => j.offset == i.offset) hfind
        obtain ⟨j, hj, hoffset⟩ := List.any_eq_true.mp hany
        have hsame : j = i := hb.eq_of_mem ((infix_of_mem_cutBlocks hmem).subset hj)
          ((infix_of_mem_cutBlocks hblock).subset hi) (beq_iff_eq.mp hoffset)
        rw [block_unique hb hmem hblock hj (hsame ▸ hi)]
  exact congrArg (Option.map (nodeOf g.regions)) hfound

/-- The last instruction of a block stands before the first one of the block after it. -/
theorem adjacent_of_precedes (hb : b.Ascending) (hg : ofBody b = .ok g) {head tail : Nat}
    (hprecedes : g.Precedes head tail) (hends : g.EndsWith head i) :
    ∃ next ∈ b.blocks, next.offset = tail ∧
      ∃ j, next.instructions.head? = some j ∧ [i, j] <:+: b.instructions := by
  unfold Precedes at hprecedes
  rw [keys_ofBody hb hg, List.infix_map_iff] at hprecedes
  obtain ⟨pair, hpair, hoffsets⟩ := hprecedes
  obtain ⟨block, next, rfl⟩ : ∃ block next, pair = [block, next] := by
    rcases pair with _ | ⟨block, _ | ⟨next, _ | ⟨more, rest⟩⟩⟩ <;> simp_all
  simp only [List.map_cons, List.map_nil, List.cons.injEq, and_true] at hoffsets
  obtain ⟨rfl, rfl⟩ := hoffsets
  obtain ⟨block', hblock', hoffset, hlast⟩ := (endsWith_iff hg).mp hends
  have hblock : block ∈ b.blocks := hpair.subset (by simp)
  have hnext : next ∈ b.blocks := hpair.subset (by simp)
  obtain rfl := eq_of_block_offset hb hblock hblock' hoffset
  obtain ⟨j, hj, -⟩ := exists_head_of_mem_cutBlocks hnext
  refine ⟨next, hnext, rfl, j, hj, ?_⟩
  -- The blocks one after the other are the method, and the cut between these two is between `i` and
  -- `j`.
  obtain ⟨init, hinit⟩ := List.singleton_suffix_iff_getLast?_eq_some.mpr hlast
  obtain ⟨rest, hrest⟩ := List.singleton_prefix_iff_head?_eq_some.mpr hj
  have hcut := flatMap_cutBlocks b.leaders.contains b.instructions
  obtain ⟨before, after, hsplit⟩ := hpair
  unfold blocks at hsplit
  rw [← hsplit] at hcut
  refine ⟨before.flatMap BasicBlock.instructions ++ init,
    rest ++ after.flatMap BasicBlock.instructions, ?_⟩
  rw [← hcut]
  simp [← hinit, ← hrest]

private theorem exists_block_of_vertex (hg : ofBody b = .ok g) {v : Nat}
    (hv : v ∈ g.graph.vertices) : ∃ block ∈ b.blocks, block.offset = v := by
  obtain ⟨node, hnode⟩ := SortedMap.mem_iff_get?.mp hv
  obtain ⟨block, hblock, hoffset, -⟩ := (vertex_ofBody hg).mp (Digraph.vertex_eq_ok.mpr hnode)
  exact ⟨block, hblock, hoffset⟩

/-- Control comes to the first instruction of every block that is reached. -/
theorem Reached.reachableAt (hb : b.Ascending) (hg : ofBody b = .ok g) {v : Nat}
    (hv : g.Reached b.clauses v) :
    ∃ block ∈ b.blocks, block.offset = v ∧
      ∃ i, block.instructions.head? = some i ∧ b.ReachableAt i := by
  induction hv with
  | entry =>
      obtain ⟨first, graph, hfirst, -, -, -, -, -, hentry⟩ := ofBody_eq_ok hg
      obtain ⟨block, hblock, hmem⟩ := exists_block (List.mem_of_mem_head? hfirst)
      have hhead := head?_of_leads hblock hmem (leads_of_first hfirst)
      have hplace : b.instructions[0]? = some first := by rw [← List.head?_eq_getElem?, hfirst]
      exact ⟨block, hblock, (offset_of_head? hblock hhead).trans hentry.symm, first,
        hhead, 0, hplace, .first hplace⟩
  | @clause c offset node hc henters hnode =>
      have hany : (node.block.instructions.any fun i => i.offset == offset) = true :=
        List.find?_some (p := fun node : FlowNode Instruction =>
          node.block.instructions.any fun i => i.offset == offset) hnode
      obtain ⟨j, hj, hoffset⟩ := List.any_eq_true.mp hany
      obtain rfl := beq_iff_eq.mp hoffset
      have hblock := mem_nodes_ofBody hb hg (List.mem_of_find?_eq_some hnode)
      have hleads := leads_of_entersAt hb hc (checkClause_ofBody hg hc) henters
      obtain ⟨q, hq⟩ :=
        List.getElem?_of_mem ((infix_of_mem_cutBlocks hblock).subset hj)
      exact ⟨_, hblock, rfl, j, head?_of_leads hblock hj hleads, q, hq,
        .entry hc hq henters⟩
  | @edge head tail kind hhead hedge ih =>
      obtain ⟨block, hblock, rfl, first, hfirst, hreachable⟩ := ih
      obtain ⟨next, hnext, hoffset⟩ := exists_block_of_vertex hg (edge_ends hg hedge).2
      obtain ⟨j, hj, hjoffset⟩ := exists_head_of_mem_cutBlocks hnext
      have hjmem : j ∈ b.instructions :=
        (infix_of_mem_cutBlocks hnext).subset (List.mem_of_mem_head? hj)
      -- Along an exception control comes to where a clause is entered, and along any other edge to
      -- where the last instruction of the block sends it.
      by_cases hkind : kind = .abnormal
      · subst hkind
        obtain ⟨⟨-, c, hc, -, hentry⟩, -⟩ := (edge_abnormal_iff hb hg).mp hedge
        have henters : c.EntersAt j.offset := by
          rw [← hjoffset, hoffset, ← hentry, ← Clause.mem_entries]
          unfold Clause.entries
          split <;> simp
        obtain ⟨q, hq⟩ := List.getElem?_of_mem hjmem
        exact ⟨next, hnext, hoffset, j, hj, q, hq, .entry hc hq henters⟩
      · obtain ⟨last, hends, hexits⟩ := (edge_iff_exits hb hg kind hkind).mp hedge
        obtain ⟨block', hblock', hoffset', hlast⟩ := (endsWith_iff hg).mp hends
        obtain rfl := eq_of_block_offset hb hblock hblock' hoffset'
        have hreached : b.ReachableAt last :=
          hreachable.of_head? hb hblock hfirst last (List.mem_of_mem_getLast? hlast)
        cases hexits with
        | conditional _ htail =>
            exact ⟨next, hnext, hoffset, j, hj,
              hreached.target hjmem (by rwa [← hjoffset, hoffset])⟩
        | unconditional _ htail =>
            exact ⟨next, hnext, hoffset, j, hj,
              hreached.target hjmem (by rwa [← hjoffset, hoffset])⟩
        | fallThrough hfalls hafter _ =>
            obtain ⟨next, hnext, hoffset, j, hj, hpair⟩ := adjacent_of_precedes hb hg hafter hends
            exact ⟨next, hnext, hoffset, j, hj, hreached.next hb hpair hfalls⟩

/-- Where control goes on inside a block or along an edge, it stays among blocks that are
reached. -/
theorem Reached.of_allows (hb : b.Ascending) (hg : ofBody b = .ok g) (hi : i ∈ b.instructions)
    (hj : j ∈ b.instructions) (hallows : g.Allows i.offset j.offset)
    (hreached : ∀ block ∈ b.blocks, i ∈ block.instructions → g.Reached b.clauses block.offset) :
    ∀ block ∈ b.blocks, j ∈ block.instructions → g.Reached b.clauses block.offset := by
  intro block hblock hmem
  have hin {block : BasicBlock Instruction} (hblock : block ∈ b.blocks) {k : Instruction}
      (hk : k ∈ block.instructions) : k ∈ b.instructions :=
    (infix_of_mem_cutBlocks hblock).subset hk
  cases hallows with
  | @inside node i' j' hnode hpair hoffset hoffset' =>
      have hblock' := mem_nodes_ofBody hb hg hnode
      have hi' : i' ∈ node.block.instructions := hpair.subset (by simp)
      have hj' : j' ∈ node.block.instructions := hpair.subset (by simp)
      obtain rfl := hb.eq_of_mem (hin hblock' hi') hi hoffset
      obtain rfl := hb.eq_of_mem (hin hblock' hj') hj hoffset'
      rw [block_unique hb hblock hblock' hmem hj']
      exact hreached _ hblock' hi'
  | @along head tail last first kind hhead hlast hoffset htail hfirst hoffset' hedge _ =>
      have hblock' := mem_nodes_ofBody hb hg htail
      have hhead' := mem_nodes_ofBody hb hg hhead
      have hlast' := List.mem_of_mem_getLast? hlast
      have hfirst' := List.mem_of_mem_head? hfirst
      obtain rfl := hb.eq_of_mem (hin hhead' hlast') hi hoffset
      obtain rfl := hb.eq_of_mem (hin hblock' hfirst') hj hoffset'
      rw [block_unique hb hblock hblock' hmem hfirst']
      exact .edge (hreached _ hhead' hlast') hedge

/-- Every instruction that control can come to stands in a block that is reached. -/
theorem reached_of_reachable (hb : b.Ascending)
    (hformed : ∀ i ∈ b.instructions, i.isWellFormed = true) (hg : ofBody b = .ok g) {q : Nat}
    (hq : b.Reachable q) (hi : b.instructions[q]? = some i) :
    ∀ block ∈ b.blocks, i ∈ block.instructions → g.Reached b.clauses block.offset := by
  induction hq generalizing i with
  | first _ =>
      intro block hblock hmem
      rw [← List.head?_eq_getElem?] at hi
      have hhead := head?_of_leads hblock hmem (leads_of_first hi)
      obtain ⟨first, graph, hfirst, -, -, -, -, -, hentry⟩ := ofBody_eq_ok hg
      obtain rfl := Option.some.inj (hi.symm.trans hfirst)
      rw [offset_of_head? hblock hhead, ← hentry]
      exact .entry
  | entry hc hplace henters =>
      intro block hblock hmem
      obtain rfl := Option.some.inj (hi.symm.trans hplace)
      exact .clause hc henters (nodeContaining?_ofBody hb hg hblock hmem)
  | @flow q q' k hbefore hplace hflows ih =>
      have hkmem := List.mem_of_getElem? hplace
      have himem := List.mem_of_getElem? hi
      obtain ⟨j, hj, hflows⟩ := hflows
      obtain rfl := Option.some.inj (hi.symm.trans hj)
      refine .of_allows hb hg hkmem himem ?_ (ih hplace)
      -- Each way to go on is one that the graph allows.
      rcases hflows with ⟨hfalls, rfl⟩ | htarget
      · exact .of_next hb hg (infix_pair_of_getElem? hplace hi) hfalls
      · exact .of_target hb hg hkmem himem
          (Instruction.branches_of_mem_targets (hformed k hkmem) htarget) htarget

end ControlFlowGraph

/-! ## The two graphs -/

/-- The data-flow graph has nodes for the reachable instructions, at their offsets. -/
theorem DataFlowGraph.mem_offsets_iff {b : MethodBody} {id : Nat} {d : DataFlowGraph}
    (hb : b.Ascending) (hd : ofBody b id = .ok d) {offset : Nat} :
    offset ∈ d.nodes.values.map DataFlowNode.offset ↔
      ∃ i, b.ReachableAt i ∧ i.offset = offset := by
  obtain ⟨hne, -⟩ := (exists_ofBody_iff hb id).mp ⟨d, hd⟩
  constructor
  · intro hmem
    obtain ⟨n, hn, rfl⟩ := List.mem_map.mp hmem
    obtain ⟨⟨o, n⟩, hentry, rfl⟩ := List.mem_map.mp hn
    have hget := SortedMap.get?_of_mem_entries hentry
    obtain ⟨q, i, hi, rfl⟩ := exists_instruction_of_node hb hd hget
    obtain ⟨s, hs, -, rfl⟩ := (ofBody_mergesStacks hb hd hi).1 n hget
    obtain ⟨stack, hstack⟩ := hs.reached
    exact ⟨i, ⟨q, hi, hstack.reachable hne⟩, rfl⟩
  · rintro ⟨i, ⟨q, hi, hreachable⟩, rfl⟩
    obtain ⟨n, hn⟩ := (ofBody_mergesStacks hb hd hi).2 hreachable.exists_stackPath
    obtain ⟨s, -, -, rfl⟩ := (ofBody_mergesStacks hb hd hi).1 n hn
    exact List.mem_map.mpr
      ⟨_, List.mem_map.mpr ⟨_, SortedMap.mem_entries_of_get? hn, rfl⟩, rfl⟩

/-- The data-flow graph of a method has nodes for exactly those instructions that stand in blocks
which control can come to in the control-flow graph. -/
theorem ControlFlowGraph.reached_iff_node {b : MethodBody} {g : ControlFlowGraph Instruction}
    {id : Nat} {d : DataFlowGraph} (hb : b.Ascending)
    (hformed : ∀ i ∈ b.instructions, i.isWellFormed = true) (hg : ofBody b = .ok g)
    (hd : DataFlowGraph.ofBody b id = .ok d) (offset : Nat) :
    offset ∈ d.nodes.values.map DataFlowNode.offset ↔
      ∃ v node, g.Reached b.clauses v ∧ g.graph.vertex v = .ok node ∧
        ∃ i ∈ node.block.instructions, i.offset = offset := by
  rw [DataFlowGraph.mem_offsets_iff hb hd]
  constructor
  · rintro ⟨i, ⟨q, hi, hreachable⟩, hoffset⟩
    obtain ⟨block, hblock, hmem⟩ := exists_block (List.mem_of_getElem? hi)
    exact ⟨_, _, reached_of_reachable hb hformed hg hreachable hi block hblock hmem,
      (vertex_ofBody hg).mpr ⟨block, hblock, rfl, rfl⟩, i, hmem, hoffset⟩
  · rintro ⟨v, node, hreached, hnode, i, hmem, hoffset⟩
    obtain ⟨block, hblock, rfl, first, hfirst, hreachable⟩ := hreached.reachableAt hb hg
    obtain ⟨block', hblock', hoffset', rfl⟩ := (vertex_ofBody hg).mp hnode
    obtain rfl := eq_of_block_offset hb hblock hblock' hoffset'
    exact ⟨i, hreachable.of_head? hb hblock hfirst i hmem, hoffset⟩

/-- A loop in a guarded range, with an instruction after a branch that control never comes to. -/
def skippedPop : MethodBody where
  instructions :=
    [⟨0, .nop, .none, 1⟩, ⟨1, .ldarg_0, .none, 1⟩, ⟨2, .brtrue_s, .target 1, 2⟩,
      ⟨4, .br_s, .target 7, 2⟩, ⟨6, .pop, .none, 1⟩, ⟨7, .leave_s, .target 10, 2⟩,
      ⟨9, .endfinally, .none, 1⟩, ⟨10, .ret, .none, 1⟩]
  clauses := [⟨.finalizes, 1, 9, 9, 10⟩]
  parameters := [.int32]

/-- In `skippedPop` all instructions but the one after the branch are reached, and no block that is
reached has that one. -/
theorem ControlFlowGraph.reached_iff_node_skippedPop :
    skippedPop.Ascending ∧ (∀ i ∈ skippedPop.instructions, i.isWellFormed = true) ∧
      ∃ g d, ofBody skippedPop = .ok g ∧ DataFlowGraph.ofBody skippedPop = .ok d ∧
        ∀ offset, offset ∈ [0, 1, 2, 4, 7, 9, 10] ↔
          ∃ v node, g.Reached skippedPop.clauses v ∧ g.graph.vertex v = .ok node ∧
            ∃ i ∈ node.block.instructions, i.offset = offset := by
  have hascending : skippedPop.Ascending := by decide
  have hformed : ∀ i ∈ skippedPop.instructions, i.isWellFormed = true := by decide
  obtain ⟨g, hg, -⟩ := exists_of_map_eq_ok (r := ofBody skippedPop)
    (f := fun g => g.graph.vertices.keys) (y := [0, 1, 4, 6, 7, 9, 10]) (by decide +kernel)
  obtain ⟨d, hd, hoffsets⟩ := exists_of_map_eq_ok (r := DataFlowGraph.ofBody skippedPop)
    (f := fun d => d.nodes.values.map DataFlowNode.offset) (y := [0, 1, 2, 4, 7, 9, 10])
    (by decide +kernel)
  refine ⟨hascending, hformed, g, d, hg, hd, fun offset => ?_⟩
  rw [← hoffsets]
  exact reached_iff_node hascending hformed hg hd offset

end CilAnalysis
