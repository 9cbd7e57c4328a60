import CilAnalysis.Proofs.ControlFlow.Blocks
import CilAnalysis.Proofs.ControlFlow.Build
import CilAnalysis.Proofs.Region.Walk

/-!
# The blocks of a method and its regions

The nodes of a control-flow graph are the blocks of the method, and the region tree has each of them
in one scope, whatever clauses the method has (`ControlFlowGraph.ofBody_partitions`).

`ControlFlowGraph.Partitions` says what this means in full.  The blocks stand in the order of the
method and give its instructions again.  They start where a block is to start and nowhere else, and
an instruction that ends a block is the last of its block.  The region tree lists each block once,
and the scope it is listed in is the one that the node names.

## Strategy

* The regions are made from clauses first, group by group, and then the blocks are put into them.
  The invariant of the first part is that the tree is sound and holds no block
  (`MethodBody.addGroup_sound`): guarded regions and handlers are only hung into scopes
  (`RegionTree.Hangs`), and hanging keeps a sound tree sound.  Since no block is there before, those
  that are there after the second part are the blocks of the method (`MethodBody.regions_sound`).
* The vertices are made from the blocks in a sorted map, so listing them gives the blocks in the
  order of their offsets.  That is the order of the method, because its offsets ascend
  (`ControlFlowGraph.vertices_ofBody`).
-/

namespace CilAnalysis

open RegionTree

/-! ## The regions of a method -/

namespace MethodBody

variable {b : MethodBody} {t t' : RegionTree}

private theorem addClause_hangs {ranges more : List ScopeRange} {guarded : Nat} {c : Clause}
    (h : addClause ranges guarded t c = .ok (more, t')) : ∃ scopes, t.Hangs t' guarded scopes := by
  obtain ⟨⟨ids, t₁⟩, hadd, h⟩ := bind_eq_ok h
  -- After the handler only ranges are checked, which leaves the tree alone.
  have ht : t₁ = t' := by
    dsimp only at h
    split at h
    next =>
      obtain ⟨_, -, h⟩ := bind_eq_ok h
      obtain ⟨_, -, h⟩ := bind_eq_ok h
      obtain ⟨_, -, h⟩ := bind_eq_ok h
      exact (Prod.mk.inj (Except.ok.inj h)).2
    next =>
      obtain ⟨_, -, h⟩ := bind_eq_ok h
      obtain ⟨_, -, h⟩ := bind_eq_ok h
      exact (Prod.mk.inj (Except.ok.inj h)).2
  exact ht ▸ addHandler_hangs hadd

/-- Adding a group of clauses keeps a tree sound and places no block. -/
theorem addGroup_sound {state state' : List ScopeRange × RegionTree}
    {group : GuardedRange × List Clause} (h : addGroup state group = .ok state')
    (hstate : state.2.Sound ∧ state.2.blocks = .empty) :
    state'.2.Sound ∧ state'.2.blocks = .empty := by
  obtain ⟨ranges, t⟩ := state
  obtain ⟨range, clauses⟩ := group
  obtain ⟨_, -, h⟩ := bind_eq_ok h
  obtain ⟨⟨⟨guarded, inner⟩, t₁⟩, hguarded, h⟩ := bind_eq_ok h
  obtain ⟨⟨added, t₂⟩, hclauses, h⟩ := bind_eq_ok h
  cases h
  have hhangs := addGuarded_hangs hguarded
  refine foldlM_induction (P := fun s => s.2.Sound ∧ s.2.blocks = .empty) ?_
    ⟨hstate.1.hangs hhangs, hhangs.blocks.trans hstate.2⟩ hclauses
  -- The clauses of the group hang handlers into the region that was hung for it.
  rintro c - ⟨before, t₃⟩ ⟨after, t₄⟩ ⟨hsound, hblocks⟩ hstep
  obtain ⟨⟨more, t₅⟩, hadd, hstep⟩ := bind_eq_ok hstep
  cases hstep
  obtain ⟨scopes, hhangs⟩ := addClause_hangs hadd
  exact ⟨hsound.hangs hhangs, hhangs.blocks.trans hblocks⟩

theorem clauseRegions_sound {ranges : List ScopeRange} (h : b.clauseRegions = .ok (ranges, t)) :
    t.Sound ∧ t.blocks = .empty :=
  foldlM_induction (P := fun s => s.2.Sound ∧ s.2.blocks = .empty)
    (fun _ _ _ _ hstate hstep => addGroup_sound hstep hstate) ⟨.empty, rfl⟩ h

/-- The regions of a method form a sound tree, in which its blocks are placed and no others. -/
theorem regions_sound (h : b.regions = .ok t) :
    t.Sound ∧ ∀ offset, offset ∈ t.blocks ↔ ∃ block ∈ b.blocks, block.offset = offset := by
  obtain ⟨⟨ranges, t₁⟩, hclauses, h⟩ := bind_eq_ok h
  obtain ⟨t₂, hblocks, h⟩ := bind_eq_ok h
  cases h
  have ht₁ := clauseRegions_sound hclauses
  obtain ⟨hsound, hmem⟩ := foldlM_addBlock hblocks ht₁.1
  refine ⟨hsound.sortChildren, fun offset => ?_⟩
  have hnone : offset ∉ t₁.blocks := ht₁.2 ▸ SortedMap.notMem_empty offset
  calc offset ∈ t₂.sortChildren.blocks
      ↔ offset ∈ t₂.blocks := by rw [blocks_sortChildren]
    _ ↔ offset ∈ t₁.blocks ∨ ∃ block ∈ b.blocks, block.offset = offset := hmem offset
    _ ↔ ∃ block ∈ b.blocks, block.offset = offset := or_iff_right hnone

end MethodBody

/-! ## The nodes of the graph of a method -/

namespace ControlFlowGraph

variable {b : MethodBody} {g : ControlFlowGraph Instruction}

/-- The nodes are the blocks in the order of the method. -/
theorem vertices_ofBody (hb : b.Ascending) (hg : ofBody b = .ok g) :
    g.graph.vertices.entries =
      b.blocks.map fun block => (block.offset, nodeOf g.regions block) := by
  -- Both lists ascend by offset, so it is enough that they have the same members.
  refine SortedMap.eq_of_ascending (f := Prod.fst) g.graph.vertices.sorted ?_ ?_
  · rw [List.pairwise_map]
    refine (List.pairwise_map.mp (MethodBody.blocks_ascending hb)).imp ?_
    exact fun hlt => Nat.compare_eq_lt.mpr hlt
  · rintro ⟨v, node⟩
    rw [← SortedMap.get?_eq_some_iff, ← Digraph.vertex_eq_ok, vertex_ofBody hg]
    simp

theorem nodes_ofBody (hb : b.Ascending) (hg : ofBody b = .ok g) :
    g.nodes = b.blocks.map (nodeOf g.regions) := by
  unfold nodes SortedMap.values
  rw [vertices_ofBody hb hg, List.map_map]
  rfl

theorem mem_nodes_ofBody (hb : b.Ascending) (hg : ofBody b = .ok g) {node : FlowNode Instruction}
    (hnode : node ∈ g.nodes) : node.block ∈ b.blocks := by
  rw [nodes_ofBody hb hg] at hnode
  obtain ⟨block, hblock, rfl⟩ := List.mem_map.mp hnode
  exact hblock

/-- The regions of a graph form a sound tree, in which its nodes are placed and no others. -/
theorem regions_ofBody (hg : ofBody b = .ok g) :
    g.regions.Sound ∧
      ∀ offset, offset ∈ g.regions.blocks ↔ ∃ node, g.graph.vertex offset = .ok node := by
  obtain ⟨first, graph, -, -, -, hregions, -, -, -⟩ := ofBody_eq_ok hg
  obtain ⟨hsound, hplaced⟩ := MethodBody.regions_sound hregions
  refine ⟨hsound, fun offset => ?_⟩
  rw [hplaced]
  constructor
  · rintro ⟨block, hblock, rfl⟩
    exact ⟨_, (vertex_ofBody hg).mpr ⟨block, hblock, rfl, rfl⟩⟩
  · rintro ⟨node, hnode⟩
    obtain ⟨block, hblock, hoffset, -⟩ := (vertex_ofBody hg).mp hnode
    exact ⟨block, hblock, hoffset⟩

private theorem blocksOf_root_ofBody (hg : ofBody b = .ok g) :
    ∃ offsets, g.regions.blocksOf root = .ok offsets ∧ offsets.Nodup ∧
      ∀ offset, offset ∈ offsets ↔ ∃ node, g.graph.vertex offset = .ok node := by
  obtain ⟨hsound, hplaced⟩ := regions_ofBody hg
  obtain ⟨offsets, hoffsets, hnodup, hmem⟩ := blocksOf_root hsound
  exact ⟨offsets, hoffsets, hnodup, fun offset => (hmem offset).trans (hplaced offset)⟩

/-- A node has the number of the scope that its block is placed in. -/
theorem inScope_ofBody (hg : ofBody b = .ok g) {offset : Nat} {node : FlowNode Instruction}
    (hnode : g.graph.vertex offset = .ok node) :
    g.regions.regionOf? offset = some node.region ∧
      ∃ r, g.regions.region node.region = .ok r ∧ r.isScope = true := by
  obtain ⟨hsound, hplaced⟩ := regions_ofBody hg
  obtain ⟨s, hs⟩ := SortedMap.mem_iff_get?.mp ((hplaced offset).mpr ⟨node, hnode⟩)
  obtain ⟨block, -, rfl, rfl⟩ := (vertex_ofBody hg).mp hnode
  have hregion : (nodeOf g.regions block).region = s := by
    show (g.regions.blocks.get? block.offset).getD 0 = s
    rw [hs, Option.getD_some]
  rw [hregion]
  -- Only scopes hold blocks.
  obtain ⟨r, hr, hmem⟩ := getElem?_of_mem_held (hsound.mem_blocksIn.mpr hs)
  exact ⟨hs, r, region_eq_ok.mpr hr, Region.isScope_of_mem_childBlocks hmem⟩

/-- The blocks of a graph are the instructions of a method cut into pieces, and its region tree has
each of them in one scope. -/
structure Partitions (g : ControlFlowGraph Instruction) (b : MethodBody) : Prop where
  ascending : (g.nodes.map (·.block.offset)).Pairwise (· < ·)
  /-- The blocks one after the other are the method. -/
  instructions : g.nodes.flatMap (·.block.instructions) = b.instructions
  /-- A node is found under the offset of its first instruction. -/
  identified : ∀ offset node, g.graph.vertex offset = .ok node → node.block.offset = offset ∧
    ∃ first, node.block.instructions.head? = some first ∧ first.offset = offset
  starts : ∀ i ∈ b.instructions,
    (∃ node ∈ g.nodes, node.block.instructions.head? = some i) ↔ b.StartsBlock i
  ends : ∀ node ∈ g.nodes, ∀ i ∈ node.block.instructions, i.opcode.flow.endsBlock = true →
    node.block.instructions.getLast? = some i
  /-- The region tree lists every node once. -/
  placed : ∃ offsets, g.regions.blocksOf RegionTree.root = .ok offsets ∧ offsets.Nodup ∧
    ∀ offset, offset ∈ offsets ↔ ∃ node, g.graph.vertex offset = .ok node
  inScope : ∀ offset node, g.graph.vertex offset = .ok node →
    g.regions.regionOf? offset = some node.region ∧
      ∃ r, g.regions.region node.region = .ok r ∧ r.isScope = true

/-- The graph of a method is made of pieces of it: cut where blocks are to start, and each placed in
one scope.  Instructions take up at least one byte, so that no one starts where the method ends. -/
theorem ofBody_partitions (hb : b.Ascending) (hsize : b.Sized)
    (hg : ofBody b = .ok g) : g.Partitions b := by
  refine ⟨?_, ?_, ?_, ?_, ?_, ?_, ?_⟩
  · rw [nodes_ofBody hb hg, List.map_map]
    exact MethodBody.blocks_ascending hb
  · rw [nodes_ofBody hb hg, List.flatMap_map]
    exact MethodBody.flatMap_cutBlocks _ _
  · intro offset node hnode
    obtain ⟨block, hblock, rfl, rfl⟩ := (vertex_ofBody hg).mp hnode
    obtain ⟨i, hi, hoffset⟩ := MethodBody.exists_head_of_mem_cutBlocks hblock
    exact ⟨rfl, i, hi, hoffset.symm⟩
  · intro i hi
    rw [← MethodBody.head?_block_iff hb hsize hi, nodes_ofBody hb hg]
    simp only [List.mem_map, exists_exists_and_eq_and]
    rfl
  · intro node hnode i hi hends
    exact MethodBody.getLast?_of_endsBlock (mem_nodes_ofBody hb hg hnode) hi hends
  · exact blocksOf_root_ofBody hg
  · exact fun offset node => inScope_ofBody hg

/-- A switch to the instruction after it, guarded by a clause with a filter. -/
def filteredSwitch : MethodBody where
  instructions :=
    [⟨0, .nop, .none, 1⟩, ⟨1, .ldarg_0, .none, 1⟩, ⟨2, .switch, .switch [15, 17], 13⟩,
      ⟨15, .leave_s, .target 26, 2⟩, ⟨17, .leave_s, .target 26, 2⟩, ⟨19, .pop, .none, 1⟩,
      ⟨20, .ldc_i4_1, .none, 1⟩, ⟨21, .endfilter, .none, 2⟩, ⟨23, .pop, .none, 1⟩,
      ⟨24, .leave_s, .target 26, 2⟩, ⟨26, .ret, .none, 1⟩]
  clauses := [⟨.filters 19, 1, 19, 23, 26⟩]
  parameters := [.int32]

/-- The blocks of `filteredSwitch` with their scopes: the guarded scope, the prologue and the
contents of the handler, and the root around them. -/
theorem ofBody_partitions_filteredSwitch :
    filteredSwitch.Ascending ∧ filteredSwitch.Sized ∧
      ∃ g, ofBody filteredSwitch = .ok g ∧ g.Partitions filteredSwitch ∧
        g.nodes.map (fun node => (node.block.offset, node.region)) =
          [(0, 0), (1, 2), (15, 2), (17, 2), (19, 4), (23, 5), (26, 0)] := by
  have hascending : filteredSwitch.Ascending := by decide
  have hsize : filteredSwitch.Sized := by decide
  obtain ⟨g, hg, hnodes⟩ := exists_of_map_eq_ok (r := ofBody filteredSwitch)
    (f := fun g => g.nodes.map fun node => (node.block.offset, node.region))
    (y := [(0, 0), (1, 2), (15, 2), (17, 2), (19, 4), (23, 5), (26, 0)]) (by decide +kernel)
  exact ⟨hascending, hsize, g, hg, ofBody_partitions hascending hsize hg, hnodes⟩

end ControlFlowGraph

end CilAnalysis
