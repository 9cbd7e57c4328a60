import CilAnalysis.ControlFlow.Build
import CilAnalysis.Proofs.Digraph

/-!
# The stages of making a control-flow graph

A method that passes the checks gets its regions, then a vertex for each of its blocks and then its
edges, of which the first between two blocks is kept.

* `ControlFlowGraph.ofBody_eq_bind` writes the whole as one stage after the other, and
  `ControlFlowGraph.ofBody_eq_ok` says what a method that gets a graph has passed on the way.
* `ControlFlowGraph.addBlocks_eq_ok` is the stage of the vertices: there is one for each block, with
  the block and the number of its scope, and there are no edges.
* `ControlFlowGraph.addEdges_eq_ok` is the stage of the edges: it leaves the vertices alone, and
  between two of them there is the edge that was there before, or else the first in the list.

## Strategy

Adding an edge where there is one already is not an error but does nothing, so the kinds of edges
cannot be read off the last addition.  The lemma for one addition is stated as a lookup that falls
back on the new edge (`get?_addEdge`).  Lookups of that form compose by the associativity of
`Option.or`, and the induction on the list of edges has nothing else to do.
-/

namespace CilAnalysis

namespace ControlFlowGraph

/-- Add a vertex for each block, in the scope that the block is placed in. -/
def addBlocks (regions : RegionTree) (blocks : List (BasicBlock Instruction)) :
    Except Error (Digraph (FlowNode Instruction) EdgeKind) :=
  Digraph.empty.insertVertices BasicBlock.offset (placeBlock regions) blocks

/-- Add edges where there are none yet. -/
def addEdges (g : Digraph (FlowNode Instruction) EdgeKind) (edges : List (Arc × EdgeKind)) :
    Except Error (Digraph (FlowNode Instruction) EdgeKind) :=
  edges.foldlM (fun g e => addEdge g e.1.head e.1.tail e.2) g

/-- The edges of a method in the order in which they are added. -/
def edgesOf (blocks : List (BasicBlock Instruction)) (clauses : List Clause) :
    List (Arc × EdgeKind) :=
  flowEdges blocks ++ clauses.flatMap (exceptionEdges blocks)

variable {b : MethodBody}

theorem ofBody_eq_error (h : b.instructions.head? = none) :
    ofBody b = .error .emptyMethodBody := by
  unfold ofBody
  rw [h]
  rfl

theorem ofBody_eq_bind {first : Instruction} (h : b.instructions.head? = some first) :
    ofBody b = do
      b.checkTargets
      b.clauses.forM b.checkClause
      let regions ← b.regions
      let graph ← addBlocks regions b.blocks
      let graph ← addEdges graph (edgesOf b.blocks b.clauses)
      return ⟨graph, regions, first.offset⟩ := by
  unfold ofBody
  rw [h]
  rfl

/-- What a method that gets a graph has passed on the way. -/
theorem ofBody_eq_ok {g : ControlFlowGraph Instruction} (hg : ofBody b = .ok g) :
    ∃ first graph, b.instructions.head? = some first ∧ b.checkTargets = .ok () ∧
      b.clauses.forM b.checkClause = .ok () ∧ b.regions = .ok g.regions ∧
      addBlocks g.regions b.blocks = .ok graph ∧
      addEdges graph (edgesOf b.blocks b.clauses) = .ok g.graph ∧ g.entry = first.offset := by
  cases hfirst : b.instructions.head? with
  | none =>
      rw [ofBody_eq_error hfirst] at hg
      exact nomatch hg
  | some first =>
      rw [ofBody_eq_bind hfirst] at hg
      obtain ⟨_, htargets, hg⟩ := bind_eq_ok hg
      obtain ⟨_, hclauses, hg⟩ := bind_eq_ok hg
      obtain ⟨regions, hregions, hg⟩ := bind_eq_ok hg
      obtain ⟨vertices, hvertices, hg⟩ := bind_eq_ok hg
      obtain ⟨graph, hgraph, hg⟩ := bind_eq_ok hg
      cases hg
      exact ⟨first, vertices, rfl, htargets, hclauses, hregions, hvertices, hgraph, rfl⟩

theorem checkClause_ofBody {g : ControlFlowGraph Instruction} (hg : ofBody b = .ok g) {c : Clause}
    (hc : c ∈ b.clauses) : b.checkClause c = .ok () := by
  obtain ⟨first, graph, -, -, hchecks, -⟩ := ofBody_eq_ok hg
  exact forM_eq_ok hchecks hc

/-! ## What the stages give -/

/-- The node of a block. -/
def nodeOf (regions : RegionTree) (block : BasicBlock Instruction) : FlowNode Instruction :=
  ⟨block, (regions.regionOf? block.offset).getD 0⟩

private theorem placeBlock_eq_ok {regions : RegionTree} {block : BasicBlock Instruction}
    {node : FlowNode Instruction} (h : placeBlock regions block = .ok node) :
    node = nodeOf regions block := by
  unfold placeBlock at h
  split at h
  next region hregion =>
    cases h
    rw [nodeOf, hregion, Option.getD_some]
  next => cases h

theorem addBlocks_eq_ok {regions : RegionTree} {blocks : List (BasicBlock Instruction)}
    {g : Digraph (FlowNode Instruction) EdgeKind} (h : addBlocks regions blocks = .ok g) :
    g.edges = .empty ∧ ∀ v node, g.vertices.get? v = some node ↔
      ∃ block ∈ blocks, block.offset = v ∧ nodeOf regions block = node := by
  obtain ⟨hedges, hvertices⟩ := Digraph.insertVertices_eq_ok h
  -- Every block in the list was placed, and where it was placed is the node it has.
  have hplaced : ∀ block ∈ blocks, ∀ node,
      placeBlock regions block = .ok node ↔ nodeOf regions block = node := by
    intro block hmem node
    obtain ⟨placed, hplaced⟩ := Digraph.exists_value_of_insertVertices h hmem
    rw [hplaced, placeBlock_eq_ok hplaced, Except.ok.injEq]
  refine ⟨hedges, fun v node => ?_⟩
  calc g.vertices.get? v = some node
      ↔ Digraph.empty.vertices.get? v = some node ∨
          ∃ block ∈ blocks, block.offset = v ∧ placeBlock regions block = .ok node :=
        hvertices v node
    _ ↔ ∃ block ∈ blocks, block.offset = v ∧ placeBlock regions block = .ok node :=
        or_iff_right (by simp [Digraph.empty])
    _ ↔ ∃ block ∈ blocks, block.offset = v ∧ nodeOf regions block = node :=
        exists_congr fun block => and_congr_right fun hmem =>
          and_congr_right fun _ => hplaced block hmem node

section Edges

variable {g g' : Digraph (FlowNode Instruction) EdgeKind} {edges : List (Arc × EdgeKind)}

/-- Either there is an edge already, or the new one goes between vertices. -/
theorem addEdge_eq_ok {head tail : Nat} {kind : EdgeKind} (h : addEdge g head tail kind = .ok g') :
    ⟨head, tail⟩ ∈ g.edges ∧ g' = g ∨
      ⟨head, tail⟩ ∉ g.edges ∧ head ∈ g.vertices ∧ tail ∈ g.vertices ∧
        g'.vertices = g.vertices ∧ g'.edges = g.edges.insert ⟨head, tail⟩ kind := by
  unfold addEdge at h
  split at h
  next hold =>
    cases h
    exact .inl ⟨Digraph.hasEdge_iff.mp hold, rfl⟩
  next hnew =>
    exact .inr ⟨fun hmem => hnew (Digraph.hasEdge_iff.mpr hmem), Digraph.insertEdge_eq_ok h⟩

private theorem get?_addEdge {e : Arc × EdgeKind} (h : addEdge g e.1.head e.1.tail e.2 = .ok g')
    (a : Arc) : g'.edges.get? a = (g.edges.get? a).or (if a = e.1 then some e.2 else none) := by
  rcases addEdge_eq_ok h with ⟨hold, rfl⟩ | ⟨hnew, -, -, -, hedges⟩
  · obtain ⟨kind, hkind⟩ := SortedMap.mem_iff_get?.mp hold
    by_cases ha : a = e.1
    · subst ha
      rw [show g'.edges.get? e.1 = some kind from hkind, Option.some_or]
    · rw [if_neg ha, Option.or_none]
  · rw [hedges, SortedMap.get?_insert]
    by_cases ha : a = e.1
    · subst ha
      rw [show g.edges.get? e.1 = none from SortedMap.notMem_iff_get?.mp hnew]
      simp
    · simp [ha]

/-- Of the edges between two blocks the first stays. -/
theorem addEdges_eq_ok (h : addEdges g edges = .ok g') :
    g'.vertices = g.vertices ∧
      ∀ a, g'.edges.get? a = (g.edges.get? a).or (edges.lookup a) := by
  unfold addEdges at h
  induction edges generalizing g with
  | nil =>
      cases h
      simp
  | cons e rest ih =>
      rw [List.foldlM_cons] at h
      obtain ⟨g₁, hg₁, h⟩ := bind_eq_ok h
      obtain ⟨ihvertices, ihedges⟩ := ih h
      have hvertices : g₁.vertices = g.vertices := by
        rcases addEdge_eq_ok hg₁ with ⟨-, rfl⟩ | ⟨-, -, -, hvertices, -⟩
        · rfl
        · exact hvertices
      refine ⟨ihvertices.trans hvertices, fun a => ?_⟩
      have hfirst : (if a = e.1 then some e.2 else none).or (rest.lookup a) =
          (e :: rest).lookup a := by
        rw [List.lookup_cons]
        by_cases ha : a = e.1
        · simp [ha]
        · rw [if_neg ha, beq_false_of_ne ha, Option.none_or]
      calc g'.edges.get? a
          = (g₁.edges.get? a).or (rest.lookup a) := ihedges a
        _ = ((g.edges.get? a).or (if a = e.1 then some e.2 else none)).or (rest.lookup a) := by
            rw [get?_addEdge hg₁]
        _ = (g.edges.get? a).or ((if a = e.1 then some e.2 else none).or (rest.lookup a)) :=
            Option.or_assoc
        _ = (g.edges.get? a).or ((e :: rest).lookup a) := by rw [hfirst]

/-- Edges go between vertices. -/
theorem addEdges_ends (h : addEdges g edges = .ok g')
    (hg : ∀ a ∈ g.edges, a.head ∈ g.vertices ∧ a.tail ∈ g.vertices) :
    ∀ a ∈ g'.edges, a.head ∈ g'.vertices ∧ a.tail ∈ g'.vertices := by
  refine foldlM_induction
    (P := fun g => ∀ a ∈ g.edges, a.head ∈ g.vertices ∧ a.tail ∈ g.vertices) ?_ hg h
  intro e _ g₁ g₂ hg₁ hadd
  rcases addEdge_eq_ok hadd with ⟨-, rfl⟩ | ⟨-, hhead, htail, hvertices, hedges⟩
  · exact hg₁
  · intro a ha
    rw [hvertices]
    rw [hedges, SortedMap.mem_insert] at ha
    rcases ha with rfl | ha
    · exact ⟨hhead, htail⟩
    · exact hg₁ a ha

end Edges

variable {g : ControlFlowGraph Instruction}

/-- The vertices of the graph of a method are its blocks. -/
theorem vertex_ofBody (hg : ofBody b = .ok g) {v : Nat} {node : FlowNode Instruction} :
    g.graph.vertex v = .ok node ↔
      ∃ block ∈ b.blocks, block.offset = v ∧ nodeOf g.regions block = node := by
  obtain ⟨first, graph, -, -, -, -, hblocks, hedges, -⟩ := ofBody_eq_ok hg
  rw [Digraph.vertex_eq_ok, (addEdges_eq_ok hedges).1]
  exact (addBlocks_eq_ok hblocks).2 v node

theorem edge_ofBody (hg : ofBody b = .ok g) {head tail : Nat} {kind : EdgeKind} :
    g.graph.edge head tail = .ok kind ↔
      (edgesOf b.blocks b.clauses).lookup ⟨head, tail⟩ = some kind := by
  obtain ⟨first, graph, -, -, -, -, hblocks, hedges, -⟩ := ofBody_eq_ok hg
  rw [Digraph.edge_eq_ok, (addEdges_eq_ok hedges).2, (addBlocks_eq_ok hblocks).1]
  rfl

end ControlFlowGraph

end CilAnalysis
