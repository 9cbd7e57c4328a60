import CilAnalysis.Proofs.ControlFlow.Partition
import CilAnalysis.Proofs.Digraph.Rebuild

/-!
# Changing the contents of blocks

A transform makes a graph anew from its changed nodes and its edges.  For the graph of a method this
is the same as changing the contents of each block in place (`ControlFlowGraph.Image`).

`ControlFlowGraph.transform_functorial` collects the laws: changing nothing gives the same graph,
two changes made one after the other are one, and a change that is refused is refused for the first
block whose contents are.

## Strategy

The laws do not look at how the graph is made anew.  They follow from two equivalences, one for each
outcome, which hold of well-numbered graphs:

* `transform_eq_ok_iff`: a transform gives a graph exactly if that graph is the image.  There is one
  image at most (`ControlFlowGraph.Image.unique`), since its shape is that of the graph and its
  contents are given.
* `transform_eq_error_iff`: a transform fails exactly if contents are refused, with the error of the
  first block for which they are.

Images are well numbered again and compose, so two transforms in a row are compared with one by
cases on their outcomes.  Errors compose only if the first change succeeds everywhere: otherwise the
composition may fail at an earlier block with the error of the second change, while the first
transform is refused at a later one.
-/

namespace CilAnalysis

open SortedMap

/-- Graphs of the same shape are consistent together. -/
theorem Digraph.SameShape.consistent {α β γ : Type} {g : Digraph α β} {h : Digraph γ β}
    (hshape : g.SameShape h) (hg : g.Consistent) : h.Consistent where
  successor_iff := by rw [← hshape.successors, ← hshape.edges]; exact hg.successor_iff
  predecessor_iff := by rw [← hshape.predecessors, ← hshape.edges]; exact hg.predecessor_iff
  successor_keys := by rw [← hshape.successors, ← hshape.keys, hg.successor_keys]
  predecessor_keys := by rw [← hshape.predecessors, ← hshape.keys, hg.predecessor_keys]
  ends := by
    intro arc harc
    rw [← hshape.edges] at harc
    rw [mem_def, mem_def, ← hshape.keys]
    exact hg.ends arc harc

private theorem Digraph.SameShape.exists_vertex {α β γ : Type} {g : Digraph α β} {h : Digraph γ β}
    (hshape : g.SameShape h) {v : Nat} {c : γ} (hv : h.vertex v = .ok c) :
    ∃ a, g.vertex v = .ok a := by
  have hmem : v ∈ h.vertices := mem_iff_get?.mpr ⟨c, Digraph.vertex_eq_ok.mp hv⟩
  rw [mem_def, ← hshape.keys] at hmem
  obtain ⟨a, ha⟩ := mem_iff_get?.mp (mem_def.mpr hmem)
  exact ⟨a, Digraph.vertex_eq_ok.mpr ha⟩

private theorem FlowNode.mapM_eq_ok {ι κ : Type} {f : List ι → Except Error (List κ)}
    {node : FlowNode ι} {found : FlowNode κ} :
    node.mapM f = .ok found ↔ ∃ contents, f node.block.instructions = .ok contents ∧
      found = ⟨⟨node.block.offset, contents⟩, node.region⟩ := by
  unfold FlowNode.mapM
  cases f node.block.instructions <;> simp [bind, Except.bind, pure, Except.pure, eq_comm]

private theorem FlowNode.mapM_eq_error {ι κ : Type} {f : List ι → Except Error (List κ)}
    {node : FlowNode ι} {e : Error} :
    node.mapM f = .error e ↔ f node.block.instructions = .error e := by
  unfold FlowNode.mapM
  cases f node.block.instructions <;> simp [bind, Except.bind, pure, Except.pure]

namespace ControlFlowGraph

variable {ι κ μ : Type}

/-! ## Graphs that can be made anew -/

/-- A graph with consistent neighbours whose vertices are numbered by the offsets of their
blocks. -/
structure WellNumbered (g : ControlFlowGraph ι) : Prop where
  consistent : g.graph.Consistent
  offset : ∀ {v : Nat} {node : FlowNode ι}, g.graph.vertex v = .ok node → node.block.offset = v

private theorem wellNumbered_ofBody {b : MethodBody} {g : ControlFlowGraph Instruction}
    (hg : ofBody b = .ok g) : g.WellNumbered := by
  obtain ⟨first, graph, -, -, -, -, hblocks, hedges, -⟩ := ofBody_eq_ok hg
  constructor
  · have hvertices : graph.Consistent := Digraph.consistent_empty.insertVertices hblocks
    refine foldlM_induction (P := Digraph.Consistent) ?_ hvertices hedges
    intro e _ g₁ g₂ hg₁ hadd
    unfold addEdge at hadd
    split at hadd
    next =>
      cases hadd
      exact hg₁
    next => exact hg₁.insertEdge hadd
  · intro v node hnode
    obtain ⟨block, -, hoffset, rfl⟩ := (vertex_ofBody hg).mp hnode
    exact hoffset

namespace WellNumbered

variable {g : ControlFlowGraph ι}

theorem mem_nodes (hg : g.WellNumbered) {node : FlowNode ι} :
    node ∈ g.nodes ↔ g.graph.vertex node.block.offset = .ok node := by
  rw [Digraph.vertex_eq_ok, get?_eq_some_iff]
  constructor
  · intro hmem
    obtain ⟨⟨v, found⟩, hentry, rfl⟩ := List.mem_map.mp hmem
    have hv := hg.offset (Digraph.vertex_eq_ok.mpr (get?_of_mem_entries hentry))
    rw [hv]
    exact hentry
  · intro hentry
    exact List.mem_map.mpr ⟨_, hentry, rfl⟩

private theorem offsets_nodes (hg : g.WellNumbered) :
    g.nodes.map (·.block.offset) = g.graph.vertices.keys := by
  unfold nodes values keys
  rw [List.map_map]
  refine List.map_congr_left fun e he => ?_
  exact hg.offset (Digraph.vertex_eq_ok.mpr (get?_of_mem_entries he))

private theorem ascending_nodes (hg : g.WellNumbered) :
    g.nodes.Pairwise fun node later => node.block.offset < later.block.offset := by
  have hsorted : g.graph.vertices.keys.Pairwise fun v w => compare v w = .lt :=
    List.pairwise_map.mpr g.graph.vertices.sorted
  rw [← hg.offsets_nodes, List.pairwise_map] at hsorted
  exact hsorted.imp Nat.compare_eq_lt.mp

end WellNumbered

/-! ## Images -/

/-- The second graph is the first with the contents of each block changed. -/
structure Image (f : List ι → Except Error (List κ)) (g : ControlFlowGraph ι)
    (h : ControlFlowGraph κ) : Prop where
  shape : g.graph.SameShape h.graph
  regions : h.regions = g.regions
  entry : h.entry = g.entry
  node : ∀ v node, g.graph.vertex v = .ok node → ∃ contents,
    f node.block.instructions = .ok contents ∧
      h.graph.vertex v = .ok ⟨⟨node.block.offset, contents⟩, node.region⟩

/-- Contents cannot be changed: those of the block at some offset are refused, and those of the
blocks before it are not. -/
def FailsFirst (f : List ι → Except Error (List κ)) (g : ControlFlowGraph ι) (e : Error) : Prop :=
  ∃ v node, g.graph.vertex v = .ok node ∧ f node.block.instructions = .error e ∧
    ∀ w < v, ∀ earlier, g.graph.vertex w = .ok earlier →
      ∃ contents, f earlier.block.instructions = .ok contents

namespace Image

variable {f : List ι → Except Error (List κ)} {g : ControlFlowGraph ι} {h : ControlFlowGraph κ}

theorem refl (g : ControlFlowGraph ι) : Image .ok g g where
  shape := ⟨rfl, rfl, rfl, rfl⟩
  regions := rfl
  entry := rfl
  node := fun _ node hnode => ⟨node.block.instructions, rfl, hnode⟩

/-- The nodes of an image are those of the graph with their contents changed. -/
theorem exists_node (hi : Image f g h) {v : Nat} {found : FlowNode κ}
    (hfound : h.graph.vertex v = .ok found) :
    ∃ node contents, g.graph.vertex v = .ok node ∧ f node.block.instructions = .ok contents ∧
      found = ⟨⟨node.block.offset, contents⟩, node.region⟩ := by
  obtain ⟨node, hnode⟩ := hi.shape.exists_vertex hfound
  obtain ⟨contents, hcontents, himage⟩ := hi.node v node hnode
  rw [himage] at hfound
  exact ⟨node, contents, hnode, hcontents, (Except.ok.inj hfound).symm⟩

theorem unique (hi : Image f g h) {h' : ControlFlowGraph κ} (hi' : Image f g h') : h = h' := by
  -- The contents at each vertex are determined, and the rest is that of `g`.
  have hvertices : h.graph.vertices = h'.graph.vertices := by
    refine ext_get? fun v => ?_
    cases hv : g.graph.vertices.get? v with
    | none =>
        have hnone : ∀ {k : ControlFlowGraph κ}, Image f g k → k.graph.vertices.get? v = none := by
          intro k hk
          rw [← notMem_iff_get?, mem_def] at hv ⊢
          rwa [← hk.shape.keys]
        rw [hnone hi, hnone hi']
    | some node =>
        obtain ⟨contents, hcontents, hnode⟩ := hi.node v node (Digraph.vertex_eq_ok.mpr hv)
        obtain ⟨contents', hcontents', hnode'⟩ := hi'.node v node (Digraph.vertex_eq_ok.mpr hv)
        rw [hcontents, Except.ok.injEq] at hcontents'
        rw [Digraph.vertex_eq_ok.mp hnode, Digraph.vertex_eq_ok.mp hnode', hcontents']
  obtain ⟨⟨vertices, edges, successors, predecessors⟩, regions, entry⟩ := h
  obtain ⟨⟨vertices', edges', successors', predecessors'⟩, regions', entry'⟩ := h'
  obtain ⟨⟨-, hedges, hsuccessors, hpredecessors⟩, hregions, hentry, -⟩ := hi
  obtain ⟨⟨-, hedges', hsuccessors', hpredecessors'⟩, hregions', hentry', -⟩ := hi'
  simp_all

private theorem wellNumbered (hi : Image f g h) (hg : g.WellNumbered) : h.WellNumbered where
  consistent := hi.shape.consistent hg.consistent
  offset := by
    intro v found hfound
    obtain ⟨node, contents, hnode, -, rfl⟩ := hi.exists_node hfound
    exact hg.offset hnode

variable {f' : List κ → Except Error (List μ)}

private theorem comp (hi : Image f g h) {k : ControlFlowGraph μ} (hi' : Image f' h k) :
    Image (f >=> f') g k where
  shape := {
    keys := hi.shape.keys.trans hi'.shape.keys
    edges := hi.shape.edges.trans hi'.shape.edges
    successors := hi.shape.successors.trans hi'.shape.successors
    predecessors := hi.shape.predecessors.trans hi'.shape.predecessors }
  regions := hi'.regions.trans hi.regions
  entry := hi'.entry.trans hi.entry
  node := by
    intro v node hnode
    obtain ⟨contents, hcontents, hmid⟩ := hi.node v node hnode
    obtain ⟨contents', hcontents', hlast⟩ := hi'.node v _ hmid
    refine ⟨contents', ?_, hlast⟩
    show f node.block.instructions >>= f' = .ok contents'
    rw [hcontents]
    exact hcontents'

/-- Where the contents in an image are first refused, those that they come from are. -/
theorem failsFirst (hi : Image f g h) {e : Error} (he : FailsFirst f' h e) :
    FailsFirst (f >=> f') g e := by
  obtain ⟨v, found, hfound, hrefused, hearlier⟩ := he
  obtain ⟨node, contents, hnode, hcontents, rfl⟩ := hi.exists_node hfound
  refine ⟨v, node, hnode, ?_, fun w hw earlier hw' => ?_⟩
  · show f node.block.instructions >>= f' = .error e
    rw [hcontents]
    exact hrefused
  · obtain ⟨before, hbefore, himage⟩ := hi.node w earlier hw'
    obtain ⟨after, hafter⟩ := hearlier w hw _ himage
    refine ⟨after, ?_⟩
    show f earlier.block.instructions >>= f' = .ok after
    rw [hbefore]
    exact hafter

end Image

/-! ## A transform gives the image -/

section Transform

variable {f : List ι → Except Error (List κ)} {g : ControlFlowGraph ι}

/-- When all contents could be changed, the edges are accepted as well. -/
theorem exists_image (hg : g.WellNumbered) {graph : Digraph (FlowNode κ) EdgeKind}
    (hnodes : Digraph.empty.insertVertices (·.block.offset) (FlowNode.mapM f) g.nodes = .ok graph) :
    ∃ h, g.transform f = .ok h ∧ Image f g h := by
  obtain ⟨hbare, hvertices⟩ := Digraph.insertVertices_eq_ok hnodes
  -- The new vertices are the old ones with their contents changed, under the same numbers.
  have hnode : ∀ v node, g.graph.vertex v = .ok node → ∃ contents,
      f node.block.instructions = .ok contents ∧
        graph.vertices.get? v = some ⟨⟨node.block.offset, contents⟩, node.region⟩ := by
    intro v node hv
    have hoffset := hg.offset hv
    have hmem : node ∈ g.nodes := hg.mem_nodes.mpr (hoffset.symm ▸ hv)
    obtain ⟨found, hfound⟩ := Digraph.exists_value_of_insertVertices hnodes hmem
    obtain ⟨contents, hcontents, rfl⟩ := FlowNode.mapM_eq_ok.mp hfound
    exact ⟨contents, hcontents, (hvertices _ _).mpr (.inr ⟨node, hmem, hoffset, hfound⟩)⟩
  have hkeys : g.graph.vertices.keys = graph.vertices.keys := by
    refine keys_congr fun v => ⟨fun hv => ?_, fun hv => ?_⟩
    · obtain ⟨node, hv⟩ := mem_iff_get?.mp hv
      obtain ⟨contents, -, hfound⟩ := hnode v node (Digraph.vertex_eq_ok.mpr hv)
      exact mem_iff_get?.mpr ⟨_, hfound⟩
    · obtain ⟨found, hv⟩ := mem_iff_get?.mp hv
      rcases (hvertices v found).mp hv with hnone | ⟨node, hmem, rfl, -⟩
      · exact absurd hnone (by simp [Digraph.empty])
      · exact mem_iff_get?.mpr ⟨node, Digraph.vertex_eq_ok.mp (hg.mem_nodes.mp hmem)⟩
  -- So every edge finds its vertices, and none is there yet.
  obtain ⟨graph', hrun, hsame, hfound⟩ := Digraph.insertEdges_total (g := graph)
    g.graph.edges.nodup_keys
    (fun e _ => by simp [hbare, Digraph.empty])
    (fun e he => by
      rw [mem_def, mem_def, ← hkeys]
      exact hg.consistent.ends e.1 (List.mem_map_of_mem he))
  have hedges : g.graph.edges = graph'.edges := by
    refine ext_get? fun arc => Option.ext fun kind => ?_
    rw [hfound, hbare, get?_eq_some_iff]
    exact (or_iff_right (by simp [Digraph.empty])).symm
  have hconsistent : graph'.Consistent :=
    (Digraph.consistent_empty.insertVertices hnodes).insertEdges hrun
  refine ⟨⟨graph', g.regions, g.entry⟩, ?_, ?_⟩
  · unfold transform
    rw [hnodes]
    show graph.insertEdges g.graph.edges.entries >>= _ = _
    rw [hrun]
    rfl
  · refine ⟨?_, rfl, rfl, fun v node hv => ?_⟩
    · exact hg.consistent.sameShape hconsistent (hkeys.trans (congrArg _ hsame.symm)) hedges
    · obtain ⟨contents, hcontents, hget⟩ := hnode v node hv
      exact ⟨contents, hcontents, Digraph.vertex_eq_ok.mpr (hsame ▸ hget)⟩

private theorem transform_eq_error_iff (hg : g.WellNumbered) {e : Error} :
    g.transform f = .error e ↔ FailsFirst f g e := by
  have hnew : ∀ node ∈ g.nodes, node.block.offset ∉ (Digraph.empty (α := FlowNode κ)
      (β := EdgeKind)).vertices := fun _ _ => notMem_empty _
  have hvertices : g.transform f = .error e ↔
      (Digraph.empty (β := EdgeKind)).insertVertices (·.block.offset) (FlowNode.mapM f) g.nodes =
        .error e := by
    cases hnodes : Digraph.empty.insertVertices (·.block.offset) (FlowNode.mapM f) g.nodes with
    | error e' => simp [transform, hnodes, bind, Except.bind]
    | ok graph =>
        obtain ⟨h, hrun, -⟩ := exists_image hg hnodes
        simp [hrun]
  have hok : ∀ node : FlowNode ι, (∃ found, node.mapM f = .ok found) ↔
      ∃ contents, f node.block.instructions = .ok contents := by
    intro node
    simp only [FlowNode.mapM_eq_ok]
    exact ⟨fun ⟨_, contents, hcontents, _⟩ => ⟨contents, hcontents⟩,
      fun ⟨contents, hcontents⟩ => ⟨_, contents, hcontents, rfl⟩⟩
  calc g.transform f = .error e
      ↔ (Digraph.empty (β := EdgeKind)).insertVertices (·.block.offset) (FlowNode.mapM f) g.nodes =
          .error e := hvertices
    _ ↔ ∃ node ∈ g.nodes, node.mapM f = .error e ∧ ∀ earlier ∈ g.nodes,
          earlier.block.offset < node.block.offset → ∃ found, earlier.mapM f = .ok found :=
        Digraph.insertVertices_eq_error hg.ascending_nodes hnew
    _ ↔ ∃ node ∈ g.nodes, f node.block.instructions = .error e ∧ ∀ earlier ∈ g.nodes,
          earlier.block.offset < node.block.offset →
            ∃ contents, f earlier.block.instructions = .ok contents := by
        simp only [hok, FlowNode.mapM_eq_error]
    _ ↔ FailsFirst f g e := by
        -- Vertices are numbered by the offsets of their blocks.
        constructor
        · rintro ⟨node, hmem, hrefused, hbefore⟩
          refine ⟨node.block.offset, node, hg.mem_nodes.mp hmem, hrefused, ?_⟩
          intro w hw earlier hearlier
          obtain rfl := hg.offset hearlier
          exact hbefore earlier (hg.mem_nodes.mpr hearlier) hw
        · rintro ⟨v, node, hnode, hrefused, hbefore⟩
          obtain rfl := hg.offset hnode
          refine ⟨node, hg.mem_nodes.mpr hnode, hrefused, fun earlier hmem hlt => ?_⟩
          exact hbefore _ hlt earlier (hg.mem_nodes.mp hmem)

private theorem transform_eq_ok_iff (hg : g.WellNumbered) {h : ControlFlowGraph κ} :
    g.transform f = .ok h ↔ Image f g h := by
  have himage : ∀ {h'}, g.transform f = .ok h' → Image f g h' := by
    intro h' hrun
    obtain ⟨graph, hnodes, -⟩ := bind_eq_ok hrun
    obtain ⟨h'', hrun', hi⟩ := exists_image hg hnodes
    rwa [Except.ok.inj (hrun.symm.trans hrun')]
  refine ⟨himage, fun hi => ?_⟩
  cases hrun : g.transform f with
  | ok h' => rw [(himage hrun).unique hi]
  | error e =>
      obtain ⟨v, node, hnode, hrefused, -⟩ := (transform_eq_error_iff hg).mp hrun
      obtain ⟨contents, hcontents, -⟩ := hi.node v node hnode
      cases hrefused.symm.trans hcontents

/-- Two changes that are made one after the other are one, also if the second is refused. -/
theorem transform_bind_transform (hg : g.WellNumbered) (f' : List κ → Except Error (List μ))
    (htotal : ∀ v node, g.graph.vertex v = .ok node →
      ∃ contents, f node.block.instructions = .ok contents) :
    (g.transform f >>= fun h => h.transform f') = g.transform (f >=> f') := by
  cases hrun : g.transform f with
  | error e =>
      obtain ⟨v, node, hnode, hrefused, -⟩ := (transform_eq_error_iff hg).mp hrun
      obtain ⟨contents, hcontents⟩ := htotal v node hnode
      cases hrefused.symm.trans hcontents
  | ok h =>
      have hi := (transform_eq_ok_iff hg).mp hrun
      have hh := hi.wellNumbered hg
      show h.transform f' = _
      cases hrun' : h.transform f' with
      | error e =>
          have he := hi.failsFirst ((transform_eq_error_iff hh).mp hrun')
          exact ((transform_eq_error_iff hg).mpr he).symm
      | ok k =>
          have hk := hi.comp ((transform_eq_ok_iff hh).mp hrun')
          exact ((transform_eq_ok_iff hg).mpr hk).symm

end Transform

/-! ## Transforms of the graph of a method -/

/-- The laws of transforms at a graph: nothing changes under the identity, a graph that is given
back is the image, two changes in a row are one, and a failure is that of the first block whose
contents are refused. -/
structure Functorial (g : ControlFlowGraph ι) : Prop where
  identity : g.transform .ok = .ok g
  image : ∀ {κ : Type} (f : List ι → Except Error (List κ)) h,
    g.transform f = .ok h ↔ Image f g h
  composition : ∀ {κ μ : Type} (f : List ι → Except Error (List κ))
    (f' : List κ → Except Error (List μ)) k,
    (g.transform f >>= fun h => h.transform f') = .ok k ↔ g.transform (f >=> f') = .ok k
  composition_of_total : ∀ {κ μ : Type} (f : List ι → Except Error (List κ))
    (f' : List κ → Except Error (List μ)),
    (∀ v node, g.graph.vertex v = .ok node →
      ∃ contents, f node.block.instructions = .ok contents) →
    (g.transform f >>= fun h => h.transform f') = g.transform (f >=> f')
  failure : ∀ {κ : Type} (f : List ι → Except Error (List κ)) e,
    g.transform f = .error e ↔ FailsFirst f g e

theorem transform_functorial {b : MethodBody} {g : ControlFlowGraph Instruction}
    (hbody : ofBody b = .ok g) : g.Functorial := by
  have hg := wellNumbered_ofBody hbody
  refine ⟨?_, fun f h => ?_, fun f f' k => ⟨fun hrun => ?_, fun hrun => ?_⟩, fun f f' htotal => ?_,
    fun f e => ?_⟩
  · exact (transform_eq_ok_iff hg).mpr (.refl g)
  · exact transform_eq_ok_iff hg
  · obtain ⟨h, hfirst, hsecond⟩ := bind_eq_ok hrun
    have hi := (transform_eq_ok_iff hg).mp hfirst
    have hi' := (transform_eq_ok_iff (hi.wellNumbered hg)).mp hsecond
    exact (transform_eq_ok_iff hg).mpr (hi.comp hi')
  · -- If the composition can be applied to all contents, so can the first change.
    rw [transform_bind_transform hg f', hrun]
    intro v node hnode
    obtain ⟨contents', hboth, -⟩ := ((transform_eq_ok_iff hg).mp hrun).node v node hnode
    obtain ⟨contents, hcontents, -⟩ := bind_eq_ok hboth
    exact ⟨contents, hcontents⟩
  · exact transform_bind_transform hg f' htotal
  · exact transform_eq_error_iff hg

/-- The offsets of short blocks; others are refused with their length. -/
def shortOffsets (is : List Instruction) : Except Error (List Nat) :=
  if is.length ≤ 1 then .ok (is.map Instruction.offset)
  else .error (.custom (toString is.length ++ " instructions"))

/-- In `filteredSwitch` the blocks at 1, 19 and 23 are long, and that at 1 is the one refused. -/
theorem transform_functorial_filteredSwitch :
    ∃ g, ofBody filteredSwitch = .ok g ∧ g.Functorial ∧
      g.nodes.map (fun node => (node.block.offset, node.block.instructions.length)) =
        [(0, 1), (1, 2), (15, 1), (17, 1), (19, 3), (23, 2), (26, 1)] ∧
      g.transform shortOffsets = .error (.custom "2 instructions") := by
  obtain ⟨g, hg, hseen⟩ := exists_of_map_eq_ok (r := ofBody filteredSwitch)
    (f := fun g =>
      (g.nodes.map (fun node => (node.block.offset, node.block.instructions.length)),
        g.transform shortOffsets))
    (y := ([(0, 1), (1, 2), (15, 1), (17, 1), (19, 3), (23, 2), (26, 1)],
      .error (.custom "2 instructions"))) (by decide +kernel)
  obtain ⟨hnodes, hrefused⟩ := Prod.mk.inj hseen
  exact ⟨g, hg, transform_functorial hg, hnodes, hrefused⟩

end ControlFlowGraph

end CilAnalysis
