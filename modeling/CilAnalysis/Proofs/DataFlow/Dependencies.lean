import CilAnalysis.Proofs.DataFlow.MergeOverPaths
import CilAnalysis.Proofs.DataFlow.Slices

/-!
# The order of dependencies

Following dependencies from a node of the graph of a method never leads out of the graph: an
instruction becomes a source when it is visited, and the visit makes its node.  This is kept by
every visit (`FlowProgress.Sourced.visit`).  So the search always succeeds, and its result is the
order in which a recursive depth-first search along the dependencies finishes the nodes
(`DataFlowGraph.ofBody_postOrder`).

`DataFlowGraph.PostOrder` spells out what this means.

## Strategy

* *Sources are nodes.*  The invariant is about states and nodes together: all sources in them are
  nodes that were made already.  A visit writes its own node before it passes anything on, and from
  there on the nodes stay the same, so that everything that is passed on has its sources among them.
* *The search.*  It runs with a stack of its own, and the general theory of such searches says that
  it is the recursive one (`DepthFirst.Explores`).  What is left is to show that every node has its
  dependencies listed, so that no step fails (`DataFlowGraph.exists_explores_dependencies`).
* *The order in which dependencies are followed.*  Sources are kept in a sorted set and compared by
  graph, node and slot.  In the graph of a method they are all of one graph, so that the nodes
  ascend (`lists_keys`).
-/

namespace CilAnalysis

open DepthFirst Relation SortedMap

/-! ## Sources are nodes -/

/-- The source that a fact is about. -/
def FlowFact.source? : FlowFact → Option DataSource
  | .slot _ source | .writer _ source => some source
  | .written _ => none

/-- A source is one of the nodes of a graph. -/
structure DataSource.IsOf (source : DataSource) (graph : Nat) (nodes : SortedMap Nat DataFlowNode) :
    Prop where
  graph : source.graph = graph
  node : source.node ∈ nodes

/-- The sources in a state are nodes. -/
def FlowState.Sourced (s : FlowState) (graph : Nat) (nodes : SortedMap Nat DataFlowNode) : Prop :=
  ∀ f, s.Has f → ∀ source ∈ f.source?, source.IsOf graph nodes

/-- The sources of what a node takes and reads are nodes. -/
structure DataFlowNode.Sourced (n : DataFlowNode) (graph : Nat)
    (nodes : SortedMap Nat DataFlowNode) : Prop where
  stack : ∀ d ∈ n.stack.items, ∀ source ∈ d.sources, source.IsOf graph nodes
  byVariable : ∀ v sources, n.byVariable.get? v = some sources →
    ∀ source ∈ sources, source.IsOf graph nodes

theorem FlowState.Sourced.mono {s : FlowState} {graph : Nat}
    {nodes nodes' : SortedMap Nat DataFlowNode} (hs : s.Sourced graph nodes)
    (hnodes : ∀ v ∈ nodes, v ∈ nodes') : s.Sourced graph nodes' := by
  intro f hf source hsource
  obtain ⟨hgraph, hnode⟩ := hs f hf source hsource
  exact ⟨hgraph, hnodes _ hnode⟩

theorem DataFlowNode.Sourced.mono {n : DataFlowNode} {graph : Nat}
    {nodes nodes' : SortedMap Nat DataFlowNode} (hn : n.Sourced graph nodes)
    (hnodes : ∀ v ∈ nodes, v ∈ nodes') : n.Sourced graph nodes' where
  stack := fun d hd source hsource =>
    have h := hn.stack d hd source hsource
    ⟨h.graph, hnodes _ h.node⟩
  byVariable := fun v sources hv source hsource =>
    have h := hn.byVariable v sources hv source hsource
    ⟨h.graph, hnodes _ h.node⟩

namespace Instruction

variable {i : Instruction} {graph pops : Nat} {nodes : SortedMap Nat DataFlowNode} {s : FlowState}

/-- An instruction that has a node adds no other source than itself. -/
theorem flow_sourced (hs : s.Sourced graph nodes) (hi : i.offset ∈ nodes) :
    (i.flow graph pops s).Sourced graph nodes := by
  intro f hf source hsource
  have hcarry := flow_has.mp hf
  cases f with
  | slot depth source' =>
      cases hsource
      simp only [carry] at hcarry
      split at hcarry
      next =>
        subst hcarry
        exact ⟨rfl, hi⟩
      next => exact hs _ hcarry.2 source rfl
  | writer v source' =>
      cases hsource
      simp only [carry] at hcarry
      split at hcarry
      next =>
        subst hcarry
        exact ⟨rfl, hi⟩
      next => exact hs _ hcarry source rfl
  | written v => cases hsource

private theorem flowNode_sourced (hs : s.Sourced graph nodes) (hpops : pops ≤ s.stack.length) :
    (i.flowNode graph pops s).Sourced graph nodes where
  stack := by
    intro d hd source hsource
    obtain ⟨k, hk⟩ := List.mem_iff_getElem?.mp hd
    exact hs _ ((mem_flowNode_items hpops hk).mp hsource) source rfl
  byVariable := by
    intro v sources hv source hsource
    exact hs _ ((mem_flowNode_byVariable hv).mp hsource) source rfl

end Instruction

namespace FlowProgress

/-- All sources are nodes that were made already. -/
structure Sourced (graph : Nat) (x : FlowProgress) : Prop where
  states : ∀ place s, x.states.get? place = some s → s.Sourced graph x.nodes
  nodes : ∀ offset n, x.nodes.get? offset = some n → n.Sourced graph x.nodes

variable {graph : Nat} {x y : FlowProgress}

theorem Sourced.put (hx : Sourced graph x) {place : Nat} {s : FlowState}
    (hs : s.Sourced graph x.nodes) : Sourced graph (x.put place s) where
  states := by
    intro q t ht
    unfold FlowProgress.put at ht
    rw [get?_insert] at ht
    split at ht
    next =>
      cases ht
      exact hs
    next => exact hx.states q t ht
  nodes := hx.nodes

theorem Sourced.grow (hx : Sourced graph x) {place : Nat} {old new : FlowState}
    (hnew : new.Sourced graph x.nodes) : Sourced graph (FlowProblem.grow x place old new) := by
  unfold FlowProblem.grow
  split
  next => exact hx
  next => exact hx.put hnew

theorem Sourced.propagate (hx : Sourced graph x) {p : FlowProblem} {place : Nat} {s : FlowState}
    (hs : s.Sourced graph x.nodes) (hrun : p.propagate s x place = .ok y) : Sourced graph y := by
  unfold FlowProblem.propagate at hrun
  split at hrun
  next old i hold _ =>
    obtain ⟨new, hmerge, hrun⟩ := bind_eq_ok hrun
    cases hrun
    obtain ⟨-, -, hfacts⟩ := FlowState.merge_has hmerge
    refine hx.grow fun f hf => ?_
    exact ((hfacts f).mp hf).elim (hx.states place old hold f) (hs f)
  next =>
    cases hrun
    exact hx.put hs

theorem Sourced.propagateVariables (hx : Sourced graph x) {before after : FlowState}
    (hbefore : before.Sourced graph x.nodes) (hafter : after.Sourced graph x.nodes) (place : Nat) :
    Sourced graph (FlowProblem.propagateVariables before after x place) := by
  unfold FlowProblem.propagateVariables
  cases hold : x.states.get? place with
  | none => exact hx
  | some old =>
      refine hx.grow fun f hf => ?_
      have hfacts := (FlowState.has_mergeVariables (s := { old with
        byVariable := FlowState.mergeVariables old.byVariable before.byVariable })).mp hf
      rw [FlowState.has_mergeVariables] at hfacts
      rcases hfacts with (hf | ⟨-, hf⟩) | ⟨-, hf⟩
      · exact hx.states place old hold f hf
      · exact hbefore f hf
      · exact hafter f hf

/-- A visit makes the node of its instruction before anything can have it as a source. -/
theorem Sourced.visit {p : FlowProblem} (hx : Sourced p.graph x) {place : Nat}
    (hrun : p.visit x place = .ok y) : Sourced p.graph y := by
  rcases FlowProblem.visit_eq_ok hrun with
    ⟨-, rfl⟩ | ⟨i, before, z, targets, -, hbefore, hpops, hz, -, hy⟩
  · exact hx
  · set pops := i.popCount p.returnsValue
    set nodes := x.nodes.insert i.offset (i.flowNode p.graph pops before) with hnodes
    have hmore : ∀ v ∈ x.nodes, v ∈ nodes := fun v hv => mem_insert.mpr (Or.inr hv)
    have hown : i.offset ∈ nodes := mem_insert.mpr (Or.inl rfl)
    have hsbefore := (hx.states place before hbefore).mono hmore
    have hsafter : (i.flow p.graph pops before).Sourced p.graph nodes :=
      Instruction.flow_sourced hsbefore hown
    have hstart : Sourced p.graph { x with nodes } :=
      { states := fun q s hs => (hx.states q s hs).mono hmore
        nodes := by
          intro offset n hn
          rw [hnodes, get?_insert] at hn
          split at hn
          next =>
            cases hn
            exact Instruction.flowNode_sourced hsbefore hpops
          next => exact (hx.nodes offset n hn).mono hmore }
    -- From here on the nodes stay the same, and all that is passed on has its sources among them.
    have hhandlers : Sourced p.graph z ∧ z.nodes = nodes := by
      refine foldlM_induction (P := fun w => Sourced p.graph w ∧ w.nodes = nodes) ?_
        ⟨hstart, rfl⟩ hz
      intro c _ w w' hw hstep
      obtain ⟨places, -, hstep⟩ := bind_eq_ok hstep
      cases hstep
      refine List.foldlRecOn (motive := fun w => Sourced p.graph w ∧ w.nodes = nodes) places _ hw ?_
      intro w hw q _
      exact ⟨hw.1.propagateVariables (hw.2 ▸ hsbefore) (hw.2 ▸ hsafter) q,
        (FlowProblem.propagateVariables_nodes before _ w q).trans hw.2⟩
    refine (foldlM_induction (P := fun w => Sourced p.graph w ∧ w.nodes = nodes) ?_
      hhandlers hy).1
    intro q _ w w' hw hstep
    exact ⟨hw.1.propagate (hw.2 ▸ hsafter) hstep,
      (FlowProblem.propagate_nodes hstep).trans hw.2⟩

theorem Sourced.visitAll {p : FlowProblem} {visits : Nat} (hx : Sourced p.graph x)
    (hrun : p.visitAll visits x = .ok y) : Sourced p.graph y :=
  FlowProblem.visitAll_induction (fun x _ place hx hz =>
    have hdequeued : Sourced p.graph (x.dequeue place) := ⟨hx.states, hx.nodes⟩
    hdequeued.visit hz) hx hrun

private theorem sourced_start {p : FlowProblem} (hstart : p.start = .ok x) : Sourced p.graph x := by
  have hheight : ∀ (height : Nat) (nodes : SortedMap Nat DataFlowNode),
      (FlowState.ofHeight height).Sourced p.graph nodes := fun height nodes f hf =>
    absurd hf (FlowState.not_has_ofHeight height f)
  have hempty : Sourced p.graph ⟨.empty, .empty, .empty⟩ :=
    { states := by
        intro _ _ hs
        cases hs
      nodes := by
        intro _ _ hn
        cases hn }
  refine FlowProblem.start_induction (P := fun _ z => Sourced p.graph z)
    (hempty.put (hheight 0 _)) ?_ hstart
  intro _ c z places hz _
  exact List.foldlRecOn places _ hz fun w hw q _ => hw.put (hheight _ _)

end FlowProgress

namespace DataFlowGraph

variable {b : MethodBody} {id : Nat} {g : DataFlowGraph} {kinds : DependencyKinds} {root : Nat}

/-- In the graph of a method all sources are nodes. -/
theorem ofBody_sourced (hg : ofBody b id = .ok g) :
    ∀ v n, g.nodes.get? v = some n → n.Sourced g.id g.nodes := by
  unfold ofBody at hg
  by_cases hempty : b.instructions.isEmpty
  · rw [if_pos hempty] at hg
    cases hg
  · rw [if_neg hempty] at hg
    obtain ⟨x₀, hstart, hg⟩ := bind_eq_ok hg
    obtain ⟨x, hx, hg⟩ := bind_eq_ok hg
    cases hg
    have hsourced := (FlowProgress.sourced_start hstart).visitAll hx
    exact hsourced.nodes

/-! ## Direct dependencies -/

/-- A node takes a value from the stack or reads a variable that another node may have produced, if
dependencies of this kind are followed. -/
inductive DependsOn (g : DataFlowGraph) (kinds : DependencyKinds) (v : Nat) : Nat → Prop where
  | stack {n : DataFlowNode} {d : StackDependency} {source : DataSource}
      (hkind : kinds.viaStack = true) (hn : g.nodes.get? v = some n) (hd : d ∈ n.stack.items)
      (hsource : source ∈ d.sources) : DependsOn g kinds v source.node
  | ofVariable {n : DataFlowNode} {slot : Variable} {sources : Sources} {source : DataSource}
      (hkind : kinds.viaVariables = true) (hn : g.nodes.get? v = some n)
      (hslot : n.byVariable.get? slot = some sources) (hsource : source ∈ sources) :
      DependsOn g kinds v source.node

theorem leads_iff {v w : Nat} : Leads (g.adjacency kinds) v w ↔ g.DependsOn kinds v w := by
  unfold Leads adjacency
  constructor
  · rintro ⟨ws, hws, hw⟩
    obtain ⟨n, hn, rfl⟩ := Option.map_eq_some_iff.mp hws
    unfold DataFlowNode.dependencies at hw
    rcases List.mem_append.mp hw with hw | hw
    · split at hw
      next hkind =>
        obtain ⟨d, hd, hw⟩ := List.mem_flatMap.mp hw
        obtain ⟨source, hsource, rfl⟩ := List.mem_map.mp hw
        exact .stack hkind hn hd hsource
      next => exact absurd hw List.not_mem_nil
    · split at hw
      next hkind =>
        obtain ⟨sources, hsources, hw⟩ := List.mem_flatMap.mp hw
        obtain ⟨source, hsource, rfl⟩ := List.mem_map.mp hw
        obtain ⟨⟨slot, _⟩, hentry, rfl⟩ := List.mem_map.mp hsources
        exact .ofVariable hkind hn (get?_of_mem_entries hentry) hsource
      next => exact absurd hw List.not_mem_nil
  · intro hdepends
    cases hdepends with
    | @stack n d source hkind hn hd hsource =>
        refine ⟨_, adjacency_of_get? hn, List.mem_append_left _ ?_⟩
        rw [if_pos hkind]
        exact List.mem_flatMap.mpr ⟨d, hd, List.mem_map_of_mem hsource⟩
    | @ofVariable n slot sources source hkind hn hslot hsource =>
        refine ⟨_, adjacency_of_get? hn, List.mem_append_right _ ?_⟩
        rw [if_pos hkind]
        refine List.mem_flatMap.mpr ⟨sources, ?_, List.mem_map_of_mem hsource⟩
        exact List.mem_map_of_mem (mem_entries_of_get? hslot)

theorem leads_eq : Leads (g.adjacency kinds) = g.DependsOn kinds := by
  funext v w
  exact propext leads_iff

/-- No producer is missing from the graph of a method. -/
theorem DependsOn.mem_nodes (hg : ofBody b id = .ok g) {v w : Nat} (h : g.DependsOn kinds v w) :
    w ∈ g.nodes := by
  cases h with
  | stack _ hn hd hsource => exact ((ofBody_sourced hg v _ hn).stack _ hd _ hsource).node
  | ofVariable _ hn hslot hsource =>
      exact ((ofBody_sourced hg v _ hn).byVariable _ _ hslot _ hsource).node

/-- Some offsets are those of the nodes in a set of sources, ascending. -/
structure Lists (sources : Sources) (ws : List Nat) : Prop where
  ascending : ws.Pairwise (· ≤ ·)
  mem_iff : ∀ w, w ∈ ws ↔ ∃ source ∈ sources, source.node = w

private theorem lists_keys {sources : Sources} {graph : Nat}
    (hgraph : ∀ source ∈ sources, source.graph = graph) :
    Lists sources (sources.keys.map DataSource.node) where
  ascending := by
    have hsorted : sources.keys.Pairwise fun s t => compare s t = .lt :=
      List.pairwise_map.mpr sources.sorted
    refine List.pairwise_map.mpr (hsorted.imp_of_mem fun {s t} hs ht hlt => ?_)
    -- Sources of one graph are compared by their nodes first.
    have hself : compare s.graph t.graph = .eq := by
      rw [hgraph s hs, hgraph t ht]
      exact Std.ReflCmp.compare_self
    have hcompare : compare s t =
        (compare s.graph t.graph).then ((compare s.node t.node).then (compare s.slot t.slot)) := rfl
    rw [hcompare, hself, Ordering.eq_then] at hlt
    by_contra hgt
    rw [Nat.compare_eq_gt.mpr (Nat.lt_of_not_le hgt)] at hlt
    cases hlt
  mem_iff := fun w => List.mem_map

/-- A list has what a node depends on in the order in which it is followed: for each stack slot, the
deepest first, and then for each variable in turn the producers, ascending. -/
def Follows (n : DataFlowNode) (kinds : DependencyKinds) (ws : List Nat) : Prop :=
  ∃ slots reads : List (List Nat), ws = slots.flatten ++ reads.flatten ∧
    List.Forall₂ (fun d => Lists d.sources) (if kinds.viaStack then n.stack.items else []) slots ∧
    List.Forall₂ Lists (if kinds.viaVariables then n.byVariable.values else []) reads

private theorem follows_dependencies (hg : ofBody b id = .ok g) {v : Nat} {n : DataFlowNode}
    (hn : g.nodes.get? v = some n) : Follows n kinds (n.dependencies kinds) := by
  have hsourced := ofBody_sourced hg v n hn
  have hvariable : ∀ sources ∈ n.byVariable.values, ∀ source ∈ sources, source.graph = g.id := by
    intro sources hsources source hsource
    obtain ⟨⟨slot, _⟩, hentry, rfl⟩ := List.mem_map.mp hsources
    have hslot := get?_of_mem_entries hentry
    exact (hsourced.byVariable slot _ hslot source hsource).graph
  refine ⟨(if kinds.viaStack then n.stack.items else []).map
      fun d => d.sources.keys.map DataSource.node,
    (if kinds.viaVariables then n.byVariable.values else []).map
      fun sources => sources.keys.map DataSource.node, ?_, ?_, ?_⟩
  · unfold DataFlowNode.dependencies
    cases kinds.viaStack <;> cases kinds.viaVariables <;> rfl
  · refine List.forall₂_map_right_iff.mpr (List.forall₂_same.mpr ?_)
    intro d hd
    split at hd
    next => exact lists_keys fun source hsource => (hsourced.stack d hd source hsource).graph
    next => exact absurd hd List.not_mem_nil
  · refine List.forall₂_map_right_iff.mpr (List.forall₂_same.mpr ?_)
    intro sources hsources
    split at hsources
    next => exact lists_keys (hvariable sources hsources)
    next => exact absurd hsources List.not_mem_nil

/-! ## The search -/

theorem orderedDependencies_eq_leave (hroot : root ∈ g.nodes) :
    g.orderedDependencies root kinds = g.leave kinds [] [.enter root] := by
  obtain ⟨n, hn⟩ := mem_iff_get?.mp hroot
  unfold orderedDependencies node
  rw [hn]
  rfl

theorem exists_explores_dependencies (hg : ofBody b id = .ok g) (hroot : root ∈ g.nodes)
    (kinds : DependencyKinds) :
    ∃ discovered order, Explores (g.adjacency kinds) [] [root] discovered order ∧
      g.orderedDependencies root kinds = .ok order := by
  -- The nodes are a finite set that dependencies do not lead out of.
  have hnodes : ∀ v ∈ g.nodes.keys.toFinset, ∃ ws, g.adjacency kinds v = some ws ∧
      ∀ w ∈ ws, w ∈ g.nodes.keys.toFinset := by
    intro v hv
    obtain ⟨n, hn⟩ := mem_iff_get?.mp (List.mem_toFinset.mp hv)
    refine ⟨_, adjacency_of_get? hn, fun w hw => List.mem_toFinset.mpr ?_⟩
    exact (leads_iff.mp ⟨_, adjacency_of_get? hn, hw⟩).mem_nodes hg
  obtain ⟨discovered, order, hsearch⟩ := exists_explores hnodes [] [root]
    (List.forall_mem_singleton.mpr (List.mem_toFinset.mpr hroot))
  refine ⟨discovered, order, hsearch, ?_⟩
  rw [orderedDependencies_eq_leave hroot]
  exact leave_of_leaves hsearch.leaves

/-- A list of nodes is the post-order of all that a root depends on. -/
structure PostOrder (g : DataFlowGraph) (kinds : DependencyKinds) (root : Nat) (order : List Nat) :
    Prop where
  nodup : order.Nodup
  mem_iff : ∀ v, v ∈ order ↔ ReflTransGen (g.DependsOn kinds) root v
  /-- No producer is missing. -/
  node : ∀ v w, g.DependsOn kinds v w → w ∈ g.nodes
  last : ∃ before, order = before ++ [root]
  /-- What a node depends on comes before it, unless it depends on the node in turn. -/
  before : ∀ m ∈ order, ∀ d, g.DependsOn kinds m d → ¬ ReflTransGen (g.DependsOn kinds) d m →
    [d, m].Sublist order
  /-- It is the order in which the recursive search finishes nodes. -/
  search : ∃ discovered, Explores (g.adjacency kinds) [] [root] discovered order
  unique : ∀ discovered order', Explores (g.adjacency kinds) [] [root] discovered order' →
    order' = order
  /-- The order in which that search takes what a node depends on. -/
  follows : ∀ v n, g.nodes.get? v = some n →
    ∃ ws, g.adjacency kinds v = some ws ∧ Follows n kinds ws

/-- In the graph of a method the dependencies of every node are found, for all kinds of dependencies
that are followed, and their order is the post-order. -/
theorem ofBody_postOrder (hg : ofBody b id = .ok g) (hroot : root ∈ g.nodes)
    (kinds : DependencyKinds) :
    ∃ order, g.orderedDependencies root kinds = .ok order ∧ g.PostOrder kinds root order := by
  obtain ⟨discovered, order, hsearch, horder⟩ := exists_explores_dependencies hg hroot kinds
  refine ⟨order, horder, ?_⟩
  exact {
    nodup := hsearch.perm.nodup_iff.mp hsearch.nodup.1
    mem_iff := fun v =>
      calc v ∈ order
          ↔ v ∈ discovered := hsearch.perm.mem_iff.symm
        _ ↔ ReflTransGen (Leads (g.adjacency kinds)) root v := hsearch.mem_iff
        _ ↔ ReflTransGen (g.DependsOn kinds) root v := by rw [leads_eq]
    node := fun _ _ h => h.mem_nodes hg
    last := hsearch.exists_append_root
    before := fun m hm d hd hback => by
      rw [← leads_eq] at hback
      have hplaced := hsearch.finished_before m hm d (leads_iff.mpr hd)
      exact (hplaced.resolve_left List.not_mem_nil).resolve_right hback
    search := ⟨discovered, hsearch⟩
    unique := fun _ _ h => (hsearch.unique h).2
    follows := fun v n hn => ⟨_, adjacency_of_get? hn, follows_dependencies hg hn⟩ }

/-- A loop that counts a variable down. -/
def countsDown : MethodBody where
  instructions :=
    [⟨0, .ldc_i4_3, .none, 1⟩, ⟨1, .stloc_0, .none, 1⟩, ⟨2, .ldloc_0, .none, 1⟩,
      ⟨3, .ldc_i4_1, .none, 1⟩, ⟨4, .sub, .none, 1⟩, ⟨5, .stloc_0, .none, 1⟩,
      ⟨6, .ldloc_0, .none, 1⟩, ⟨7, .brtrue_s, .target 2, 2⟩, ⟨9, .ret, .none, 1⟩]
  locals := [.int32]

/-- The difference depends on itself through the variable.  The instruction that stores it is left
before the one that loads it, although the search entered the difference first. -/
theorem ofBody_postOrder_countsDown :
    ∃ g, ofBody countsDown = .ok g ∧ 4 ∈ g.nodes ∧
      g.orderedDependencies 4 ⟨true, true⟩ = .ok [0, 1, 5, 2, 3, 4] ∧
      g.PostOrder ⟨true, true⟩ 4 [0, 1, 5, 2, 3, 4] := by
  obtain ⟨g, hg, hfound⟩ := exists_of_map_eq_ok (r := ofBody countsDown)
    (f := fun g => (g.leaveWithin ⟨true, true⟩ 20 [] [.enter 4], (g.nodes.get? 4).isSome))
    (y := (some [0, 1, 5, 2, 3, 4], true)) (by decide +kernel)
  obtain ⟨hleave, hnode⟩ := Prod.mk.inj hfound
  have hroot : 4 ∈ g.nodes := mem_iff_get?.mpr (Option.isSome_iff_exists.mp hnode)
  obtain ⟨order, horder, hpost⟩ := ofBody_postOrder hg hroot ⟨true, true⟩
  have hrun := leave_of_leaves (leaves_of_leaveWithin hleave)
  rw [← orderedDependencies_eq_leave hroot, horder] at hrun
  cases hrun
  exact ⟨g, hg, hroot, horder, hpost⟩

end DataFlowGraph

end CilAnalysis
