import CilAnalysis.Proofs.ControlFlow.Edges
import CilAnalysis.Proofs.ControlFlow.Overlap
import CilAnalysis.Proofs.Digraph.Rebuild

/-!
# Why a method has no graph

A method without instructions has no graph, nor has one with a branch that leads nowhere or with a
clause that does not fit its instructions.  Once these are ruled out, the only thing that can still
be wrong is that ranges of clauses cross.  `ControlFlowGraph.Refusals` says so, with the order in
which the reasons count, and `ControlFlowGraph.ofBody_refusals` proves it of every method whose
offsets ascend.

## Strategy

The checks come first.  Each is turned into a property of the method: `MethodBody.TargetsFit` for
the branches, with the first that leads nowhere named by `MethodBody.DanglesFirst`, and
`MethodBody.ClauseFits` for a clause.

The rest is to show that no later step fails but by ranges that cross
(`ControlFlowGraph.ofBody_of_fits`):

* a scope is found for each block, and the blocks have different offsets
  (`MethodBody.foldlM_addBlock_total`, `addBlocks_total`);
* every edge goes between blocks (`exists_blocks_of_mem_edgesOf`), because blocks start at branch
  targets and at the bounds of clauses;
* an edge that is there already is not added again (`ControlFlowGraph.addEdges_total`).

The outcomes are listed once, with what each says about the method (`ControlFlowGraph.Outcome`), and
each part of the main theorem is read off that list by cases on the outcome.
-/

namespace CilAnalysis

namespace MethodBody

variable {b : MethodBody}

/-! ## Checks -/

/-- Branches lead to instructions. -/
def TargetsFit (b : MethodBody) : Prop :=
  ∀ i ∈ b.instructions, ∀ target ∈ i.targets, b.isOffset target = true

/-- The first branch in the order of offsets that leads to an offset without instruction, and the
first such offset among its targets. -/
def DanglesFirst (b : MethodBody) (branch target : Nat) : Prop :=
  ∃ i ∈ b.instructions, i.offset = branch ∧
    (i.targets.find? fun o => !b.isOffset o) = some target ∧
    ∀ j ∈ b.instructions, j.offset < branch → ∀ o ∈ j.targets, b.isOffset o = true

/-- The ranges of a clause start and stop at instructions or at the end of the method, they are not
empty, and a filter comes before its handler. -/
structure ClauseFits (b : MethodBody) (c : Clause) : Prop where
  bounds : ∀ o ∈ clauseBounds c, b.isOffset o = true ∨ o = b.endOffset
  guarded : c.tryStart < c.tryEnd
  handler : c.handlerStart < c.handlerEnd
  filter : ∀ start, c.filterStart? = some start → start < c.handlerStart

private theorem checkBranch_eq_ok {i : Instruction} :
    b.checkBranch i = .ok () ↔ ∀ o ∈ i.targets, b.isOffset o = true := by
  unfold checkBranch
  split
  next target hfind =>
    refine ⟨fun h => (nomatch h), fun hall => ?_⟩
    have htarget := List.find?_some hfind
    simp [hall target (List.mem_of_find?_eq_some hfind)] at htarget
  next hfind => simpa [List.find?_eq_none] using hfind

private theorem checkBranch_eq_error {i : Instruction} {e : Error} :
    b.checkBranch i = .error e ↔ ∃ target, (i.targets.find? fun o => !b.isOffset o) = some target ∧
      e = .danglingBranchTarget i.offset target := by
  unfold checkBranch
  split
  next target hfind => simp [hfind, eq_comm]
  next hfind => simp [hfind]

private theorem checkTargets_eq_error (hb : b.Ascending) {e : Error} :
    b.checkTargets = .error e ↔ ∃ branch target, b.DanglesFirst branch target ∧
      e = .danglingBranchTarget branch target := by
  unfold checkTargets DanglesFirst
  rw [forM_eq_error_iff (List.pairwise_map.mp hb)]
  simp only [checkBranch_eq_ok, checkBranch_eq_error]
  constructor
  · rintro ⟨i, hi, ⟨target, htarget, rfl⟩, hbefore⟩
    exact ⟨i.offset, target, ⟨i, hi, rfl, htarget, hbefore⟩, rfl⟩
  · rintro ⟨_, target, ⟨i, hi, rfl, htarget, hbefore⟩, rfl⟩
    exact ⟨i, hi, ⟨target, htarget, rfl⟩, hbefore⟩

private theorem checkTargets_eq_ok : b.checkTargets = .ok () ↔ b.TargetsFit := by
  constructor
  · intro h i hi
    exact checkBranch_eq_ok.mp (forM_eq_ok h hi)
  · intro h
    exact forM_total fun i hi => checkBranch_eq_ok.mpr (h i hi)

private theorem checkClause_eq (b : MethodBody) (c : Clause) :
    b.checkClause c = .ok () ∧ b.ClauseFits c ∨
      (∃ reason, b.checkClause c = .error (.invalidExceptionClause reason)) ∧ ¬ b.ClauseFits c := by
  unfold checkClause
  split
  next o hfind =>
    refine .inr ⟨⟨_, rfl⟩, fun hfits => ?_⟩
    have ho := List.find?_some hfind
    have hbound := hfits.bounds o (List.mem_of_find?_eq_some hfind)
    simp only [Bool.not_eq_true', Bool.or_eq_false_iff, beq_eq_false_iff_ne] at ho
    rcases hbound with hbound | hbound
    · rw [ho.1] at hbound
      cases hbound
    · exact ho.2 hbound
  next hfind =>
    split
    next hempty =>
      refine .inr ⟨⟨_, rfl⟩, fun hfits => ?_⟩
      have hguarded := hfits.guarded
      have hhandler := hfits.handler
      omega
    next hnonempty =>
      split
      next hfilter =>
        refine .inr ⟨⟨_, rfl⟩, fun hfits => ?_⟩
        obtain ⟨start, hstart, hle⟩ := (Option.any_eq_true _ _).mp hfilter
        have hlt := hfits.filter start hstart
        rw [decide_eq_true_eq] at hle
        omega
      next hfilter =>
        refine .inl ⟨rfl, fun o ho => ?_, by omega, by omega, fun start hstart => ?_⟩
        · have hbound := List.find?_eq_none.mp hfind o ho
          rwa [Bool.not_eq_true, Bool.not_eq_false', Bool.or_eq_true, beq_iff_eq] at hbound
        · rw [hstart, Option.any_some, decide_eq_true_eq] at hfilter
          omega

private theorem checkClause_eq_ok_iff {c : Clause} : b.checkClause c = .ok () ↔ b.ClauseFits c := by
  rcases b.checkClause_eq c with ⟨hok, hfits⟩ | ⟨⟨reason, herror⟩, hfits⟩
  · exact ⟨fun _ => hfits, fun _ => hok⟩
  · refine ⟨fun h => ?_, fun h => absurd h hfits⟩
    cases h.symm.trans herror

/-! ## Scopes of blocks -/

private theorem exists_addBlock {t : RegionTree} {scope offset : Nat} {r : Region}
    (hnew : offset ∉ t.blocks) (hr : t.regions[scope]? = some r) (hscope : r.isScope = true) :
    ∃ t', t.addBlock scope offset = .ok t' := by
  unfold RegionTree.addBlock RegionTree.scope
  rw [if_neg fun hmem => hnew (SortedMap.contains_iff.mp hmem), RegionTree.region_eq_ok.mpr hr]
  cases r with
  | scope => exact ⟨_, rfl⟩
  | guarded => cases hscope
  | handler => cases hscope

/-- Different blocks are placed in the scopes chosen for them. -/
theorem foldlM_addBlock_total {ι : Type} {scope offset : ι → Nat} {l : List ι} {t : RegionTree}
    (hnodup : (l.map offset).Nodup) (hnew : ∀ x ∈ l, offset x ∉ t.blocks)
    (hscope : ∀ x ∈ l, ∃ r, t.regions[scope x]? = some r ∧ r.isScope = true) :
    ∃ t', l.foldlM (fun t x => t.addBlock (scope x) (offset x)) t = .ok t' := by
  induction l generalizing t with
  | nil => exact ⟨t, rfl⟩
  | cons x rest ih =>
      obtain ⟨hfirst, hrest⟩ := List.nodup_cons.mp hnodup
      obtain ⟨r, hr, hisScope⟩ := hscope x List.mem_cons_self
      obtain ⟨t₁, hadd⟩ := exists_addBlock (hnew x List.mem_cons_self) hr hisScope
      rw [List.foldlM_cons, hadd]
      refine ih hrest (fun y hy => ?_) fun y hy => ?_
      · -- The blocks to come are still new, and their scopes are still scopes.
        rw [(RegionTree.addBlock_eq_ok hadd).2.1, SortedMap.mem_insert, not_or]
        refine ⟨fun heq => hfirst ?_, hnew y (List.mem_cons_of_mem x hy)⟩
        exact heq ▸ List.mem_map_of_mem hy
      · obtain ⟨s, hs, hs'⟩ := hscope y (List.mem_cons_of_mem x hy)
        obtain ⟨s', hlater, hbecomes⟩ := (RegionTree.addBlock_extends hadd).region _ s hs
        exact ⟨s', hlater, hbecomes.isScope.trans hs'⟩

/-- A method has its regions, unless ranges of its clauses cross. -/
theorem regions_eq (hb : b.Ascending) :
    (∃ t, b.regions = .ok t) ∨ ∃ e, b.regions = .error e ∧ b.Crossed e := by
  unfold regions
  rcases b.clauseRegions_eq with ⟨gs, t, hclauses, hplaces⟩ | ⟨e, herror, hcrossed⟩
  · have hempty := (clauseRegions_sound hclauses).2
    have hnodup : (b.blocks.map BasicBlock.offset).Nodup := (blocks_ascending hb).imp Nat.ne_of_lt
    -- No block is placed before, and the narrowest range around an offset has a scope.
    obtain ⟨t', ht'⟩ := foldlM_addBlock_total (t := t) hnodup
      (fun block _ => by rw [hempty]; exact SortedMap.notMem_empty _)
      fun block _ => hplaces.isScope_narrowest ⟨block.offset, block.offset + 1⟩
    refine .inl ⟨t'.sortChildren, ?_⟩
    rw [hclauses]
    show (b.blocks.foldlM (fun t block => t.addBlock (ScopeRange.innermost
      (gs.flatMap PlacedGroup.ranges) block.offset (block.offset + 1)) block.offset) t >>=
        fun t => Except.ok t.sortChildren) = .ok t'.sortChildren
    rw [show b.blocks.foldlM _ t = .ok t' from ht']
    rfl
  · refine .inr ⟨e, ?_, hcrossed⟩
    rw [herror]
    rfl

/-! ## Lengths of ranges -/

/-- Groups that were added one after the other are placed. -/
theorem placement_of_foldlM {groups : List (GuardedRange × List Clause)} {gs : List PlacedGroup}
    {t : RegionTree} (h : Placement t gs) {state : List ScopeRange × RegionTree}
    (hrun : groups.foldlM addGroup (gs.flatMap PlacedGroup.ranges, t) = .ok state) :
    ∃ gs', state.1 = gs'.flatMap PlacedGroup.ranges ∧ Placement state.2 gs' ∧
      gs'.map (fun G => (G.guard, G.clauses)) =
        gs.map (fun G => (G.guard, G.clauses)) ++ groups := by
  induction groups generalizing gs t with
  | nil =>
      cases hrun
      exact ⟨gs, rfl, h, by simp⟩
  | cons group rest ih =>
      rw [List.foldlM_cons] at hrun
      obtain ⟨state₁, hstep, hrun⟩ := bind_eq_ok hrun
      rcases addGroup_eq h group.1 group.2 with ⟨G, t', hok, hG, hplacement⟩ | ⟨e, herror, -⟩
      · obtain rfl := Except.ok.inj (hok.symm.trans hstep)
        obtain ⟨gs', hranges, hplacement', hgroups⟩ := ih hplacement hrun
        exact ⟨gs', hranges, hplacement', by simpa [hG] using hgroups⟩
      · cases hstep.symm.trans herror

/-- The ranges made for the first groups of a method start before they stop. -/
theorem start_lt_stop (hclauses : ∀ c ∈ b.clauses, b.ClauseFits c)
    {groups : List (GuardedRange × List Clause)} (hgroups : groups <+: b.clauseGroups.entries)
    {ranges : List ScopeRange} {t : RegionTree}
    (hrun : groups.foldlM addGroup ([], .empty) = .ok (ranges, t)) {r : ScopeRange}
    (hr : r ∈ ranges) : r.start < r.stop := by
  obtain ⟨gs, rfl, hplacement, hplaced⟩ := placement_of_foldlM Placement.empty hrun
  obtain ⟨G, hG, hr⟩ := List.mem_flatMap.mp hr
  have hgroup : (G.guard, G.clauses) ∈ b.clauseGroups.entries := by
    refine hgroups.subset ?_
    rw [List.map_nil, List.nil_append] at hplaced
    exact hplaced ▸ List.mem_map_of_mem hG
  obtain ⟨c, hc, -, hspan⟩ := (mem_spans_of_group hgroup).mp
    ((hplacement.stands G hG).spans ▸ List.mem_map_of_mem hr)
  exact (checkClause_eq_ok (checkClause_eq_ok_iff.mpr (hclauses c hc))).1 r.span hspan

/-! ## Blocks at both ends of each edge -/

/-- A block starts where one is to start. -/
theorem exists_block_at {o : Nat} (ho : b.isOffset o = true)
    (hleads : b.leaders.contains o = true) : ∃ block ∈ b.blocks, block.offset = o := by
  obtain ⟨i, hi, rfl⟩ := isOffset_iff.mp ho
  obtain ⟨block, hblock, hmem⟩ := exists_block hi
  exact ⟨block, hblock, offset_of_head? hblock (head?_of_leads hblock hmem hleads)⟩

/-- A handler is entered at a block: its range is not empty, so that it is entered before the end of
the method. -/
theorem exists_block_at_entry (hb : b.Ascending) {c : Clause} (hc : c ∈ b.clauses)
    (hfits : b.ClauseFits c) : ∃ block ∈ b.blocks, block.offset = c.entry := by
  have hbound : c.entry ∈ clauseBounds c := by
    unfold Clause.entry clauseBounds
    cases c.filterStart? <;> simp
  have hbefore : c.entry < c.handlerEnd := by
    have hhandler := hfits.handler
    unfold Clause.entry
    cases hstart : c.filterStart? with
    | none => simpa using hhandler
    | some start => exact (hfits.filter start hstart).trans hhandler
  have hlast : c.handlerEnd ≤ b.endOffset := by
    rcases hfits.bounds c.handlerEnd (by simp [clauseBounds]) with hoffset | hend
    · obtain ⟨i, hi, heq⟩ := isOffset_iff.mp hoffset
      exact heq ▸ offset_le_endOffset hb hi
    · exact hend.le
  have hne : c.entry ≠ b.endOffset := by
    refine ne_of_lt ?_
    calc c.entry
        < c.handlerEnd := hbefore
      _ ≤ b.endOffset := hlast
  exact exists_block_at ((hfits.bounds _ hbound).resolve_right hne) (leads_of_bound hc hbound hne)

end MethodBody

namespace ControlFlowGraph

open MethodBody

variable {b : MethodBody}

private theorem mem_exits {block : BasicBlock Instruction} {next : Option Nat} {e : Nat × EdgeKind}
    (h : e ∈ exits block next) :
    (∃ last ∈ block.instructions, e.1 ∈ last.targets) ∨ next = some e.1 := by
  unfold exits at h
  cases hlast : block.instructions.getLast? with
  | none =>
      rw [hlast] at h
      cases h
  | some last =>
      simp only [hlast] at h
      have hbranch : ∀ {kind : EdgeKind}, e ∈ last.targets.map (·, kind) →
          ∃ last ∈ block.instructions, e.1 ∈ last.targets := by
        intro kind he
        obtain ⟨target, htarget, rfl⟩ := List.mem_map.mp he
        exact ⟨last, List.mem_of_getLast? hlast, htarget⟩
      have hnext : e ∈ (next.map (·, EdgeKind.fallThrough)).toList → next = some e.1 := by
        intro he
        obtain ⟨offset, hoffset, rfl⟩ := Option.map_eq_some_iff.mp (Option.mem_toList.mp he)
        exact hoffset
      cases hflow : last.opcode.flow with
      | conditionalBranch =>
          rw [hflow] at h
          exact (List.mem_append.mp h).imp hbranch hnext
      | branch =>
          rw [hflow] at h
          exact .inl (hbranch h)
      | returns | throws =>
          rw [hflow] at h
          cases h
      | _ =>
          rw [hflow] at h
          exact .inr (hnext h)

/-- An edge that is not an exception goes from a block to a target of one of its instructions, or to
another block. -/
theorem mem_flowEdges {blocks : List (BasicBlock Instruction)} {e : Arc × EdgeKind}
    (h : e ∈ flowEdges blocks) :
    ∃ block ∈ blocks, block.offset = e.1.head ∧
      ((∃ last ∈ block.instructions, e.1.tail ∈ last.targets) ∨
        ∃ next ∈ blocks, next.offset = e.1.tail) := by
  induction blocks with
  | nil => cases h
  | cons block rest ih =>
      rw [flowEdges, List.mem_append] at h
      rcases h with h | h
      · obtain ⟨exit, hexit, rfl⟩ := List.mem_map.mp h
        refine ⟨block, List.mem_cons_self, rfl, ?_⟩
        rcases mem_exits hexit with htarget | hnext
        · exact .inl htarget
        · obtain ⟨next, hhead, hoffset⟩ := Option.map_eq_some_iff.mp hnext
          exact .inr ⟨next, List.mem_cons_of_mem block (List.mem_of_mem_head? hhead), hoffset⟩
      · obtain ⟨found, hfound, hhead, hends⟩ := ih h
        refine ⟨found, List.mem_cons_of_mem block hfound, hhead, hends.imp id ?_⟩
        rintro ⟨next, hnext, hoffset⟩
        exact ⟨next, List.mem_cons_of_mem block hnext, hoffset⟩

private theorem exists_blocks_of_mem_edgesOf (hb : b.Ascending) (htargets : b.TargetsFit)
    (hclauses : ∀ c ∈ b.clauses, b.ClauseFits c) {e : Arc × EdgeKind}
    (he : e ∈ edgesOf b.blocks b.clauses) :
    (∃ block ∈ b.blocks, block.offset = e.1.head) ∧
      ∃ block ∈ b.blocks, block.offset = e.1.tail := by
  rcases List.mem_append.mp he with hflow | hexception
  · obtain ⟨block, hblock, hhead, hends⟩ := mem_flowEdges hflow
    refine ⟨⟨block, hblock, hhead⟩, ?_⟩
    rcases hends with ⟨last, hlast, htail⟩ | hnext
    · have hmem : last ∈ b.instructions := (infix_of_mem_cutBlocks hblock).subset hlast
      exact exists_block_at (htargets last hmem _ htail) (leads_of_target hmem htail)
    · exact hnext
  · obtain ⟨c, hc, hedge⟩ := List.mem_flatMap.mp hexception
    obtain ⟨block, hblock, rfl⟩ := List.mem_map.mp hedge
    exact ⟨⟨block, (List.mem_filter.mp hblock).1, rfl⟩,
      exists_block_at_entry hb hc (hclauses c hc)⟩

/-! ## The graph -/

private theorem addBlocks_total (hb : b.Ascending) {t : RegionTree} (ht : b.regions = .ok t) :
    ∃ g, addBlocks t b.blocks = .ok g := by
  refine Digraph.insertVertices_total (List.pairwise_map.mp (blocks_ascending hb))
    (fun _ _ => SortedMap.notMem_empty _) fun block hblock => ?_
  have hplaced : block.offset ∈ t.blocks := ((regions_sound ht).2 _).mpr ⟨block, hblock, rfl⟩
  obtain ⟨region, hregion⟩ := SortedMap.mem_iff_get?.mp hplaced
  refine ⟨⟨block, region⟩, ?_⟩
  unfold placeBlock
  rw [show t.regionOf? block.offset = some region from hregion]

/-- Edges between vertices are added, or are there already. -/
theorem addEdges_total {g : Digraph (FlowNode Instruction) EdgeKind}
    {edges : List (Arc × EdgeKind)}
    (hends : ∀ e ∈ edges, e.1.head ∈ g.vertices ∧ e.1.tail ∈ g.vertices) :
    ∃ g', addEdges g edges = .ok g' := by
  -- The vertices stay as they are, so each edge still goes between vertices when its turn comes.
  have hstep : ∀ e ∈ edges, ∀ g₁ : Digraph (FlowNode Instruction) EdgeKind,
      g₁.vertices = g.vertices →
        ∃ g₂, addEdge g₁ e.1.head e.1.tail e.2 = .ok g₂ ∧ g₂.vertices = g.vertices := by
    intro e he g₁ hg₁
    obtain ⟨hhead, htail⟩ := hends e he
    rw [← hg₁] at hhead htail
    unfold addEdge
    split
    next => exact ⟨g₁, rfl, hg₁⟩
    next hnew =>
      obtain ⟨g₂, hadd⟩ := Digraph.exists_insertEdge
        (fun hmem => hnew (Digraph.hasEdge_iff.mpr hmem)) hhead htail e.2
      exact ⟨g₂, hadd, (Digraph.insertEdge_eq_ok hadd).2.2.1.trans hg₁⟩
  obtain ⟨g', hrun, -⟩ := foldlM_total hstep rfl
  exact ⟨g', hrun⟩

/-- A method that passes the checks has a graph, unless ranges of its clauses cross. -/
theorem ofBody_of_fits (hb : b.Ascending) (hne : b.instructions ≠ []) (htargets : b.TargetsFit)
    (hclauses : ∀ c ∈ b.clauses, b.ClauseFits c) :
    (∃ g, ofBody b = .ok g) ∨ ∃ e, ofBody b = .error e ∧ b.Crossed e := by
  obtain ⟨first, rest, hfirst⟩ := List.exists_cons_of_ne_nil hne
  have hhead : b.instructions.head? = some first := by rw [hfirst, List.head?_cons]
  have hchecks : b.clauses.forM b.checkClause = .ok () :=
    forM_total fun c hc => checkClause_eq_ok_iff.mpr (hclauses c hc)
  rw [ofBody_eq_bind hhead, checkTargets_eq_ok.mpr htargets, hchecks]
  rcases regions_eq hb with ⟨t, ht⟩ | ⟨e, herror, hcrossed⟩
  · obtain ⟨graph, hgraph⟩ := addBlocks_total hb ht
    -- Every step after the regions succeeds: the blocks are vertices, and all edges go between
    -- them.
    have hvertex : ∀ o, (∃ block ∈ b.blocks, block.offset = o) → o ∈ graph.vertices := by
      rintro _ ⟨block, hblock, rfl⟩
      exact SortedMap.mem_iff_get?.mpr
        ⟨_, ((addBlocks_eq_ok hgraph).2 _ _).mpr ⟨block, hblock, rfl, rfl⟩⟩
    obtain ⟨graph', hgraph'⟩ := addEdges_total fun e he =>
      (exists_blocks_of_mem_edgesOf hb htargets hclauses he).imp (hvertex _) (hvertex _)
    refine .inl ⟨⟨graph', t, first.offset⟩, ?_⟩
    rw [ht]
    show (addBlocks t b.blocks >>= _) = _
    rw [hgraph]
    show (addEdges graph (edgesOf b.blocks b.clauses) >>= _) = _
    rw [hgraph']
    rfl
  · refine .inr ⟨e, ?_, hcrossed⟩
    rw [herror]
    rfl

private theorem ofBody_of_danglesFirst (hb : b.Ascending) {branch target : Nat}
    (h : b.DanglesFirst branch target) :
    ofBody b = .error (.danglingBranchTarget branch target) := by
  obtain ⟨i, hi, -⟩ := id h
  obtain ⟨first, rest, hfirst⟩ := List.exists_cons_of_ne_nil (List.ne_nil_of_mem hi)
  have hhead : b.instructions.head? = some first := by rw [hfirst, List.head?_cons]
  rw [ofBody_eq_bind hhead, (checkTargets_eq_error hb).mpr ⟨branch, target, h, rfl⟩]
  rfl

private theorem ofBody_of_not_clauseFits (hne : b.instructions ≠ []) (htargets : b.TargetsFit)
    {c : Clause} (hc : c ∈ b.clauses) (hfits : ¬ b.ClauseFits c) :
    ∃ reason, ofBody b = .error (.invalidExceptionClause reason) := by
  obtain ⟨first, rest, hfirst⟩ := List.exists_cons_of_ne_nil hne
  have hhead : b.instructions.head? = some first := by rw [hfirst, List.head?_cons]
  rw [ofBody_eq_bind hhead, checkTargets_eq_ok.mpr htargets]
  cases hchecks : b.clauses.forM b.checkClause with
  | ok => exact absurd (checkClause_eq_ok_iff.mp (forM_eq_ok hchecks hc)) hfits
  | error e =>
      -- The clause that is refused may be another one than `c`, but it is refused for the same kind
      -- of reason.
      obtain ⟨d, hd, hfail⟩ := exists_of_forM_eq_error hchecks
      rcases b.checkClause_eq d with ⟨hok, -⟩ | ⟨⟨reason, herror⟩, -⟩
      · cases hok.symm.trans hfail
      · obtain rfl := Except.error.inj (herror.symm.trans hfail)
        exact ⟨reason, rfl⟩

/-- What becomes of a method. -/
inductive Outcome (b : MethodBody) : Except Error (ControlFlowGraph Instruction) → Prop
  | empty (h : b.instructions = []) : Outcome b (.error .emptyMethodBody)
  | dangling {branch target : Nat} (hne : b.instructions ≠ []) (h : ¬ b.TargetsFit)
      (hfirst : b.DanglesFirst branch target) :
      Outcome b (.error (.danglingBranchTarget branch target))
  | unfit {reason : String} (hne : b.instructions ≠ []) (htargets : b.TargetsFit)
      (h : ∃ c ∈ b.clauses, ¬ b.ClauseFits c) :
      Outcome b (.error (.invalidExceptionClause reason))
  | crossed {first second : Nat} (hne : b.instructions ≠ []) (htargets : b.TargetsFit)
      (hclauses : ∀ c ∈ b.clauses, b.ClauseFits c)
      (h : b.Crossed (.overlappingRegions first second)) :
      Outcome b (.error (.overlappingRegions first second))
  | graph {g : ControlFlowGraph Instruction} (hne : b.instructions ≠ []) (htargets : b.TargetsFit)
      (hclauses : ∀ c ∈ b.clauses, b.ClauseFits c) : Outcome b (.ok g)

private theorem ofBody_outcome (hb : b.Ascending) : Outcome b (ofBody b) := by
  by_cases hne : b.instructions = []
  · rw [ofBody_eq_error (by rw [hne, List.head?_nil])]
    exact .empty hne
  by_cases htargets : b.TargetsFit
  · by_cases hclauses : ∀ c ∈ b.clauses, b.ClauseFits c
    · rcases ofBody_of_fits hb hne htargets hclauses with ⟨g, hg⟩ | ⟨e, herror, hcrossed⟩
      · rw [hg]
        exact .graph hne htargets hclauses
      · rw [herror]
        obtain ⟨c, hc, d, hd, hguards, r, hr, s, hs, hcross, rfl⟩ := id hcrossed
        exact .crossed hne htargets hclauses hcrossed
    · push Not at hclauses
      obtain ⟨c, hc, hfits⟩ := hclauses
      obtain ⟨reason, herror⟩ := ofBody_of_not_clauseFits hne htargets hc hfits
      rw [herror]
      exact .unfit hne htargets ⟨c, hc, hfits⟩
  · cases hcheck : b.checkTargets with
    | ok => exact absurd (checkTargets_eq_ok.mp hcheck) htargets
    | error e =>
        obtain ⟨branch, target, hfirst, rfl⟩ := (checkTargets_eq_error hb).mp hcheck
        rw [ofBody_of_danglesFirst hb hfirst]
        exact .dangling hne htargets hfirst

/-- The reasons for which a method is refused, in the order in which they count, and that these are
all.  While the regions are made, the length of a range is the distance between its bounds. -/
structure Refusals (b : MethodBody) : Prop where
  empty : ofBody b = .error .emptyMethodBody ↔ b.instructions = []
  dangling : b.instructions ≠ [] →
    ((∃ branch target, ofBody b = .error (.danglingBranchTarget branch target)) ↔ ¬ b.TargetsFit)
  first : ∀ branch target, ofBody b = .error (.danglingBranchTarget branch target) ↔
    b.DanglesFirst branch target
  clause : b.instructions ≠ [] → b.TargetsFit →
    ((∃ reason, ofBody b = .error (.invalidExceptionClause reason)) ↔
      ∃ c ∈ b.clauses, ¬ b.ClauseFits c)
  otherwise : b.instructions ≠ [] → b.TargetsFit → (∀ c ∈ b.clauses, b.ClauseFits c) →
    (∃ first second, ofBody b = .error (.overlappingRegions first second)) ∨
      ∃ g, ofBody b = .ok g
  reasons : ∀ e, ofBody b = .error e → e = .emptyMethodBody ∨
    (∃ branch target, e = .danglingBranchTarget branch target) ∨
    (∃ reason, e = .invalidExceptionClause reason) ∨
    ∃ first second, e = .overlappingRegions first second
  lengths : (∀ c ∈ b.clauses, b.ClauseFits c) → ∀ groups, groups <+: b.clauseGroups.entries →
    ∀ ranges t, groups.foldlM addGroup ([], .empty) = .ok (ranges, t) →
      ∀ r ∈ ScopeRange.whole :: ranges, r.start + r.length = r.stop

theorem ofBody_refusals (hb : b.Ascending) : Refusals b := by
  have houtcome := ofBody_outcome hb
  refine ⟨⟨fun h => ?_, fun h => ?_⟩, fun hne => ⟨?_, fun h => ?_⟩,
    fun branch target => ⟨fun h => ?_, ofBody_of_danglesFirst hb⟩,
    fun hne htargets => ⟨?_, ?_⟩, fun hne htargets hclauses => ?_, fun e h => ?_, ?_⟩
  · rw [h] at houtcome
    cases houtcome with
    | empty hempty => exact hempty
  · exact ofBody_eq_error (by rw [h, List.head?_nil])
  · rintro ⟨branch, target, h⟩
    rw [h] at houtcome
    cases houtcome with
    | dangling _ htargets _ => exact htargets
  · generalize ofBody b = r at houtcome
    cases houtcome with
    | empty hempty => exact absurd hempty hne
    | dangling => exact ⟨_, _, rfl⟩
    | unfit _ htargets _ => exact absurd htargets h
    | crossed _ htargets _ _ => exact absurd htargets h
    | graph _ htargets _ => exact absurd htargets h
  · rw [h] at houtcome
    cases houtcome with
    | dangling _ _ hfirst => exact hfirst
  · rintro ⟨reason, h⟩
    rw [h] at houtcome
    cases houtcome with
    | unfit _ _ hunfit => exact hunfit
  · rintro ⟨c, hc, hfits⟩
    exact ofBody_of_not_clauseFits hne htargets hc hfits
  · rcases ofBody_of_fits hb hne htargets hclauses with hg | ⟨_, herror, hcrossed⟩
    · exact .inr hg
    · obtain ⟨c, hc, d, hd, hguards, r, hr, s, hs, hcross, rfl⟩ := hcrossed
      exact .inl ⟨_, _, herror⟩
  · rw [h] at houtcome
    cases houtcome with
    | empty => exact .inl rfl
    | dangling => exact .inr (.inl ⟨_, _, rfl⟩)
    | unfit => exact .inr (.inr (.inl ⟨_, rfl⟩))
    | crossed => exact .inr (.inr (.inr ⟨_, _, rfl⟩))
  · intro hclauses groups hgroups ranges t hrun
    refine List.forall_mem_cons.mpr ⟨rfl, fun r hr => ?_⟩
    have hlt := start_lt_stop hclauses hgroups hrun hr
    unfold ScopeRange.length
    omega

/-- A filter and a handler up to the end of the method. -/
def handlerAtEnd : MethodBody := idle 8 [⟨.filters 4, 0, 4, 6, 9⟩]

theorem ofBody_refusals_handlerAtEnd :
    handlerAtEnd.Ascending ∧ Refusals handlerAtEnd ∧ (∃ g, ofBody handlerAtEnd = .ok g) ∧
      crossingGuards.Ascending ∧ Refusals crossingGuards ∧
      ofBody crossingGuards = .error (.overlappingRegions 0 2) := by
  have hend : handlerAtEnd.Ascending := by decide
  have hcrossing : crossingGuards.Ascending := by decide
  obtain ⟨g, hg, -⟩ := exists_of_map_eq_ok (r := ofBody handlerAtEnd) (f := fun _ => ()) (y := ())
    (by decide +kernel)
  exact ⟨hend, ofBody_refusals hend, ⟨g, hg⟩, hcrossing, ofBody_refusals hcrossing,
    by decide +kernel⟩

end ControlFlowGraph

end CilAnalysis
