import CilAnalysis.Proofs.ControlFlow.Partition

/-!
# The edges of a control-flow graph

Between two blocks the first edge stays: a branch before falling through, and either before an
exception.  So which edge there is can be read off the last instruction of the block that it leaves,
the block after that and the clauses (`ControlFlowGraph.EdgesOf`, `ControlFlowGraph.ofBody_edges`).

```text
kind            asked for by                                        given unless there is
conditional     a conditional branch, for each of its targets       (always)
unconditional   a branch, for each of its targets                   (always)
fallThrough     an instruction that falls through, the block after  a conditional one
abnormal        a clause, from each block in its guarded range      one of the others
```

## Strategy

By `ControlFlowGraph.edge_ofBody` an edge is what a lookup finds first in the list of all edges.  A
lookup in lists put one after the other is a lookup in the first that falls back on the second, so
the question becomes where each part has an edge.

* Offsets of blocks differ, so the edges that leave a block are found in its own part
  (`lookup_flowEdges`), and in that part by its last instruction (`lookup_exits`).
* The block after another one is the next key of the vertices (`infix_pair_iff_of_suffix`).
* All exceptions have one kind, so looking one up is asking whether it is there
  (`lookup_exceptionEdges`).
-/

namespace CilAnalysis

namespace ControlFlowGraph

/-! ## Lookups in lists of edges -/

private theorem lookup_pairs {α β : Type} [DecidableEq α] (l : List α) (a : α) (k : β) :
    (l.map fun x => (x, k)).lookup a = if a ∈ l then some k else none := by
  induction l with
  | nil => rfl
  | cons x rest ih =>
      rw [List.map_cons, List.lookup_cons, ih]
      by_cases ha : a = x
      · simp [ha]
      · simp [beq_false_of_ne ha, ha]

private theorem lookup_leaving (head head' tail : Nat) (l : List (Nat × EdgeKind)) :
    (l.map fun e => (Arc.mk head' e.1, e.2)).lookup ⟨head, tail⟩ =
      if head = head' then l.lookup tail else none := by
  induction l with
  | nil => simp
  | cons e rest ih =>
      rw [List.map_cons, List.lookup_cons, List.lookup_cons, ih]
      by_cases hhead : head = head'
      · by_cases htail : tail = e.1
        · simp [hhead, htail]
        · have hne : (⟨head, tail⟩ : Arc) ≠ ⟨head', e.1⟩ := fun heq => htail (Arc.mk.inj heq).2
          rw [beq_false_of_ne hne, beq_false_of_ne htail]
      · have hne : (⟨head, tail⟩ : Arc) ≠ ⟨head', e.1⟩ := fun heq => hhead (Arc.mk.inj heq).1
        simp [beq_false_of_ne hne, hhead]

/-- How control gets from the end of a block to another block: by a branch, or else by falling
through if the other comes after it. -/
@[mk_iff]
inductive Exits (last : Instruction) (after : Prop) (tail : Nat) : EdgeKind → Prop
  | conditional (hflow : last.opcode.flow = .conditionalBranch) (htail : tail ∈ last.targets) :
      Exits last after tail .conditional
  | unconditional (hflow : last.opcode.flow = .branch) (htail : tail ∈ last.targets) :
      Exits last after tail .unconditional
  | fallThrough (hfalls : last.opcode.flow.fallsThrough = true) (hafter : after)
      (hbranch : last.opcode.flow = .conditionalBranch → tail ∉ last.targets) :
      Exits last after tail .fallThrough

private theorem lookup_exits {block : BasicBlock Instruction} {next : Option Nat} {tail : Nat}
    {kind : EdgeKind} :
    (exits block next).lookup tail = some kind ↔
      ∃ last, block.instructions.getLast? = some last ∧
        Exits last (next = some tail) tail kind := by
  unfold exits
  cases block.instructions.getLast? with
  | none => simp
  | some last =>
      have hfall : (next.map fun next => (next, EdgeKind.fallThrough)).toList.lookup tail =
          if next = some tail then some .fallThrough else none := by
        rw [Option.toList_map, lookup_pairs]
        simp [Option.mem_toList]
      simp only [Option.some.injEq, exists_eq_left', exits_iff]
      cases last.opcode.flow with
      | conditionalBranch =>
          -- A target of the branch is found before the block after it.
          simp only [FlowControl.fallsThrough, if_true, List.lookup_append, lookup_pairs, hfall]
          by_cases htail : tail ∈ last.targets
          · simp [htail, eq_comm]
          · simp [htail, eq_comm, and_comm]
      | branch => simp [FlowControl.fallsThrough, lookup_pairs, eq_comm, and_comm]
      | _ => simp [FlowControl.fallsThrough, hfall, eq_comm, and_comm]

private theorem lookup_flowEdges_eq_none {blocks : List (BasicBlock Instruction)} {head tail : Nat}
    (h : head ∉ blocks.map BasicBlock.offset) : (flowEdges blocks).lookup ⟨head, tail⟩ = none := by
  induction blocks with
  | nil => rfl
  | cons block rest ih =>
      rw [List.map_cons, List.mem_cons, not_or] at h
      rw [flowEdges, List.lookup_append, lookup_leaving, if_neg h.1, ih h.2]
      rfl

/-- The edges that leave a block are its own. -/
theorem lookup_flowEdges {blocks rest : List (BasicBlock Instruction)}
    {block : BasicBlock Instruction} (hnodup : (blocks.map BasicBlock.offset).Nodup)
    (hsuffix : block :: rest <:+ blocks) (tail : Nat) :
    (flowEdges blocks).lookup ⟨block.offset, tail⟩ =
      (exits block (rest.head?.map BasicBlock.offset)).lookup tail := by
  induction blocks with
  | nil => exact absurd hsuffix.length_le (by simp)
  | cons first blocks ih =>
      rw [List.map_cons, List.nodup_cons] at hnodup
      rw [flowEdges, List.lookup_append, lookup_leaving]
      rcases List.suffix_cons_iff.mp hsuffix with heq | hsuffix
      · -- No later block has the offset of this one, so no later edge leaves it.
        obtain ⟨rfl, rfl⟩ := List.cons.inj heq
        rw [if_pos rfl, lookup_flowEdges_eq_none hnodup.1, Option.or_none]
      · -- The block comes later, and the edges of the first leave another one.
        have hne : block.offset ≠ first.offset := fun heq =>
          hnodup.1 (heq ▸ List.mem_map_of_mem (hsuffix.subset List.mem_cons_self))
        rw [if_neg hne, Option.none_or, ih hnodup.2 hsuffix]

private theorem lookup_exceptionEdges (blocks : List (BasicBlock Instruction))
    (clauses : List Clause) (head tail : Nat) (kind : EdgeKind) :
    (clauses.flatMap (exceptionEdges blocks)).lookup ⟨head, tail⟩ = some kind ↔
      kind = .abnormal ∧ head ∈ blocks.map BasicBlock.offset ∧
        ∃ c ∈ clauses, (c.tryStart ≤ head ∧ head < c.tryEnd) ∧ c.entry = tail := by
  -- All exceptions have the same kind, so that a lookup asks whether the arc is among them.
  have hpairs : clauses.flatMap (exceptionEdges blocks) =
      (clauses.flatMap fun c => (blocks.filter fun block => c.guards block.offset).map
        fun block => Arc.mk block.offset c.entry).map fun a => (a, EdgeKind.abnormal) := by
    rw [List.map_flatMap]
    simp only [List.map_map]
    rfl
  rw [hpairs, lookup_pairs, Option.ite_none_right_eq_some, Option.some.injEq, and_comm, eq_comm]
  refine and_congr_right fun _ => ?_
  simp only [List.mem_flatMap, List.mem_map, List.mem_filter, Clause.guards, Bool.and_eq_true,
    decide_eq_true_eq, Arc.mk.injEq]
  constructor
  · rintro ⟨c, hc, block, ⟨hblock, hguards⟩, rfl, rfl⟩
    exact ⟨⟨block, hblock, rfl⟩, c, hc, hguards, rfl⟩
  · rintro ⟨⟨block, hblock, rfl⟩, c, hc, hguards, rfl⟩
    exact ⟨c, hc, block, ⟨hblock, hguards⟩, rfl, rfl⟩

/-! ## The edges of the graph of a method -/

/-- The block at an offset ends with an instruction. -/
def EndsWith (g : ControlFlowGraph Instruction) (offset : Nat) (last : Instruction) : Prop :=
  ∃ node, g.graph.vertex offset = .ok node ∧ node.block.instructions.getLast? = some last

/-- A block is the one before another in the order of offsets. -/
def Precedes (g : ControlFlowGraph Instruction) (offset next : Nat) : Prop :=
  [offset, next] <:+: g.graph.vertices.keys

/-- The edges of a graph are those that a method asks for: branches from their instructions to their
targets, falling through to the block after, and exceptions to where a clause is entered, each
unless there is an edge of the kinds before. -/
structure EdgesOf (g : ControlFlowGraph Instruction) (b : MethodBody) : Prop where
  single : g.graph.edges.keys.Nodup
  ends : ∀ head tail kind, g.graph.edge head tail = .ok kind →
    head ∈ g.graph.vertices ∧ tail ∈ g.graph.vertices
  conditional : ∀ head tail, g.graph.edge head tail = .ok .conditional ↔
    ∃ last, g.EndsWith head last ∧ last.opcode.flow = .conditionalBranch ∧ tail ∈ last.targets
  unconditional : ∀ head tail, g.graph.edge head tail = .ok .unconditional ↔
    ∃ last, g.EndsWith head last ∧ last.opcode.flow = .branch ∧ tail ∈ last.targets
  fallThrough : ∀ head tail, g.graph.edge head tail = .ok .fallThrough ↔
    (∃ last, g.EndsWith head last ∧ last.opcode.flow.fallsThrough = true) ∧
      g.Precedes head tail ∧ g.graph.edge head tail ≠ .ok .conditional ∧
      g.graph.edge head tail ≠ .ok .unconditional
  abnormal : ∀ head tail, g.graph.edge head tail = .ok .abnormal ↔
    head ∈ g.graph.vertices ∧
      (∃ c ∈ b.clauses, (c.tryStart ≤ head ∧ head < c.tryEnd) ∧ c.entry = tail) ∧
      g.graph.edge head tail ≠ .ok .conditional ∧ g.graph.edge head tail ≠ .ok .unconditional ∧
      g.graph.edge head tail ≠ .ok .fallThrough

variable {b : MethodBody} {g : ControlFlowGraph Instruction}

theorem endsWith_iff (hg : ofBody b = .ok g) {offset : Nat} {last : Instruction} :
    g.EndsWith offset last ↔
      ∃ block ∈ b.blocks, block.offset = offset ∧ block.instructions.getLast? = some last := by
  constructor
  · rintro ⟨node, hnode, hlast⟩
    obtain ⟨block, hblock, hoffset, rfl⟩ := (vertex_ofBody hg).mp hnode
    exact ⟨block, hblock, hoffset, hlast⟩
  · rintro ⟨block, hblock, hoffset, hlast⟩
    exact ⟨_, (vertex_ofBody hg).mpr ⟨block, hblock, hoffset, rfl⟩, hlast⟩

theorem keys_ofBody (hb : b.Ascending) (hg : ofBody b = .ok g) :
    g.graph.vertices.keys = b.blocks.map BasicBlock.offset := by
  unfold SortedMap.keys
  rw [vertices_ofBody hb hg, List.map_map]
  rfl

/-- Between blocks without repetition the one after a block is determined. -/
theorem infix_pair_iff_of_suffix {l rest : List Nat} {a c : Nat} (hnodup : l.Nodup)
    (hsuffix : a :: rest <:+ l) : [a, c] <:+: l ↔ rest.head? = some c := by
  induction l with
  | nil => exact absurd hsuffix.length_le (by simp)
  | cons x l ih =>
      rw [List.nodup_cons] at hnodup
      rw [List.infix_cons_iff, List.cons_prefix_cons, List.singleton_prefix_iff_head?_eq_some]
      rcases List.suffix_cons_iff.mp hsuffix with heq | hsuffix
      · obtain ⟨rfl, rfl⟩ := List.cons.inj heq
        have hnot : ¬ [a, c] <:+: rest := fun h => hnodup.1 (h.subset List.mem_cons_self)
        simp [hnot]
      · have hne : a ≠ x := fun heq => hnodup.1 (heq ▸ hsuffix.subset List.mem_cons_self)
        simp [hne, ih hnodup.2 hsuffix]

/-- The edges of control from block to block. -/
theorem lookup_flowEdges_iff (hb : b.Ascending) (hg : ofBody b = .ok g) {head tail : Nat}
    {kind : EdgeKind} :
    (flowEdges b.blocks).lookup ⟨head, tail⟩ = some kind ↔
      ∃ last, g.EndsWith head last ∧ Exits last (g.Precedes head tail) tail kind := by
  have hnodup : (b.blocks.map BasicBlock.offset).Nodup :=
    (MethodBody.blocks_ascending hb).imp Nat.ne_of_lt
  have hlookup {block} (hblock : block ∈ b.blocks) :
      (flowEdges b.blocks).lookup ⟨block.offset, tail⟩ = some kind ↔
        ∃ last, block.instructions.getLast? = some last ∧
          Exits last (g.Precedes block.offset tail) tail kind := by
    obtain ⟨before, rest, hsplit⟩ := List.append_of_mem hblock
    have hsuffix : block :: rest <:+ b.blocks := ⟨before, hsplit.symm⟩
    have hafter : g.Precedes block.offset tail ↔
        rest.head?.map BasicBlock.offset = some tail := by
      rw [Precedes, keys_ofBody hb hg,
        infix_pair_iff_of_suffix hnodup (hsuffix.map BasicBlock.offset), List.head?_map]
    calc (flowEdges b.blocks).lookup ⟨block.offset, tail⟩ = some kind
        ↔ (exits block (rest.head?.map BasicBlock.offset)).lookup tail = some kind := by
          rw [lookup_flowEdges hnodup hsuffix]
      _ ↔ ∃ last, block.instructions.getLast? = some last ∧
            Exits last (rest.head?.map BasicBlock.offset = some tail) tail kind := lookup_exits
      _ ↔ ∃ last, block.instructions.getLast? = some last ∧
            Exits last (g.Precedes block.offset tail) tail kind := by rw [hafter]
  constructor
  · intro h
    by_cases hmem : head ∈ b.blocks.map BasicBlock.offset
    · obtain ⟨block, hblock, rfl⟩ := List.mem_map.mp hmem
      obtain ⟨last, hlast, hexits⟩ := (hlookup hblock).mp h
      exact ⟨last, (endsWith_iff hg).mpr ⟨block, hblock, rfl, hlast⟩, hexits⟩
    · rw [lookup_flowEdges_eq_none hmem] at h
      exact nomatch h
  · rintro ⟨last, hends, hexits⟩
    obtain ⟨block, hblock, rfl, hlast⟩ := (endsWith_iff hg).mp hends
    exact (hlookup hblock).mpr ⟨last, hlast, hexits⟩

/-- The edges other than exceptions. -/
theorem edge_iff_exits (hb : b.Ascending) (hg : ofBody b = .ok g) {head tail : Nat}
    (kind : EdgeKind) (hkind : kind ≠ .abnormal) :
    g.graph.edge head tail = .ok kind ↔
      ∃ last, g.EndsWith head last ∧ Exits last (g.Precedes head tail) tail kind := by
  have hexception :
      (b.clauses.flatMap (exceptionEdges b.blocks)).lookup ⟨head, tail⟩ ≠ some kind :=
    fun h => hkind ((lookup_exceptionEdges ..).mp h).1
  calc g.graph.edge head tail = .ok kind
      ↔ (edgesOf b.blocks b.clauses).lookup ⟨head, tail⟩ = some kind := edge_ofBody hg
    _ ↔ (flowEdges b.blocks).lookup ⟨head, tail⟩ = some kind ∨
          (flowEdges b.blocks).lookup ⟨head, tail⟩ = none ∧
            (b.clauses.flatMap (exceptionEdges b.blocks)).lookup ⟨head, tail⟩ = some kind := by
        rw [edgesOf, List.lookup_append, Option.or_eq_some_iff]
    _ ↔ (flowEdges b.blocks).lookup ⟨head, tail⟩ = some kind :=
        or_iff_left fun h => hexception h.2
    _ ↔ ∃ last, g.EndsWith head last ∧ Exits last (g.Precedes head tail) tail kind :=
        lookup_flowEdges_iff hb hg

/-- Control falls through where it can and there is no branch. -/
theorem edge_fallThrough_iff (hb : b.Ascending) (hg : ofBody b = .ok g) {head tail : Nat} :
    g.graph.edge head tail = .ok .fallThrough ↔
      (∃ last, g.EndsWith head last ∧ last.opcode.flow.fallsThrough = true) ∧
        g.Precedes head tail ∧ g.graph.edge head tail ≠ .ok .conditional ∧
        g.graph.edge head tail ≠ .ok .unconditional := by
  constructor
  · intro h
    obtain ⟨last, hends, hexits⟩ := (edge_iff_exits hb hg .fallThrough (by decide)).mp h
    cases hexits with
    | fallThrough hfalls hafter hbranch =>
        rw [h]
        exact ⟨⟨last, hends, hfalls⟩, hafter, by simp, by simp⟩
  · rintro ⟨⟨last, hends, hfalls⟩, hafter, hconditional, -⟩
    rw [edge_iff_exits hb hg .fallThrough (by decide)]
    refine ⟨last, hends, .fallThrough hfalls hafter fun hflow htail => hconditional ?_⟩
    rw [edge_iff_exits hb hg .conditional (by decide)]
    exact ⟨last, hends, .conditional hflow htail⟩

/-- Exceptions take the places that are left. -/
theorem edge_abnormal_iff (hb : b.Ascending) (hg : ofBody b = .ok g) {head tail : Nat} :
    g.graph.edge head tail = .ok .abnormal ↔
      (head ∈ g.graph.vertices ∧
        ∃ c ∈ b.clauses, (c.tryStart ≤ head ∧ head < c.tryEnd) ∧ c.entry = tail) ∧
      ∀ kind, kind ≠ .abnormal → g.graph.edge head tail ≠ .ok kind := by
  have hflow (kind : EdgeKind) : (flowEdges b.blocks).lookup ⟨head, tail⟩ = some kind ↔
      kind ≠ .abnormal ∧ g.graph.edge head tail = .ok kind := by
    rw [lookup_flowEdges_iff hb hg]
    constructor
    · rintro ⟨last, hends, hexits⟩
      have hkind : kind ≠ .abnormal := by
        rintro rfl
        exact nomatch hexits
      exact ⟨hkind, (edge_iff_exits hb hg kind hkind).mpr ⟨last, hends, hexits⟩⟩
    · exact fun h => (edge_iff_exits hb hg kind h.1).mp h.2
  -- No edge of control was found exactly if there is none of another kind.
  have hnone : (flowEdges b.blocks).lookup ⟨head, tail⟩ = none ↔
      ∀ kind, kind ≠ .abnormal → g.graph.edge head tail ≠ .ok kind := by
    rw [Option.eq_none_iff_forall_ne_some]
    exact forall_congr' fun kind => by rw [Ne, hflow, not_and]
  have hexception := lookup_exceptionEdges b.blocks b.clauses head tail .abnormal
  rw [eq_self, true_and, ← keys_ofBody hb hg, ← SortedMap.mem_def] at hexception
  rw [edge_ofBody hg, edgesOf, List.lookup_append, Option.or_eq_some_iff, hnone, hexception, hflow]
  simp [and_comm]

theorem edge_ends (hg : ofBody b = .ok g) {head tail : Nat} {kind : EdgeKind}
    (h : g.graph.edge head tail = .ok kind) :
    head ∈ g.graph.vertices ∧ tail ∈ g.graph.vertices := by
  obtain ⟨first, graph, -, -, -, -, hblocks, hedges, -⟩ := ofBody_eq_ok hg
  have hempty : ∀ a ∈ graph.edges, a.head ∈ graph.vertices ∧ a.tail ∈ graph.vertices := by
    rw [(addBlocks_eq_ok hblocks).1]
    exact fun a ha => absurd ha (SortedMap.notMem_empty a)
  exact addEdges_ends hedges hempty ⟨head, tail⟩
    (SortedMap.mem_iff_get?.mpr ⟨kind, Digraph.edge_eq_ok.mp h⟩)

/-- A method gets exactly the edges that it asks for. -/
theorem ofBody_edges (hb : b.Ascending) (hg : ofBody b = .ok g) : g.EdgesOf b where
  single := SortedMap.nodup_keys _
  ends := fun _ _ _ => edge_ends hg
  conditional := by
    intro head tail
    rw [edge_iff_exits hb hg .conditional (by decide)]
    exact exists_congr fun last => and_congr_right fun _ => by simp [exits_iff]
  unconditional := by
    intro head tail
    rw [edge_iff_exits hb hg .unconditional (by decide)]
    exact exists_congr fun last => and_congr_right fun _ => by simp [exits_iff]
  fallThrough := fun _ _ => edge_fallThrough_iff hb hg
  abnormal := by
    intro head tail
    rw [edge_abnormal_iff hb hg, and_assoc]
    refine and_congr_right fun _ => and_congr_right fun _ => ?_
    constructor
    · intro h
      exact ⟨h .conditional (by decide), h .unconditional (by decide), h .fallThrough (by decide)⟩
    · rintro ⟨hconditional, hunconditional, hfallThrough⟩ kind hkind
      cases kind with
      | conditional => exact hconditional
      | unconditional => exact hunconditional
      | fallThrough => exact hfallThrough
      | abnormal => exact absurd rfl hkind

/-- The switch of `filteredSwitch` reaches the block after it by one edge, though control could also
fall through to it. -/
theorem ofBody_edges_filteredSwitch :
    filteredSwitch.Ascending ∧ ∃ g, ofBody filteredSwitch = .ok g ∧ g.EdgesOf filteredSwitch ∧
      g.graph.edges.entries =
        [(⟨0, 1⟩, .fallThrough), (⟨1, 15⟩, .conditional), (⟨1, 17⟩, .conditional),
          (⟨1, 19⟩, .abnormal), (⟨15, 19⟩, .abnormal), (⟨15, 26⟩, .unconditional),
          (⟨17, 19⟩, .abnormal), (⟨17, 26⟩, .unconditional), (⟨23, 26⟩, .unconditional)] := by
  have hascending : filteredSwitch.Ascending := by decide
  obtain ⟨g, hg, hedges⟩ := exists_of_map_eq_ok (r := ofBody filteredSwitch)
    (f := fun g => g.graph.edges.entries)
    (y := [(⟨0, 1⟩, .fallThrough), (⟨1, 15⟩, .conditional), (⟨1, 17⟩, .conditional),
      (⟨1, 19⟩, .abnormal), (⟨15, 19⟩, .abnormal), (⟨15, 26⟩, .unconditional),
      (⟨17, 19⟩, .abnormal), (⟨17, 26⟩, .unconditional), (⟨23, 26⟩, .unconditional)])
    (by decide +kernel)
  exact ⟨hascending, g, hg, ofBody_edges hascending hg, hedges⟩

end ControlFlowGraph

end CilAnalysis
