import CilAnalysis.Proofs.ControlFlow.Edges
import CilAnalysis.Proofs.DataFlow.Execution

/-!
# The control-flow graph and executions

Every execution is a path through the control-flow graph of its method: control goes from an
instruction to the next one of its block, or from the end of a block along an edge to the start of
another (`Interpreter.runWith_permitted`).  Where the way is not known, because the value that
decides it is not, the same holds of every way that is left open.

## Strategy

What an instruction does is known from its operation and operand (`Instruction.MayReach`): it may
reach its targets if it branches by the table, and the next instruction if it falls through by the
table.

* `ControlFlowGraph.Allows` is a step that the graph lets control take.  A branch gives one along an
  edge (`ControlFlowGraph.Allows.of_target`), and falling through one inside a block or along an
  edge (`ControlFlowGraph.Allows.of_next`).  A conditional branch to the block after it takes the
  place of falling through, but there is an edge all the same.
* `ControlFlowGraph.Permits` is what holds of a run as it is recorded.  It is kept when an executed
  instruction is put in front (`ControlFlowGraph.Permits.cons`), and so holds of every run by
  induction on the number of steps.
-/

namespace CilAnalysis

open MethodBody

theorem infix_pair_of_getElem? {α : Type} {l : List α} {place : Nat} {x y : α}
    (hx : l[place]? = some x) (hy : l[place + 1]? = some y) : [x, y] <:+: l := by
  obtain ⟨hlt, rfl⟩ := List.getElem?_eq_some_iff.mp hx
  obtain ⟨hlt', rfl⟩ := List.getElem?_eq_some_iff.mp hy
  refine ⟨l.take place, l.drop (place + 2), ?_⟩
  rw [List.append_assoc, List.cons_append, List.singleton_append, ← List.drop_eq_getElem_cons hlt',
    ← List.drop_eq_getElem_cons hlt, List.take_append_drop]

namespace ControlFlowGraph

/-- The graph lets control go from the instruction at an offset to that at another without an
exception: inside a block, or along an edge from the end of one to the start of one. -/
inductive Allows (g : ControlFlowGraph Instruction) (offset offset' : Nat) : Prop
  | inside {node : FlowNode Instruction} {i j : Instruction} (hnode : node ∈ g.nodes)
      (hpair : [i, j] <:+: node.block.instructions) (hoffset : i.offset = offset)
      (hoffset' : j.offset = offset')
  | along {head tail : FlowNode Instruction} {last first : Instruction} {kind : EdgeKind}
      (hhead : head ∈ g.nodes) (hlast : head.block.instructions.getLast? = some last)
      (hoffset : last.offset = offset) (htail : tail ∈ g.nodes)
      (hfirst : tail.block.instructions.head? = some first) (hoffset' : first.offset = offset')
      (hedge : g.graph.edge head.block.offset tail.block.offset = .ok kind)
      (hkind : kind ≠ .abnormal)

variable {b : MethodBody} {g : ControlFlowGraph Instruction} {i j : Instruction}
  {block next : BasicBlock Instruction}

private theorem nodeOf_mem_nodes (hb : b.Ascending) (hg : ofBody b = .ok g)
    (hblock : block ∈ b.blocks) : nodeOf g.regions block ∈ g.nodes := by
  rw [nodes_ofBody hb hg]
  exact List.mem_map_of_mem hblock

/-- Where control leaves a block as its last instruction says, there is an edge. -/
theorem Allows.of_exits (hb : b.Ascending) (hg : ofBody b = .ok g) (hblock : block ∈ b.blocks)
    (hlast : block.instructions.getLast? = some i) (hnext : next ∈ b.blocks)
    (hfirst : next.instructions.head? = some j) {kind : EdgeKind}
    (hexits : Exits i (g.Precedes block.offset next.offset) next.offset kind) :
    g.Allows i.offset j.offset := by
  have hkind : kind ≠ .abnormal := by
    rintro rfl
    exact nomatch hexits
  have hedge : g.graph.edge block.offset next.offset = .ok kind :=
    (edge_iff_exits hb hg kind hkind).mpr
      ⟨i, (endsWith_iff hg).mpr ⟨block, hblock, rfl, hlast⟩, hexits⟩
  exact .along (nodeOf_mem_nodes hb hg hblock) hlast rfl (nodeOf_mem_nodes hb hg hnext) hfirst rfl
    hedge hkind

theorem Allows.of_target (hb : b.Ascending) (hg : ofBody b = .ok g) (hi : i ∈ b.instructions)
    (hj : j ∈ b.instructions)
    (hflow : i.opcode.flow = .branch ∨ i.opcode.flow = .conditionalBranch)
    (htarget : j.offset ∈ i.targets) : g.Allows i.offset j.offset := by
  have hleads := leads_of_target hi htarget
  obtain ⟨block, hblock, hi⟩ := exists_block hi
  obtain ⟨next, hnext, hj⟩ := exists_block hj
  -- A branch ends its block, and its target starts one.
  have hends : i.opcode.flow.endsBlock = true := by
    rcases hflow with h | h <;> rw [h] <;> rfl
  have hlast := getLast?_of_endsBlock hblock hi hends
  have hfirst := head?_of_leads hnext hj hleads
  have hoffset := offset_of_head? hnext hfirst
  rw [← hoffset] at htarget
  rcases hflow with hflow | hflow
  · exact .of_exits hb hg hblock hlast hnext hfirst (.unconditional hflow htarget)
  · exact .of_exits hb hg hblock hlast hnext hfirst (.conditional hflow htarget)

theorem Allows.of_next (hb : b.Ascending) (hg : ofBody b = .ok g)
    (hpair : [i, j] <:+: b.instructions) (hfalls : i.opcode.flow.fallsThrough = true) :
    g.Allows i.offset j.offset := by
  rw [← flatMap_cutBlocks b.leaders.contains b.instructions] at hpair
  have hne : ∀ block ∈ b.blocks, block.instructions ≠ [] := by
    intro block hblock hnil
    obtain ⟨first, hfirst, -⟩ := exists_head_of_mem_cutBlocks hblock
    rw [hnil] at hfirst
    exact nomatch hfirst
  rcases infix_pair_flatMap hne hpair with ⟨block, hblock, hpair⟩ |
    ⟨block, next, hblocks, hlast, hfirst⟩
  · exact .inside (nodeOf_mem_nodes hb hg hblock) hpair rfl rfl
  · have hblock : block ∈ b.blocks := hblocks.subset (by simp)
    have hnext : next ∈ b.blocks := hblocks.subset (by simp)
    have hprecedes : g.Precedes block.offset next.offset := by
      unfold Precedes
      rw [keys_ofBody hb hg]
      exact hblocks.map BasicBlock.offset
    -- A branch to the block after it takes the place of falling through.
    by_cases hbranch : i.opcode.flow = .conditionalBranch ∧ next.offset ∈ i.targets
    · exact .of_exits hb hg hblock hlast hnext hfirst (.conditional hbranch.1 hbranch.2)
    · exact .of_exits hb hg hblock hlast hnext hfirst
        (.fallThrough hfalls hprecedes fun hflow htarget => hbranch ⟨hflow, htarget⟩)

/-- Wherever an instruction may send control, the graph lets it go. -/
theorem Allows.of_mayReach (hb : b.Contiguous) (hg : ofBody b = .ok g) {place : Nat}
    (hplace : b.instructions[place]? = some i) {offset : Nat}
    (hreach : i.expand.MayReach i.opcode.operation offset) (hoffset : b.isOffset offset = true) :
    g.Allows i.offset offset := by
  have hi := List.mem_of_getElem? hplace
  obtain ⟨j, hj, hjoffset⟩ := List.any_eq_true.mp hoffset
  obtain rfl := beq_iff_eq.mp hjoffset
  -- The table that names the flow of an opcode agrees with what its operation does.
  rcases hreach with ⟨hbranches, htarget⟩ | ⟨hfalls, hnext⟩
  · exact .of_target hb.ascending hg hi hj (Opcode.flow_branches hbranches)
      (i.targets_expand_subset htarget)
  · rw [Instruction.next_expand] at hnext
    obtain ⟨q, hq⟩ := List.mem_iff_getElem?.mp hj
    obtain rfl := hb.place_eq hplace hq hnext
    refine .of_next hb.ascending hg ?_ (Opcode.flow_fallsThrough hfalls)
    exact infix_pair_of_getElem? hplace hq

/-- The graph is entered at the block that the method starts with. -/
theorem entry_ofBody (hb : b.Contiguous) (hg : ofBody b = .ok g) :
    ∃ node, g.graph.vertex g.entry = .ok node ∧
      node.block.instructions.head? = b.instructions.head? := by
  obtain ⟨first, graph, hfirst, -, -, -, -, -, hentry⟩ := ofBody_eq_ok hg
  obtain ⟨block, hblock, hhead⟩ :=
    (head?_block_iff hb.ascending hb.2 (List.mem_of_mem_head? hfirst)).mpr
      (.first hfirst)
  have hoffset : block.offset = g.entry :=
    (offset_of_head? hblock hhead).trans hentry.symm
  exact ⟨_, (vertex_ofBody hg).mpr ⟨block, hblock, hoffset, rfl⟩, hhead.trans hfirst.symm⟩

/-- What a run from an offset executes is a path through the graph: every instruction leaves open
only what the graph lets control do, and one of these is done next. -/
structure Permits (g : ControlFlowGraph Instruction) (b : MethodBody) (offset : Nat)
    (record : List Executed) : Prop where
  start : ∀ e, record.head? = some e → e.instruction.offset = offset ∧ b.isOffset offset = true
  leaves : ∀ e ∈ record, ∀ t, e.outcome = .ok t → ∀ next ∈ t.targets e.instruction.next,
    b.isOffset next = true → g.Allows e.instruction.offset next
  path : record.IsChain fun e e' => g.Allows e.instruction.offset e'.instruction.offset

namespace Permits

variable {offset next : Nat} {e : Executed} {rest : List Executed} {t : Successor}

theorem nil : g.Permits b offset [] where
  start := by simp
  leaves := by simp
  path := .nil

theorem singleton (hoffset : e.instruction.offset = offset) (hisOffset : b.isOffset offset = true)
    (hleaves : ∀ t, e.outcome = .ok t → ∀ next ∈ t.targets e.instruction.next,
      b.isOffset next = true → g.Allows e.instruction.offset next) : g.Permits b offset [e] where
  start := by
    rintro _ ⟨⟩
    exact ⟨hoffset, hisOffset⟩
  leaves := List.forall_mem_singleton.mpr hleaves
  path := .singleton e

theorem cons (hhead : g.Permits b offset [e]) (houtcome : e.outcome = .ok t)
    (hnext : next ∈ t.targets e.instruction.next) (hrest : g.Permits b next rest) :
    g.Permits b offset (e :: rest) where
  start := hhead.start
  leaves := List.forall_mem_cons.mpr ⟨List.forall_mem_singleton.mp hhead.leaves, hrest.leaves⟩
  path := by
    refine List.isChain_cons.mpr ⟨fun e' he' => ?_, hrest.path⟩
    obtain ⟨hoffset, hisOffset⟩ := hrest.start e' he'
    rw [hoffset]
    exact hhead.leaves e List.mem_cons_self t houtcome next hnext hisOffset

end Permits

end ControlFlowGraph

namespace Interpreter

open ControlFlowGraph

variable {p : Interpreter} {b : MethodBody} {g : ControlFlowGraph Instruction}

/-- What an executed instruction leaves open is among what it may reach. -/
theorem dispatch_mayReach (hhooks : p.hooks = []) {s : Setting} {i : Instruction} {m m' : Machine}
    {t : Successor} (hrun : (p.dispatch s i).run m = (.ok t, m')) {offset : Nat}
    (hoffset : offset ∈ t.targets i.next) : i.MayReach i.opcode.operation offset := by
  rw [dispatch_eq_executeBare hhooks, executeBare] at hrun
  split at hrun
  next => exact (s.perform_leads i _ m t m' hrun).mayReach hoffset
  next => exact nomatch hrun

private theorem mem_targets_of_continuation {i : Instruction} {m : Machine} {t : Successor}
    {next : Nat} (h : continuation i m t = .inl next) : next ∈ t.targets i.next := by
  cases t with
  | fallThrough => exact List.mem_singleton.mpr (Sum.inl.inj h).symm
  | branch target => exact List.mem_singleton.mpr (Sum.inl.inj h).symm
  | _ => exact nomatch h

private theorem recordFrom_permits (hhooks : p.hooks = []) (hb : b.Contiguous)
    (hg : ControlFlowGraph.ofBody b = .ok g) (s : Setting) (steps offset : Nat) (σ : Provenance)
    (m : Machine) : g.Permits b offset (p.recordFrom s b.expand steps offset σ m).1 := by
  induction steps generalizing offset σ m with
  | zero => exact .nil
  | succ steps ih =>
      unfold recordFrom
      cases hfound : b.expand.instructionAt offset with
      | error e => exact .nil
      | ok i' =>
          -- What is executed is the expansion of the instruction at this offset.
          obtain ⟨place, i, hplace, rfl, rfl⟩ := exists_of_instructionAt_expand hfound
          dsimp only
          cases hrun : (p.dispatch s i.expand).run m with
          | mk outcome m' =>
              have hisOffset : b.isOffset i.offset = true :=
                List.any_eq_true.mpr ⟨i, List.mem_of_getElem? hplace, beq_self_eq_true _⟩
              have hhead : g.Permits b i.offset [⟨i.expand, σ, m, outcome, m'⟩] := by
                refine .singleton i.offset_expand hisOffset ?_
                rintro t rfl next hnext hisOffset
                have hreach := dispatch_mayReach hhooks hrun hnext
                rw [Instruction.operation_expand] at hreach
                rw [Instruction.offset_expand]
                exact .of_mayReach hb hg hplace hreach hisOffset
              cases outcome with
              | error fault => exact hhead
              | ok t =>
                  dsimp only
                  cases hnext : continuation i.expand m' t with
                  | inl next =>
                      -- The rest of the run starts at one of the offsets left open here.
                      exact hhead.cons rfl (mem_targets_of_continuation hnext) (ih next _ m')
                  | inr outcome => exact hhead

/-- Every execution is a path through the control-flow graph.  A run starts at the node where the
graph is entered.  Wherever an instruction that it executes sends control, or may send it where the
way is not known, the graph has the instruction next in the same block, or an edge from the end of
the block to the start of another. -/
theorem runWith_permitted (hhooks : p.hooks = []) (hb : b.Contiguous)
    (hg : ControlFlowGraph.ofBody b = .ok g) (m : Machine) :
    (∃ node, g.graph.vertex g.entry = .ok node ∧
        node.block.instructions.head? = b.instructions.head?) ∧
      p.runWith b m = p.runFrom (p.setting b) b.expand p.options.maxSteps g.entry m ∧
      (p.recordWith b m).2 = p.runWith b m ∧ g.Permits b g.entry (p.recordWith b m).1 := by
  obtain ⟨first, graph, hfirst, -, -, -, -, -, hentry⟩ := ofBody_eq_ok hg
  obtain ⟨rest, hsplit⟩ : ∃ rest, b.instructions = first :: rest := List.head?_eq_some_iff.mp hfirst
  have hexpand : b.expand.instructions = first.expand :: rest.map Instruction.expand := by
    show b.instructions.map Instruction.expand = _
    rw [hsplit, List.map_cons]
  have hoffset : first.expand.offset = g.entry := by rw [hentry, Instruction.offset_expand]
  refine ⟨entry_ofBody hb hg, ?_, p.recordWith_snd b m, ?_⟩
  · unfold runWith
    rw [hexpand]
    dsimp only
    rw [hoffset]
  · unfold recordWith
    rw [hexpand]
    dsimp only
    rw [hoffset]
    exact recordFrom_permits hhooks hb hg _ _ _ _ _

/-- Counting down from two goes round twice, along the four edges of the graph. -/
theorem runWith_permitted_countdown :
    countdown.Contiguous ∧ ∃ g, ControlFlowGraph.ofBody countdown = .ok g ∧
      g.graph.edges.entries = [(⟨0, 2⟩, .fallThrough), (⟨2, 6⟩, .fallThrough),
        (⟨2, 11⟩, .conditional), (⟨6, 2⟩, .unconditional)] ∧
      (({} : Interpreter).recordWith countdown (countdownFrom 2)).1.map
        (fun e => e.instruction.offset) =
          [0, 1, 2, 3, 4, 6, 7, 8, 9, 2, 3, 4, 6, 7, 8, 9, 2, 3, 4, 11] ∧
      g.Permits countdown g.entry
        (({} : Interpreter).recordWith countdown (countdownFrom 2)).1 := by
  have hcontiguous : countdown.Contiguous := by decide
  obtain ⟨g, hg, hedges⟩ := exists_of_map_eq_ok (r := ControlFlowGraph.ofBody countdown)
    (f := fun g => g.graph.edges.entries)
    (y := [(⟨0, 2⟩, .fallThrough), (⟨2, 6⟩, .fallThrough), (⟨2, 11⟩, .conditional),
      (⟨6, 2⟩, .unconditional)]) (by decide +kernel)
  have hpermitted := runWith_permitted (p := {}) rfl hcontiguous hg (countdownFrom 2)
  exact ⟨hcontiguous, g, hg, hedges, by decide +kernel, hpermitted.2.2.2⟩

end Interpreter

end CilAnalysis
