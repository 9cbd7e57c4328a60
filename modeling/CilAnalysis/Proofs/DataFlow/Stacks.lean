import CilAnalysis.Proofs.DataFlow.Heights
import CilAnalysis.Proofs.DataFlow.MergeOverPaths

/-!
# What is on the stack

Along a path from where control enters, every value on the stack was pushed by an instruction or was
there at the start (`MethodBody.StackPath`).  For the stack alone the data-flow graph of a method
merges these paths, whatever clauses the method has (`DataFlowGraph.ofBody_mergesStacks`): where
several of them are entered in one place the paths start as the last one asks for.

This is both more and less than the merge over all paths.  It says nothing about variables, and so
it needs no exceptions: a handler finds on the stack what its clause puts there, whatever was
raised.

## Strategy

* *No sources but those of paths.*  This is a law for stacks (`MethodBody.Balanced.pathLaw`),
  stronger than the one about heights.
* *All paths are found* by induction along a path in a collection that has come to rest
  (`FlowProgress.Valid.exists_of_stackPath`).

Both use that an instruction leaves on top what it pushed, and under that what was below the values
it took (`pushedAt_valuesAfter`).

Besides, every value that a path has on the stack was pushed by an instruction that some path comes
to (`MethodBody.StackPath.exists_producer`), and all paths to a place have stacks of one height
(`MethodBody.StackPath.length_eq`).
-/

namespace CilAnalysis

/-- A value on the stack: the offset of the instruction that pushed it and its place among the
values that were pushed, or nothing for a value that was there when control entered. -/
abbrev StackValue := Option (Nat × Nat)

namespace Instruction

/-- The values that an instruction pushes, the top first. -/
def pushedValues (i : Instruction) : List StackValue :=
  (List.range i.pushCount).reverse.map fun slot => some (i.offset, slot)

theorem length_pushedValues (i : Instruction) : i.pushedValues.length = i.pushCount := by
  simp [pushedValues]

theorem mem_pushedValues {i : Instruction} {v : StackValue} :
    v ∈ i.pushedValues ↔ ∃ slot < i.pushCount, v = some (i.offset, slot) := by
  simp [pushedValues, eq_comm]

/-- The values on the stack after an instruction, which takes `pops` of them. -/
def valuesAfter (i : Instruction) (pops : Nat) (stack : List StackValue) : List StackValue :=
  i.pushedValues ++ if i.clearsStack then [] else stack.drop pops

theorem length_valuesAfter (i : Instruction) (pops : Nat) (stack : List StackValue) :
    (i.valuesAfter pops stack).length =
      i.pushCount + if i.clearsStack then 0 else stack.length - pops := by
  unfold valuesAfter
  by_cases hclears : i.clearsStack <;> simp [hclears, length_pushedValues]

/-- After an instruction there are the values it pushed and some that were there before. -/
theorem mem_valuesAfter {i : Instruction} {pops : Nat} {stack : List StackValue} {v : StackValue}
    (h : v ∈ i.valuesAfter pops stack) :
    (∃ slot < i.pushCount, v = some (i.offset, slot)) ∨ v ∈ stack := by
  rcases List.mem_append.mp h with h | h
  · exact .inl (mem_pushedValues.mp h)
  · split at h
    next => exact absurd h List.not_mem_nil
    next => exact .inr (List.mem_of_mem_drop h)

end Instruction

/-- Along some path control comes to a place, where the given values are on the stack. -/
inductive MethodBody.StackPath (b : MethodBody) : Nat → List StackValue → Prop
  | enter {q n : Nat} (h : b.entryHeight? q = some n) : StackPath b q (List.replicate n none)
  | flow {q q' : Nat} {i : Instruction} {stack : List StackValue} (hbefore : StackPath b q stack)
      (hplace : b.instructions[q]? = some i) (hflows : b.FlowsTo q i q') :
      StackPath b q' (i.valuesAfter (i.popCount b.returnsValue) stack)

/-- To every reachable instruction there is a path. -/
theorem MethodBody.Reachable.exists_stackPath {b : MethodBody} {q : Nat} (h : b.Reachable q) :
    ∃ stack, b.StackPath q stack := by
  induction h with
  | first _ =>
      obtain ⟨n, hn⟩ := exists_entryHeight? (b := b) (q := 0) (.inl rfl)
      exact ⟨_, .enter hn⟩
  | entry hc hplace henters =>
      obtain ⟨n, hn⟩ := exists_entryHeight? (.inr ⟨_, hc, _, hplace, henters⟩)
      exact ⟨_, .enter hn⟩
  | flow _ hplace hflows ih =>
      obtain ⟨stack, hstack⟩ := ih
      exact ⟨_, .flow hstack hplace hflows⟩

namespace MethodBody.StackPath

variable {b : MethodBody} {height : Nat → Nat} {q : Nat} {stack : List StackValue}

theorem reachable (h : b.StackPath q stack) (hb : b.instructions ≠ []) : b.Reachable q := by
  induction h with
  | enter hentry => exact reachable_of_entryHeight? hb hentry
  | flow _ hplace hflows ih => exact .flow ih hplace hflows

/-- Along all paths the stack has the same heights, if there are balanced ones. -/
theorem length_eq (h : b.StackPath q stack) (hb : b.instructions ≠ [])
    (hbalanced : b.Balanced height) (hstart : b.StartsAt height) : stack.length = height q := by
  induction h with
  | enter hentry => rw [List.length_replicate, hstart _ _ hentry]
  | flow hbefore hplace hflows ih =>
      rw [Instruction.length_valuesAfter, ih,
        hbalanced.flows _ _ _ (hbefore.reachable hb) hplace hflows]

/-- Values were pushed by instructions that paths come to. -/
theorem exists_producer (h : b.StackPath q stack) {o slot : Nat} (hv : some (o, slot) ∈ stack) :
    ∃ q i stack, b.instructions[q]? = some i ∧ i.offset = o ∧ slot < i.pushCount ∧
      b.StackPath q stack := by
  induction h with
  | enter => exact nomatch List.eq_of_mem_replicate hv
  | flow hbefore hplace _ ih =>
      rcases Instruction.mem_valuesAfter hv with ⟨slot', hslot, heq⟩ | hv
      · obtain ⟨rfl, rfl⟩ := Prod.mk.inj (Option.some.inj heq)
        exact ⟨_, _, _, hplace, rfl, hslot, hbefore⟩
      · exact ih hv

end MethodBody.StackPath

/-! ## Paths and states -/

/-- A value in some depth is one that an instruction pushed. -/
def PushedAt (stack : List StackValue) (graph depth : Nat) (source : DataSource) : Prop :=
  stack[depth]? = some (some (source.node, source.slot)) ∧ source.graph = graph

/-- What an instruction pushed is on top after it, and what was below the values it took under that,
unless it empties the stack. -/
theorem pushedAt_valuesAfter {i : Instruction} {pops graph depth : Nat} {stack : List StackValue}
    {source : DataSource} :
    PushedAt (i.valuesAfter pops stack) graph depth source ↔
      if depth < i.pushCount then source = ⟨graph, i.offset, i.pushCount - 1 - depth⟩
      else i.clearsStack = false ∧ PushedAt stack graph (pops + (depth - i.pushCount)) source :=
  Provenance.after_has (σ := ⟨stack, fun _ => none⟩) (f := .slot depth source)

/-- The state before an instruction has the stacks of all paths to it, and no others. -/
structure MethodBody.MergesStacks (b : MethodBody) (graph q : Nat) (s : FlowState) : Prop where
  reached : ∃ stack, b.StackPath q stack
  height : ∀ stack, b.StackPath q stack → stack.length = s.stack.length
  sources : ∀ depth source, s.Has (.slot depth source) ↔
    ∃ stack, b.StackPath q stack ∧ PushedAt stack graph depth source

/-- That there are no sources but those of paths is a law. -/
theorem MethodBody.Balanced.pathLaw {b : MethodBody} {height : Nat → Nat} (h : b.Balanced height)
    (hb : b.instructions ≠ []) (hstart : b.StartsAt height) (htargets : b.TargetsPlaced)
    (graph : Nat) :
    StackLaw b graph fun q stack => (b.Reachable q ∧ stack.length = height q) ∧
      (∃ values, b.StackPath q values) ∧ ∀ depth source,
        (⟨stack, .empty⟩ : FlowState).Has (.slot depth source) →
          ∃ values, b.StackPath q values ∧ PushedAt values graph depth source := by
  have hheights := h.stackLaw hb hstart htargets graph
  refine ⟨?_, ?_, ?_, ?_, ?_⟩
  · intro q n hn
    refine ⟨hheights.enter q n hn, ⟨_, .enter hn⟩, fun depth source hhas => ?_⟩
    exact absurd hhas (FlowState.not_has_ofHeight n _)
  · rintro q s t ⟨hs, hreached, hsources⟩ ⟨ht, -, hsources'⟩
    obtain ⟨hlength, hmerged⟩ := hheights.merge q s t hs ht
    refine ⟨hlength, hmerged, hreached, fun depth source hhas => ?_⟩
    have hmerge : (⟨s, .empty⟩ : FlowState).merge ⟨t, .empty⟩ 0 =
        .ok ⟨s.zipWith SortedSet.union t, FlowState.mergeVariables .empty .empty⟩ := by
      unfold FlowState.merge
      rw [if_pos hlength]
    rcases ((FlowState.merge_has hmerge).2.2 (.slot depth source)).mp hhas with hhas | hhas
    · exact hsources depth source hhas
    · exact hsources' depth source hhas
  · exact fun q i s hs => hheights.enough q i s hs.1
  · exact fun q i s hs => hheights.targets q i s hs.1
  · rintro q i s q' ⟨hs, ⟨values, hvalues⟩, hsources⟩ hi hflows
    refine ⟨hheights.flow q i s q' hs hi hflows, ⟨_, .flow hvalues hi hflows⟩, ?_⟩
    intro depth source hhas
    -- A source after the instruction is the instruction itself, or was there before, on some path
    -- that goes on here.
    have hcarry : i.carry graph (i.popCount b.returnsValue) (⟨s, .empty⟩ : FlowState).Has
        (.slot depth source) := Instruction.flow_has.mp hhas
    simp only [Instruction.carry] at hcarry
    by_cases hpushed : depth < i.pushCount
    · refine ⟨_, .flow hvalues hi hflows, pushedAt_valuesAfter.mpr ?_⟩
      rwa [if_pos hpushed] at hcarry ⊢
    · rw [if_neg hpushed] at hcarry
      obtain ⟨values', hvalues', hpushedAt⟩ := hsources _ source hcarry.2
      refine ⟨_, .flow hvalues' hi hflows, pushedAt_valuesAfter.mpr ?_⟩
      rw [if_neg hpushed]
      exact ⟨hcarry.1, hpushedAt⟩

/-- A collection that has come to rest has found the stacks of all paths. -/
theorem FlowProgress.Valid.exists_of_stackPath {b : MethodBody} {graph : Nat}
    {x₀ x : FlowProgress} (hb : b.Ascending)
    (hstart : (FlowProblem.ofBody graph b).start = .ok x₀) (hx : Valid b graph x₀ x)
    (hrest : ∀ q, q ∉ x.queue) {q : Nat} {stack : List StackValue} (h : b.StackPath q stack) :
    ∃ s, x.states.get? q = some s ∧ stack.length = s.stack.length ∧
      ∀ depth source, PushedAt stack graph depth source → s.Has (.slot depth source) := by
  induction h with
  | @enter q n hentry =>
      have hfirst := FlowProblem.states_start hb hstart q
      rw [hentry, Option.map_some] at hfirst
      obtain ⟨s, hs, hbelow⟩ := hx.rooted q _ hfirst
      refine ⟨s, hs, ?_, fun depth source hpushed => ?_⟩
      · rw [← hbelow.height]
        exact List.length_replicate.trans List.length_replicate.symm
      · exact nomatch List.eq_of_mem_replicate (List.mem_of_getElem? hpushed.1)
  | @flow q q' i stack _ hplace hflows ih =>
      obtain ⟨s, hs, hlength, hsources⟩ := ih
      obtain ⟨t, ht, hbelow⟩ := (hx.settled q i s hplace hs (hrest q)).flows q' hflows
      refine ⟨t, ht, ?_, fun depth source hpushed => hbelow.has _ (Instruction.flow_has.mpr ?_)⟩
      · calc (i.valuesAfter (i.popCount b.returnsValue) stack).length
            = i.pushCount + if i.clearsStack then 0
                else stack.length - i.popCount b.returnsValue := i.length_valuesAfter ..
          _ = i.pushCount + if i.clearsStack then 0
                else s.stack.length - i.popCount b.returnsValue := by rw [hlength]
          _ = (i.flow graph (i.popCount b.returnsValue) s).stack.length :=
              (Instruction.length_flow_stack s).symm
          _ = t.stack.length := hbelow.height
      · rw [pushedAt_valuesAfter] at hpushed
        simp only [Instruction.carry]
        by_cases hnew : depth < i.pushCount
        · rwa [if_pos hnew] at hpushed ⊢
        · rw [if_neg hnew] at hpushed ⊢
          exact ⟨hpushed.1, hsources _ source hpushed.2⟩

theorem DataFlowGraph.exists_instruction_of_node {b : MethodBody} {id : Nat} {g : DataFlowGraph}
    (hb : b.Ascending) (hg : ofBody b id = .ok g) {o : Nat} {n : DataFlowNode}
    (hn : g.nodes.get? o = some n) :
    ∃ (q : Nat) (i : Instruction), b.instructions[q]? = some i ∧ i.offset = o := by
  obtain ⟨x₀, x, -, hvalid, -, rfl⟩ := ofBody_eq_ok hb hg
  obtain ⟨q, i, hi, hoffset, -⟩ := hvalid.node o (SortedMap.mem_iff_get?.mpr ⟨n, hn⟩)
  exact ⟨q, i, hi, hoffset⟩

/-- The node of an instruction is made of the stacks of all paths to it, and every instruction that
a path comes to has a node. -/
theorem DataFlowGraph.ofBody_mergesStacks {b : MethodBody} {id : Nat} {g : DataFlowGraph}
    (hb : b.Ascending) (hg : ofBody b id = .ok g) {q : Nat} {i : Instruction}
    (hplace : b.instructions[q]? = some i) :
    (∀ n, g.nodes.get? i.offset = some n → ∃ s, b.MergesStacks id q s ∧
      i.popCount b.returnsValue ≤ s.stack.length ∧
        n = i.flowNode id (i.popCount b.returnsValue) s) ∧
    ((∃ stack, b.StackPath q stack) → ∃ n, g.nodes.get? i.offset = some n) := by
  obtain ⟨hne, hentries, htargets, height, hstarts, hbalanced⟩ :=
    (exists_ofBody_iff hb id).mp ⟨g, hg⟩
  obtain ⟨-, x₀, x, hstart, hrun, -, hvalid, hrest, rfl⟩ := ofBody_run hb hg
  obtain ⟨y, hy, hlaw⟩ := (hbalanced.pathLaw hne hstarts htargets id).run hb hentries hstart
    (FlowProblem.ofBody id b).visitBound
  obtain rfl := Except.ok.inj (hrun.symm.trans hy)
  constructor
  · intro n hn
    obtain ⟨s, hs, henough, rfl⟩ := hvalid.exists_state hb hrest hplace hn
    obtain ⟨-, hreached, hsources⟩ := hlaw q s hs
    refine ⟨s, ⟨hreached, fun stack hstack => ?_, fun depth source => ⟨hsources depth source, ?_⟩⟩,
      henough, rfl⟩
    · obtain ⟨t, ht, hlength, -⟩ := hvalid.exists_of_stackPath hb hstart hrest hstack
      rwa [Option.some.inj (hs.symm.trans ht)]
    · rintro ⟨stack, hstack, hpushed⟩
      obtain ⟨t, ht, -, hfound⟩ := hvalid.exists_of_stackPath hb hstart hrest hstack
      rw [Option.some.inj (hs.symm.trans ht)]
      exact hfound depth source hpushed
  · rintro ⟨stack, hstack⟩
    obtain ⟨s, hs, -⟩ := hvalid.exists_of_stackPath hb hstart hrest hstack
    exact ⟨_, (hvalid.settled q i s hplace hs (hrest q)).node⟩

end CilAnalysis
