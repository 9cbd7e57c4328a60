import CilAnalysis.Proofs.DataFlow.Fixpoint

/-!
# The data-flow graph merges all paths

The sources in the graph of a method are those of the paths through it, all of them and no others
(`DataFlowGraph.ofBody_mergesPaths`).

## Strategy

* *No others.*  This is an invariant of the collection, `FlowProgress.Sound`: every fact of a state
  holds along some path.
* *All of them.*  This follows by induction along a path from what holds once the collection has
  come to rest, where every instruction is settled (`FlowProgress.Valid.holds`).  The step along
  each kind of edge is one lemma: `FlowProgress.Holds.flow` for control that goes on, and
  `FlowProgress.Holds.raise` for an exception.
* *Nodes.*  What a node says is read off the state that it was made of
  (`Instruction.flowNode_mergesPaths`).

Heights are what the argument for completeness turns on: the state in which control enters must have
the height with which a path starts there (`FlowProgress.Rooted`).  So the first instruction is no
entry of a handler, and the clauses that share an entry agree on whether they receive an exception.
-/

namespace CilAnalysis

open FlowProgress

/-! ## What the node of an instruction says -/

namespace Instruction

variable {i : Instruction} {graph pops : Nat} {s : FlowState}

private theorem nodup_variablesRead (i : Instruction) : i.variablesRead.Nodup := by
  unfold variablesRead
  split
  · cases i.slot? <;> simp
  · simp

theorem length_flowNode_items (hpops : pops ≤ s.stack.length) :
    (i.flowNode graph pops s).stack.items.length = pops := by
  simp [flowNode, hpops]

theorem mem_flowNode_items (hpops : pops ≤ s.stack.length) {k : Nat} {d : StackDependency}
    (hd : (i.flowNode graph pops s).stack.items[k]? = some d) {source : DataSource} :
    source ∈ d.sources ↔ s.Has (.slot (pops - 1 - k) source) := by
  have hk : k < pops := by
    obtain ⟨hk, -⟩ := List.getElem?_eq_some_iff.mp hd
    rwa [length_flowNode_items hpops] at hk
  have hlength : (s.stack.take pops).length = pops := by rw [List.length_take]; omega
  unfold flowNode at hd
  rw [List.getElem?_map, List.getElem?_reverse (by omega), hlength,
    List.getElem?_take_of_lt (by omega)] at hd
  obtain ⟨sources, hget, rfl⟩ := Option.map_eq_some_iff.mp hd
  unfold FlowState.Has
  constructor
  · exact fun h => ⟨sources, hget, h⟩
  · rintro ⟨sources', hget', hmem⟩
    rw [hget] at hget'
    obtain rfl := Option.some.inj hget'
    exact hmem

theorem get?_flowNode_byVariable {v : Variable} {sources : Sources} :
    (i.flowNode graph pops s).byVariable.get? v = some sources ↔
      v ∈ i.variablesRead ∧ sources = (s.byVariable.get? v).getD .empty := by
  have hnodup : ((i.variablesRead.map fun v => (v, (s.byVariable.get? v).getD .empty)).map
      Prod.fst).Nodup := by
    simpa [Function.comp_def] using i.nodup_variablesRead
  unfold flowNode
  rw [SortedMap.get?_ofList hnodup, List.mem_map]
  constructor
  · rintro ⟨w, hw, heq⟩
    obtain ⟨rfl, rfl⟩ := Prod.mk.inj heq
    exact ⟨hw, rfl⟩
  · rintro ⟨hv, rfl⟩
    exact ⟨v, hv, rfl⟩

theorem mem_flowNode_byVariable {v : Variable} {sources : Sources}
    (hv : (i.flowNode graph pops s).byVariable.get? v = some sources) {source : DataSource} :
    source ∈ sources ↔ s.Has (.writer v source) := by
  obtain ⟨-, rfl⟩ := get?_flowNode_byVariable.mp hv
  unfold FlowState.Has
  cases hget : s.byVariable.get? v with
  | none =>
      refine iff_of_false (SortedMap.notMem_empty source) ?_
      rintro ⟨_, h, -⟩
      rw [hget] at h
      exact nomatch h
  | some known => simp [hget]

end Instruction

/-! ## All paths are found -/

/-- A state that has the height of a path and all its facts. -/
structure Provenance.Within (σ : Provenance) (graph : Nat) (s : FlowState) : Prop where
  height : σ.stack.length = s.stack.length
  has : ∀ f, σ.Has graph f → s.Has f

namespace Provenance.Within

variable {σ : Provenance} {graph : Nat} {s t : FlowState}

theorem below (h : σ.Within graph s) (hst : s.Below t) : σ.Within graph t :=
  ⟨h.height.trans hst.height, fun f hf => hst.has f (h.has f hf)⟩

theorem ofHeight {height : Nat} (hheight : s.stack.length = height) :
    (Provenance.ofHeight height).Within graph s where
  height := by rw [hheight]; exact List.length_replicate
  has := fun _ hf => absurd hf (Provenance.not_has_ofHeight height)

theorem after (h : σ.Within graph s) (i : Instruction) (pops : Nat) :
    (σ.after i pops).Within graph (i.flow graph pops s) where
  height := by rw [length_after_stack, Instruction.length_flow_stack, h.height]
  has := by
    intro f hf
    exact Instruction.flow_has.mpr (Instruction.carry_mono h.has (Provenance.after_has.mp hf))

end Provenance.Within

namespace FlowProgress

variable {b : MethodBody} {graph : Nat} {x₀ x : FlowProgress}

/-- The states of a collection have the heights with which paths start: an empty stack at the first
instruction, and at the entries of the given clauses what these find there. -/
structure Rooted (b : MethodBody) (clauses : List Clause) (x : FlowProgress) : Prop where
  first : ∃ s, x.states.get? 0 = some s ∧ s.stack.length = 0
  entry : ∀ c ∈ clauses, ∀ q j, b.instructions[q]? = some j → c.EntersAt j.offset →
    ∃ s, x.states.get? q = some s ∧ s.stack.length = c.kind.receivesException.toNat

theorem Rooted.extends {clauses : List Clause} (h : Rooted b clauses x₀) (hx : Extends x₀ x) :
    Rooted b clauses x where
  first := by
    obtain ⟨s, hs, hheight⟩ := h.first
    obtain ⟨t, ht, hst⟩ := hx 0 s hs
    exact ⟨t, ht, hst.height ▸ hheight⟩
  entry := by
    intro c hc q j hj henters
    obtain ⟨s, hs, hheight⟩ := h.entry c hc q j hj henters
    obtain ⟨t, ht, hst⟩ := hx q s hs
    exact ⟨t, ht, hst.height ▸ hheight⟩

/-- The state before an instruction has what a path to it has. -/
def Holds (x : FlowProgress) (graph place : Nat) (σ : Provenance) : Prop :=
  ∃ s, x.states.get? place = some s ∧ σ.Within graph s

theorem Holds.flow (hx : Valid b graph x₀ x) (hrest : ∀ q, q ∉ x.queue) {place q : Nat}
    {i : Instruction} {σ : Provenance} (h : x.Holds graph place σ)
    (hplace : b.instructions[place]? = some i) (hq : b.FlowsTo place i q) :
    x.Holds graph q (σ.after i (i.popCount b.returnsValue)) := by
  obtain ⟨s, hs, hwithin⟩ := h
  obtain ⟨t, ht, hbelow⟩ := (hx.settled place i s hplace hs (hrest place)).flows q hq
  exact ⟨t, ht, (hwithin.after i _).below hbelow⟩

/-- A handler has the height with which its clause is entered, and the variables before and after
every instruction that is guarded. -/
theorem Holds.raise {clauses : List Clause} (hx : Valid b graph x₀ x) (hrest : ∀ q, q ∉ x.queue)
    (hroots : Rooted b clauses x) (hclauses : clauses ⊆ b.clauses) {place q : Nat}
    {i j : Instruction} {σ τ : Provenance} {c : Clause} (h : x.Holds graph place σ)
    (hplace : b.instructions[place]? = some i) (hc : c ∈ clauses) (hguards : c.guards i.offset)
    (hq : b.instructions[q]? = some j) (henters : c.EntersAt j.offset)
    (hτ : τ = σ ∨ τ = σ.after i (i.popCount b.returnsValue)) :
    x.Holds graph q (τ.raised c) := by
  obtain ⟨s, hs, hwithin⟩ := h
  obtain ⟨t, ht, hheight⟩ := hroots.entry c hc q j hq henters
  obtain ⟨t', ht', hvariables⟩ := (hx.settled place i s hplace hs (hrest place)).raises c
    (hclauses hc) hguards q j hq henters
  obtain rfl : t = t' := Option.some.inj (ht.symm.trans ht')
  refine ⟨t, ht, ?_, ?_⟩
  · rw [hheight]
    exact List.length_replicate
  · intro f hf
    obtain ⟨hv, hf⟩ := Provenance.raised_has.mp hf
    refine hvariables f hv ?_
    rcases hτ with rfl | rfl
    · exact Or.inl (hwithin.has f hf)
    · exact Or.inr ((hwithin.after i _).has f hf)

/-- Once nothing is queued any more, every path stays within the states. -/
theorem Valid.holds {clauses : List Clause} (hx : Valid b graph x₀ x)
    (hrest : ∀ q, q ∉ x.queue) (hroots : Rooted b clauses x₀) (hclauses : clauses ⊆ b.clauses)
    {place : Nat} {σ : Provenance} (hσ : b.Reaches clauses place σ) : x.Holds graph place σ := by
  have hroots := hroots.extends hx.rooted
  induction hσ with
  | start _ =>
      obtain ⟨s, hs, hheight⟩ := hroots.first
      exact ⟨s, hs, .ofHeight hheight⟩
  | enter hc hplace henters =>
      obtain ⟨s, hs, hheight⟩ := hroots.entry _ hc _ _ hplace henters
      exact ⟨s, hs, .ofHeight hheight⟩
  | next _ hplace hfalls htarget ih =>
      exact ih.flow hx hrest hplace ⟨_, htarget, Or.inl ⟨hfalls, rfl⟩⟩
  | branch _ hplace htarget hbranch ih =>
      exact ih.flow hx hrest hplace ⟨_, htarget, Or.inr hbranch⟩
  | raiseBefore _ hplace hc hguards htarget henters ih =>
      exact ih.raise hx hrest hroots hclauses hplace hc hguards htarget henters (Or.inl rfl)
  | raiseAfter _ hplace hc hguards htarget henters ih =>
      exact ih.raise hx hrest hroots hclauses hplace hc hguards htarget henters (Or.inr rfl)

/-- An instruction that has a node is one whose state the node was made of. -/
theorem Valid.exists_state (hb : b.Ascending) (hx : Valid b graph x₀ x) (hrest : ∀ q, q ∉ x.queue)
    {place : Nat} {i : Instruction} {n : DataFlowNode} (hplace : b.instructions[place]? = some i)
    (hn : x.nodes.get? i.offset = some n) :
    ∃ s, x.states.get? place = some s ∧ i.popCount b.returnsValue ≤ s.stack.length ∧
      n = i.flowNode graph (i.popCount b.returnsValue) s := by
  obtain ⟨q, j, hj, hoffset, hq⟩ := hx.node i.offset (SortedMap.mem_iff_get?.mpr ⟨n, hn⟩)
  obtain rfl : q = place := hb.eq_of_offset_eq hj hplace hoffset
  obtain ⟨s, hs⟩ := SortedMap.mem_iff_get?.mp hq
  have hsettled := hx.settled q i s hplace hs (hrest q)
  exact ⟨s, hs, hsettled.enough, Option.some.inj (hn.symm.trans hsettled.node)⟩

/-- Control enters with an empty stack at a first instruction that is no entry of a handler. -/
theorem Entered.rooted_nil (hx : x.Entered b b.clauses)
    (hfirst : ∀ c ∈ b.clauses, ∀ i, b.instructions[0]? = some i → ¬ c.EntersAt i.offset) :
    Rooted b [] x where
  first := by
    obtain ⟨s, hs⟩ := SortedMap.mem_iff_get?.mp hx.first
    obtain ⟨height, rfl, ⟨-, rfl⟩ | ⟨c, hc, j, hj, henters, -⟩⟩ := hx.root 0 s hs
    · exact ⟨_, hs, rfl⟩
    · exact absurd henters (hfirst c hc j hj)
  entry := fun _ hc => absurd hc List.not_mem_nil

theorem Entered.rooted (hx : x.Entered b b.clauses)
    (hfirst : ∀ c ∈ b.clauses, ∀ i, b.instructions[0]? = some i → ¬ c.EntersAt i.offset)
    (hagree : ∀ c ∈ b.clauses, ∀ d ∈ b.clauses, ∀ offset, c.EntersAt offset → d.EntersAt offset →
      c.kind.receivesException = d.kind.receivesException) :
    Rooted b b.clauses x where
  first := (hx.rooted_nil hfirst).first
  entry := by
    intro c hc q j hj henters
    obtain ⟨s, hs⟩ := SortedMap.mem_iff_get?.mp (hx.entries c hc q j hj henters)
    -- The state may have been put there for another clause, and then the two agree.
    obtain ⟨height, rfl, ⟨rfl, -⟩ | ⟨d, hd, j', hj', henters', rfl⟩⟩ := hx.root q s hs
    · exact absurd henters (hfirst c hc j hj)
    · obtain rfl : j = j' := Option.some.inj (hj.symm.trans hj')
      refine ⟨_, hs, ?_⟩
      rw [hagree c hc d hd j.offset henters henters']
      exact List.length_replicate

end FlowProgress

/-! ## The merge over all paths -/

/-- The sources in the node of an instruction are those from which some path brings the value: for
the values it takes from the stack, the deepest first, the instructions that pushed them and the
places among what these pushed, and for the variables it reads the instructions that wrote them
last. -/
structure DataFlowNode.MergesPaths (n : DataFlowNode) (b : MethodBody) (graph place : Nat)
    (i : Instruction) : Prop where
  offset : n.offset = i.offset
  length : n.stack.items.length = i.popCount b.returnsValue
  taken : ∀ (k : Nat) (d : StackDependency) (source : DataSource), n.stack.items[k]? = some d →
    (source ∈ d.sources ↔ source.graph = graph ∧ ∃ σ, b.Reaches b.clauses place σ ∧
      (σ.taken (i.popCount b.returnsValue))[k]? = some (some (source.node, source.slot)))
  reads : ∀ v, v ∈ n.byVariable ↔ v ∈ i.variablesRead
  written : ∀ (v : Variable) (sources : Sources) (source : DataSource),
    n.byVariable.get? v = some sources →
      (source ∈ sources ↔ source.graph = graph ∧ source.slot = 0 ∧
        ∃ σ, b.Reaches b.clauses place σ ∧ σ.writer v = some source.node)

/-- The nodes of a graph are those of the instructions that paths reach, and merge these paths. -/
structure DataFlowGraph.MergesPaths (g : DataFlowGraph) (b : MethodBody) : Prop where
  reached : ∀ offset, offset ∈ g.nodes ↔ ∃ (place : Nat) (i : Instruction) (σ : Provenance),
    b.instructions[place]? = some i ∧ i.offset = offset ∧ b.Reaches b.clauses place σ
  node : ∀ (place : Nat) (i : Instruction) (n : DataFlowNode), b.instructions[place]? = some i →
    g.nodes.get? i.offset = some n → n.MergesPaths b g.id place i

/-- The node made of a state merges the paths, if these are within the state and witness it. -/
theorem Instruction.flowNode_mergesPaths {b : MethodBody} {graph place : Nat} {i : Instruction}
    {s : FlowState} (henough : i.popCount b.returnsValue ≤ s.stack.length)
    (hwitnessed : b.Witnessed graph place s)
    (hwithin : ∀ σ, b.Reaches b.clauses place σ → σ.Within graph s) :
    (i.flowNode graph (i.popCount b.returnsValue) s).MergesPaths b graph place i := by
  set pops := i.popCount b.returnsValue with hpops
  -- One direction is soundness and the other completeness.
  have hhas : ∀ f, s.Has f ↔ ∃ σ, b.Reaches b.clauses place σ ∧ σ.Has graph f := by
    intro f
    refine ⟨hwitnessed.has f, ?_⟩
    rintro ⟨σ, hσ, hf⟩
    exact (hwithin σ hσ).has f hf
  refine ⟨rfl, length_flowNode_items henough, ?_, ?_, ?_⟩
  · intro k d source hd
    have hk : k < pops := by
      obtain ⟨hk, -⟩ := List.getElem?_eq_some_iff.mp hd
      rwa [length_flowNode_items henough] at hk
    have htaken : ∀ σ, b.Reaches b.clauses place σ →
        (σ.taken pops)[k]? = σ.stack[pops - 1 - k]? := by
      intro σ hσ
      exact Provenance.getElem?_taken ((hwithin σ hσ).height ▸ henough) hk
    calc source ∈ d.sources
        ↔ s.Has (.slot (pops - 1 - k) source) := mem_flowNode_items henough hd
      _ ↔ ∃ σ, b.Reaches b.clauses place σ ∧ σ.Has graph (.slot (pops - 1 - k) source) := hhas _
      _ ↔ source.graph = graph ∧ ∃ σ, b.Reaches b.clauses place σ ∧
            (σ.taken pops)[k]? = some (some (source.node, source.slot)) := by
          constructor
          · rintro ⟨σ, hσ, hslot, hgraph⟩
            exact ⟨hgraph, σ, hσ, (htaken σ hσ).trans hslot⟩
          · rintro ⟨hgraph, σ, hσ, hslot⟩
            exact ⟨σ, hσ, (htaken σ hσ).symm.trans hslot, hgraph⟩
  · intro v
    rw [SortedMap.mem_iff_get?]
    simp only [get?_flowNode_byVariable, exists_and_left, exists_eq, and_true]
  · intro v sources source hv
    calc source ∈ sources
        ↔ s.Has (.writer v source) := mem_flowNode_byVariable hv
      _ ↔ ∃ σ, b.Reaches b.clauses place σ ∧ σ.Has graph (.writer v source) := hhas _
      _ ↔ source.graph = graph ∧ source.slot = 0 ∧
            ∃ σ, b.Reaches b.clauses place σ ∧ σ.writer v = some source.node := by
          constructor
          · rintro ⟨σ, hσ, hwriter, hslot, hgraph⟩
            exact ⟨hgraph, hslot, σ, hσ, hwriter⟩
          · rintro ⟨hgraph, hslot, σ, hσ, hwriter⟩
            exact ⟨σ, hσ, hwriter, hslot, hgraph⟩

/-- The graph of a method is the merge over all paths through it, when no handler is entered at the
first instruction and the clauses that share an entry agree on what they find on the stack. -/
theorem DataFlowGraph.ofBody_mergesPaths {b : MethodBody} {id : Nat} {g : DataFlowGraph}
    (hb : b.Ascending)
    (hfirst : ∀ c ∈ b.clauses, ∀ i, b.instructions[0]? = some i → ¬ c.EntersAt i.offset)
    (hagree : ∀ c ∈ b.clauses, ∀ d ∈ b.clauses, ∀ offset, c.EntersAt offset → d.EntersAt offset →
      c.kind.receivesException = d.kind.receivesException)
    (hg : DataFlowGraph.ofBody b id = .ok g) : g.id = id ∧ g.MergesPaths b := by
  obtain ⟨x₀, x, hentered, hx, hrest, rfl⟩ := DataFlowGraph.ofBody_eq_ok hb hg
  have hholds : ∀ {place : Nat} {σ : Provenance}, b.Reaches b.clauses place σ →
      x.Holds id place σ :=
    fun hσ => hx.holds hrest (hentered.rooted hfirst hagree) (List.Subset.refl _) hσ
  refine ⟨rfl, ?_, ?_⟩
  · intro offset
    constructor
    · intro hoffset
      obtain ⟨place, i, hplace, rfl, hstate⟩ := hx.node offset hoffset
      obtain ⟨s, hs⟩ := SortedMap.mem_iff_get?.mp hstate
      obtain ⟨σ, hσ⟩ := (hx.sound.witnessed place s hs).reached
      exact ⟨place, i, σ, hplace, rfl, hσ⟩
    · rintro ⟨place, i, σ, hplace, rfl, hσ⟩
      obtain ⟨s, hs, -⟩ := hholds hσ
      exact SortedMap.mem_iff_get?.mpr ⟨_, (hx.settled place i s hplace hs (hrest place)).node⟩
  · intro place i n hplace hn
    obtain ⟨s, hs, henough, rfl⟩ := hx.exists_state hb hrest hplace hn
    refine Instruction.flowNode_mergesPaths henough (hx.sound.witnessed place s hs) ?_
    intro σ hσ
    obtain ⟨t, ht, hwithin⟩ := hholds hσ
    obtain rfl : s = t := Option.some.inj (hs.symm.trans ht)
    exact hwithin

/-- A method that writes one of two constants to a local variable, guarded by a filter that accepts
every exception, and reads the variable afterwards. -/
def filteredChoice : MethodBody where
  instructions :=
    [⟨0, .ldarg_0, .none, 1⟩, ⟨1, .brtrue_s, .target 6, 2⟩, ⟨3, .ldc_i4_1, .none, 1⟩,
      ⟨4, .br_s, .target 7, 2⟩, ⟨6, .ldc_i4_2, .none, 1⟩, ⟨7, .stloc_0, .none, 1⟩,
      ⟨8, .leave_s, .target 17, 2⟩, ⟨10, .pop, .none, 1⟩, ⟨11, .ldc_i4_1, .none, 1⟩,
      ⟨12, .endfilter, .none, 2⟩, ⟨14, .pop, .none, 1⟩, ⟨15, .leave_s, .target 17, 2⟩,
      ⟨17, .ldloc_0, .none, 1⟩, ⟨18, .ret, .none, 1⟩]
  clauses := [⟨.filters 10, 0, 10, 14, 17⟩]
  locals := [.int32]
  parameters := [.int32]
  returnType := .int32

theorem DataFlowGraph.ofBody_mergesPaths_filteredChoice :
    filteredChoice.Ascending ∧
      ∃ g, DataFlowGraph.ofBody filteredChoice = .ok g ∧ g.nodes.size = 14 ∧
        g.MergesPaths filteredChoice := by
  have hbuilds : (DataFlowGraph.ofBody filteredChoice).map (fun g => g.nodes.size) = .ok 14 := by
    decide +kernel
  cases hg : DataFlowGraph.ofBody filteredChoice with
  | error e =>
      rw [hg] at hbuilds
      exact nomatch hbuilds
  | ok g =>
      rw [hg] at hbuilds
      refine ⟨by decide, g, rfl, Except.ok.inj hbuilds, ?_⟩
      refine (DataFlowGraph.ofBody_mergesPaths (by decide) ?_ ?_ hg).2
      · intro c hc i hi
        obtain rfl := List.mem_singleton.mp hc
        obtain rfl := Option.some.inj hi
        decide
      · intro c hc d hd _ _ _
        rw [List.mem_singleton.mp hc, List.mem_singleton.mp hd]

end CilAnalysis
