import CilAnalysis.Proofs.DataFlow.Slices
import CilAnalysis.Proofs.DataFlow.Stacks
import CilAnalysis.Proofs.Instruction.Expand
import CilAnalysis.Proofs.Slice.Inlining

/-!
# Taking a slice out of a method

A call that is replaced by a string no longer takes its arguments, and its slice no longer pushes
them (`MethodBody.Detaches`).  How much higher the stack then gets is told by the instructions on
the way (`Instruction.lift`).  Let it be the same along all ways to an instruction
(`MethodBody.Lifts`).  Then the call does not take part in the computation of its own arguments
(`MethodBody.Raises.not_feeds_call`).

## Strategy

The graph lists the producers of what an instruction takes along some path
(`DataFlowGraph.mem_producers_iff_feeds`).  So who takes what is said of paths, by
`MethodBody.Feeds`.

Suppose the call took part in its own arguments.  Its value is not one of the slice and so is still
pushed, but the instruction that took it no longer does.  On a way around the cycle it is left on
the stack:

* the *leftovers* on a path are the values on the raised stack beyond those that the old stack has
  and the slice has not pushed (`MethodBody.leftover`);
* they never get fewer until the stack is emptied, and grow by what a replaced instruction took from
  outside the slice (`MethodBody.Raises.leftover_flow`);
* they go with a value to whoever takes it (`MethodBody.Raises.carry`, by induction along a path);
* so each round adds one, and after enough rounds there are more leftovers than the raised stack is
  high.
-/

namespace CilAnalysis

open DataFlowGraph Instruction

/-! ## Who takes what -/

private theorem mem_take_iff_getElem? {α : Type*} {l : List α} {n : Nat} {a : α} :
    a ∈ l.take n ↔ ∃ depth < n, l[depth]? = some a := by
  rw [List.mem_take_iff_getElem]
  constructor
  · rintro ⟨depth, hlt, rfl⟩
    exact ⟨depth, by omega, List.getElem?_eq_getElem _⟩
  · rintro ⟨depth, hlt, hdepth⟩
    obtain ⟨hlength, rfl⟩ := List.getElem?_eq_some_iff.mp hdepth
    exact ⟨depth, by omega, rfl⟩

/-- On some path an instruction takes a value that another has pushed. -/
def MethodBody.Feeds (b : MethodBody) (producer consumer : Nat) : Prop :=
  ∃ q i stack slot, b.instructions[q]? = some i ∧ i.offset = consumer ∧ b.StackPath q stack ∧
    some (producer, slot) ∈ stack.take (i.popCount b.returnsValue)

private theorem Instruction.mem_dependencies_flowNode {i : Instruction} {graph pops o : Nat}
    {s : FlowState} : o ∈ (i.flowNode graph pops s).dependencies ⟨true, false⟩ ↔
      ∃ depth < pops, ∃ source, s.Has (.slot depth source) ∧ source.node = o := by
  unfold DataFlowNode.dependencies flowNode FlowState.Has
  simp only [if_true, Bool.false_eq_true, if_false, List.append_nil, List.mem_flatMap,
    List.mem_map, List.mem_reverse]
  constructor
  · rintro ⟨_, ⟨sources, hsources, rfl⟩, source, hsource, rfl⟩
    obtain ⟨depth, hlt, hdepth⟩ := mem_take_iff_getElem?.mp hsources
    exact ⟨depth, hlt, source, ⟨sources, hdepth, hsource⟩, rfl⟩
  · rintro ⟨depth, hlt, source, ⟨sources, hdepth, hsource⟩, rfl⟩
    exact ⟨_, ⟨sources, mem_take_iff_getElem?.mpr ⟨depth, hlt, hdepth⟩, rfl⟩, source, hsource, rfl⟩

namespace DataFlowGraph

variable {b : MethodBody} {id : Nat} {g : DataFlowGraph}

/-- The graph has the producers of values along paths. -/
theorem mem_producers_iff_feeds (hb : b.Ascending) (hg : ofBody b id = .ok g)
    {producer consumer : Nat} :
    producer ∈ g.producers consumer ↔ b.Feeds producer consumer := by
  rw [mem_producers]
  constructor
  · rintro ⟨n, hn, hproducer⟩
    obtain ⟨q, i, hi, rfl⟩ := exists_instruction_of_node hb hg hn
    obtain ⟨s, hs, -, rfl⟩ := (ofBody_mergesStacks hb hg hi).1 n hn
    obtain ⟨depth, hlt, source, hhas, rfl⟩ := mem_dependencies_flowNode.mp hproducer
    obtain ⟨stack, hstack, hpushed⟩ := (hs.sources depth source).mp hhas
    exact ⟨q, i, stack, source.slot, hi, rfl, hstack,
      mem_take_iff_getElem?.mpr ⟨depth, hlt, hpushed.1⟩⟩
  · rintro ⟨q, i, stack, slot, hi, rfl, hstack, htaken⟩
    obtain ⟨n, hn⟩ := (ofBody_mergesStacks hb hg hi).2 ⟨stack, hstack⟩
    obtain ⟨s, hs, -, rfl⟩ := (ofBody_mergesStacks hb hg hi).1 n hn
    obtain ⟨depth, hlt, hdepth⟩ := mem_take_iff_getElem?.mp htaken
    refine ⟨_, hn, mem_dependencies_flowNode.mpr
      ⟨depth, hlt, ⟨id, producer, slot⟩, ?_, rfl⟩⟩
    exact (hs.sources depth _).mpr ⟨stack, hstack, hdepth, rfl⟩

/-- If no producer of a slice is shared, only the slice and the call take what it pushes. -/
theorem mem_of_shared?_eq_none {call : Nat} {slice : List Nat} (h : g.shared? call slice = none)
    {producer consumer : Nat} {n : DataFlowNode} (hn : g.nodes.get? consumer = some n)
    (hoffset : n.offset = consumer) (hproducer : producer ∈ n.dependencies ⟨true, false⟩)
    (hslice : producer ∈ slice) : consumer = call ∨ consumer ∈ slice := by
  by_contra hout
  obtain ⟨hcall, hout⟩ := not_or.mp hout
  have hvalue : n ∈ g.nodes.values :=
    List.mem_map.mpr ⟨(consumer, n), SortedMap.mem_entries_of_get? hn, rfl⟩
  have hnone := List.findSome?_eq_none_iff.mp h n hvalue
  rw [hoffset, if_neg (by simp [hcall, hout]), Option.map_eq_none_iff] at hnone
  unfold DataFlowNode.sourceIn? at hnone
  refine List.find?_eq_none.mp hnone producer ?_ (by simpa using hslice)
  unfold DataFlowNode.dependencies at hproducer
  rw [List.map_flatMap]
  simpa using hproducer

end DataFlowGraph

namespace MethodBody

/-- A call and its slice can be taken from a method without a change of control, and nothing else
takes what the slice pushes. -/
structure Detaches (b : MethodBody) (call : Nat) (slice : List Nat) : Prop where
  straight : b.ReplacesStraight call slice
  pushes_one : ∀ i ∈ b.instructions, i.offset = call → i.pushCount = 1
  mem_slice : ∀ o, o ∈ slice ↔ o ≠ call ∧ Relation.TransGen b.Feeds o call
  unshared : ∀ o ∈ slice, ∀ consumer, b.Feeds o consumer → consumer = call ∨ consumer ∈ slice

theorem Feeds.exists_instruction {b : MethodBody} {producer consumer : Nat}
    (h : b.Feeds producer consumer) : ∃ q i stack, b.instructions[q]? = some i ∧
      i.offset = producer ∧ 0 < i.pushCount ∧ b.StackPath q stack := by
  obtain ⟨_, _, _, slot, -, -, hstack, htaken⟩ := h
  obtain ⟨q, i, stack, hi, hoffset, hslot, hpath⟩ :=
    hstack.exists_producer (List.mem_of_mem_take htaken)
  exact ⟨q, i, stack, hi, hoffset, Nat.zero_lt_of_lt hslot, hpath⟩

/-- Where a string is inlined, the call and its slice can be taken out. -/
theorem detaches_of_inlineString {b b' : MethodBody} (hb : b.Ascending)
    (hformed : ∀ i ∈ b.instructions, i.isWellFormed = true) {call : Nat} {text : String}
    {slice : List Nat} (h : b.inlineString call text = .ok (slice, b')) :
    b.Detaches call slice := by
  obtain ⟨c, g, hc, hstring, hg, hslice, hshared, -⟩ := inlineString_eq_ok hb h
  obtain ⟨hcmem, hcoffset⟩ := of_instructionAt hc
  have hpushes : ∀ i ∈ b.instructions, i.offset = call → i.pushCount = 1 := by
    intro i hi hoffset
    rw [hb.eq_of_mem hi hcmem (hoffset.trans hcoffset.symm)]
    exact pushCount_of_returnsString hstring
  have hmem : ∀ o, o ∈ slice ↔ o ≠ call ∧ Relation.TransGen b.Feeds o call := by
    intro o
    rw [mem_stackSlice_iff hslice]
    simp only [mem_producers_iff_feeds hb hg]
  refine ⟨?_, hpushes, hmem, ?_⟩
  · rintro i hi (hoffset | hin)
    · exact isStraight_of_pushes (hformed i hi) (by rw [hpushes i hi hoffset]; decide)
    · obtain ⟨consumer, hfeeds, -⟩ := Relation.TransGen.head'_iff.mp ((hmem _).mp hin).2
      obtain ⟨q, j, -, hj, hoffset, hpush, -⟩ := hfeeds.exists_instruction
      rw [hb.eq_of_mem hi (List.mem_of_getElem? hj) hoffset.symm]
      exact isStraight_of_pushes (hformed j (List.mem_of_getElem? hj)) hpush
  · intro o ho consumer hfeeds
    obtain ⟨n, hn, hproducer⟩ := mem_producers.mp
      ((mem_producers_iff_feeds hb hg).mpr hfeeds)
    obtain ⟨q, i, hi, rfl⟩ := exists_instruction_of_node hb hg hn
    obtain ⟨s, -, -, rfl⟩ := (ofBody_mergesStacks hb hg hi).1 n hn
    exact mem_of_shared?_eq_none hshared hn rfl hproducer ho

end MethodBody

/-! ## Values of a slice -/

/-- The values on a stack that no instruction of a slice has pushed. -/
def unsliced (slice : List Nat) (stack : List StackValue) : List StackValue :=
  stack.filter fun v => v.all fun pushed => pushed.1 ∉ slice

section Unsliced

variable {slice : List Nat} {stack : List StackValue}

theorem unsliced_append (slice : List Nat) (stack rest : List StackValue) :
    unsliced slice (stack ++ rest) = unsliced slice stack ++ unsliced slice rest :=
  List.filter_append ..

private theorem mem_unsliced {v : StackValue} :
    v ∈ unsliced slice stack ↔ v ∈ stack ∧ ∀ o slot, v = some (o, slot) → o ∉ slice := by
  unfold unsliced
  rw [List.mem_filter]
  rcases v with _ | ⟨o, slot⟩ <;> simp

theorem unsliced_eq_self (h : ∀ o slot, some (o, slot) ∈ stack → o ∉ slice) :
    unsliced slice stack = stack := by
  unfold unsliced
  rw [List.filter_eq_self]
  intro v hv
  cases v with
  | none => rfl
  | some pushed => simpa using h pushed.1 pushed.2 hv

theorem unsliced_eq_nil (h : ∀ v ∈ stack, ∃ o ∈ slice, ∃ slot, v = some (o, slot)) :
    unsliced slice stack = [] := by
  rw [List.eq_nil_iff_forall_not_mem]
  intro v hv
  obtain ⟨hmem, hout⟩ := mem_unsliced.mp hv
  obtain ⟨o, ho, slot, rfl⟩ := h v hmem
  exact hout o slot rfl ho

theorem Instruction.unsliced_pushedValues {i : Instruction} (h : i.offset ∉ slice) :
    unsliced slice i.pushedValues = i.pushedValues := by
  refine unsliced_eq_self fun o slot hv => ?_
  obtain ⟨_, -, heq⟩ := mem_pushedValues.mp hv
  rwa [(Prod.mk.inj (Option.some.inj heq)).1]

theorem Instruction.unsliced_pushedValues_of_mem {i : Instruction} (h : i.offset ∈ slice) :
    unsliced slice i.pushedValues = [] := by
  refine unsliced_eq_nil fun v hv => ?_
  obtain ⟨slot, -, rfl⟩ := mem_pushedValues.mp hv
  exact ⟨i.offset, h, slot, rfl⟩

private theorem length_unsliced_take_add_drop (slice : List Nat) (stack : List StackValue)
    (pops : Nat) :
    (unsliced slice (stack.take pops)).length + (unsliced slice (stack.drop pops)).length =
      (unsliced slice stack).length := by
  rw [← List.length_append, ← unsliced_append, List.take_append_drop]

end Unsliced

namespace MethodBody

variable {b : MethodBody} {call : Nat} {slice : List Nat}

namespace Detaches

theorem call_notMem (h : b.Detaches call slice) : call ∉ slice := fun hmem =>
  ((h.mem_slice call).mp hmem).1 rfl

/-- The call and the slice take values of their own. -/
theorem feeds_own (h : b.Detaches call slice) {producer consumer : Nat}
    (hconsumer : consumer = call ∨ consumer ∈ slice) (hfeeds : b.Feeds producer consumer) :
    producer = call ∨ producer ∈ slice := by
  by_cases hcall : producer = call
  · exact .inl hcall
  · refine .inr ((h.mem_slice producer).mpr ⟨hcall, ?_⟩)
    rcases hconsumer with rfl | hconsumer
    · exact .single hfeeds
    · exact .head hfeeds ((h.mem_slice consumer).mp hconsumer).2

/-- Other instructions take no value of the slice. -/
theorem unsliced_take (h : b.Detaches call slice) {q : Nat} {i : Instruction}
    {stack : List StackValue} (hi : b.instructions[q]? = some i) (hstack : b.StackPath q stack)
    (hother : ¬ (i.offset = call ∨ i.offset ∈ slice)) :
    ∀ o slot, some (o, slot) ∈ stack.take (i.popCount b.returnsValue) → o ∉ slice := by
  intro o slot htaken ho
  exact hother (h.unshared o ho i.offset ⟨q, i, stack, slot, hi, rfl, hstack, htaken⟩)

end Detaches

end MethodBody

/-! ## How much higher the stack gets -/

/-- By how much the stack is higher after an instruction is replaced: the call takes nothing any
more, and the slice neither takes nor pushes anything. -/
def Instruction.lift (i : Instruction) (returnsValue : Bool) (call : Nat) (slice : List Nat) :
    Int :=
  if i.offset = call then i.popCount returnsValue
  else if i.offset ∈ slice then i.popCount returnsValue - i.pushCount
  else 0

namespace MethodBody

/-- Before every reachable instruction the stack is raised by some amount, the same along all
paths. -/
structure Lifts (b : MethodBody) (call : Nat) (slice : List Nat) (gain : Nat → Int) : Prop where
  enter : ∀ q n, b.entryHeight? q = some n → gain q = 0
  flows : ∀ q i q', b.Reachable q → b.instructions[q]? = some i → b.FlowsTo q i q' →
    gain q' = if i.clearsStack then 0 else gain q + i.lift b.returnsValue call slice

variable {b : MethodBody} {call : Nat} {slice : List Nat} {height : Nat → Nat} {gain : Nat → Int}

/-- A call and its slice can be taken out, and the stack is then raised by the same amount along all
paths. -/
structure Raises (b : MethodBody) (call : Nat) (slice : List Nat) (height : Nat → Nat)
    (gain : Nat → Int) : Prop extends b.Detaches call slice where
  ascending : b.Ascending
  nonempty : b.instructions ≠ []
  starts : b.StartsAt height
  balanced : b.Balanced height
  lifts : b.Lifts call slice gain

/-- What is left on a raised stack of values that were taken before. -/
def leftover (height : Nat → Nat) (gain : Nat → Int) (slice : List Nat) (q : Nat)
    (stack : List StackValue) : Int :=
  height q + gain q - (unsliced slice stack).length

/-- The leftovers after an instruction of the call and its slice. -/
def leftoverAfter (b : MethodBody) (height : Nat → Nat) (gain : Nat → Int) (slice : List Nat)
    (q : Nat) (i : Instruction) (stack : List StackValue) : Int :=
  leftover height gain slice q stack +
    (unsliced slice (stack.take (i.popCount b.returnsValue))).length

/-- An instruction that does not clear the stack adds leftovers if it is replaced: those of the
values it took that are not of the slice. -/
theorem Raises.leftover_flow (h : b.Raises call slice height gain) {q q' : Nat} {i : Instruction}
    {stack : List StackValue} (hstack : b.StackPath q stack) (hi : b.instructions[q]? = some i)
    (hflows : b.FlowsTo q i q') (hclears : i.clearsStack = false) :
    leftover height gain slice q' (i.valuesAfter (i.popCount b.returnsValue) stack) =
      if i.offset = call ∨ i.offset ∈ slice then b.leftoverAfter height gain slice q i stack
      else leftover height gain slice q stack := by
  have hreachable := hstack.reachable h.nonempty
  have hheight := h.balanced.flows q i q' hreachable hi hflows
  have hgain := h.lifts.flows q i q' hreachable hi hflows
  have henough := h.balanced.enough q i hreachable hi
  have hparts := length_unsliced_take_add_drop slice stack (i.popCount b.returnsValue)
  have hlength := hstack.length_eq h.nonempty h.balanced h.starts
  simp only [hclears, Bool.false_eq_true, if_false] at hheight hgain
  unfold leftoverAfter leftover valuesAfter
  rw [hgain, unsliced_append, List.length_append]
  simp only [hclears, Bool.false_eq_true, if_false]
  unfold lift
  by_cases hcall : i.offset = call
  · have hone := h.pushes_one i (List.mem_of_getElem? hi) hcall
    rw [unsliced_pushedValues (hcall ▸ h.call_notMem), i.length_pushedValues]
    simp only [hcall, true_or, if_true]
    omega
  by_cases hslice : i.offset ∈ slice
  · rw [unsliced_pushedValues_of_mem hslice, List.length_nil]
    simp only [hcall, hslice, or_true, if_true, if_false]
    omega
  · have hkept := unsliced_eq_self (h.unsliced_take hi hstack (not_or.mpr ⟨hcall, hslice⟩))
    rw [unsliced_pushedValues hslice, i.length_pushedValues]
    have htaken : (unsliced slice (stack.take (i.popCount b.returnsValue))).length =
        i.popCount b.returnsValue := by
      rw [hkept, List.length_take]
      omega
    simp only [hcall, hslice, or_self, if_false]
    omega

/-! ## Cycles -/

/-- A path that comes to a call or its slice can be taken on to where the value it pushes is found,
with no fewer leftovers. -/
theorem Raises.carry (h : b.Raises call slice height gain) {p : Nat} {i : Instruction}
    {before : List StackValue} (hi : b.instructions[p]? = some i)
    (howned : i.offset = call ∨ i.offset ∈ slice) (hbefore : b.StackPath p before) {q : Nat}
    {stack : List StackValue} (hstack : b.StackPath q stack) {graph depth : Nat}
    {source : DataSource} (hpushed : PushedAt stack graph depth source)
    (hsource : source.node = i.offset) :
    ∃ stack', b.StackPath q stack' ∧ PushedAt stack' graph depth source ∧
      b.leftoverAfter height gain slice p i before ≤ leftover height gain slice q stack' := by
  induction hstack generalizing depth with
  | enter => exact nomatch List.eq_of_mem_replicate (List.mem_of_getElem? hpushed.1)
  | @flow q q' j stack _ hj hflows ih =>
      rw [pushedAt_valuesAfter] at hpushed
      by_cases hnew : depth < j.pushCount
      · -- The value is pushed here, so this is the instruction.
        rw [if_pos hnew] at hpushed
        have hoffset : j.offset = i.offset := by rw [← hsource, hpushed]
        obtain rfl := h.ascending.eq_of_offset_eq hj hi hoffset
        obtain rfl := Option.some.inj (hj.symm.trans hi)
        refine ⟨_, .flow hbefore hj hflows, ?_, ?_⟩
        · rwa [pushedAt_valuesAfter, if_pos hnew]
        · rw [h.leftover_flow hbefore hj hflows
            (h.straight j (List.mem_of_getElem? hj) howned).clears, if_pos howned]
      · rw [if_neg hnew] at hpushed
        obtain ⟨hclears, hpushed⟩ := hpushed
        -- The value was on the stack before, and this instruction takes no leftovers away.
        obtain ⟨stack', hstack', hpushed', hle⟩ := ih hpushed
        refine ⟨_, .flow hstack' hj hflows, ?_, hle.trans ?_⟩
        · rw [pushedAt_valuesAfter, if_neg hnew]
          exact ⟨hclears, hpushed'⟩
        · rw [h.leftover_flow hstack' hj hflows hclears]
          unfold leftoverAfter
          split
          next => omega
          next => exact le_rfl

/-- Some path comes to an instruction after which there are at least so many leftovers. -/
def LeavesOver (b : MethodBody) (height : Nat → Nat) (gain : Nat → Int) (slice : List Nat) (o : Nat)
    (count : Int) : Prop :=
  ∃ q i stack, b.instructions[q]? = some i ∧ i.offset = o ∧ b.StackPath q stack ∧
    count ≤ b.leftoverAfter height gain slice q i stack

/-- Leftovers go from producers to consumers.  A consumer of the call adds one. -/
theorem Raises.leaves_of_feeds (h : b.Raises call slice height gain) {producer consumer : Nat}
    {count : Int} (howned : producer = call ∨ producer ∈ slice) (hfeeds : b.Feeds producer consumer)
    (hleaves : b.LeavesOver height gain slice producer count) :
    b.LeavesOver height gain slice consumer (count + if producer ∈ slice then 0 else 1) := by
  obtain ⟨p, i, before, hi, rfl, hbefore, hcount⟩ := hleaves
  obtain ⟨q, j, stack, slot, hj, rfl, hstack, htaken⟩ := hfeeds
  obtain ⟨depth, hlt, hdepth⟩ := mem_take_iff_getElem?.mp htaken
  have hfound : PushedAt stack 0 depth ⟨0, i.offset, slot⟩ := ⟨hdepth, rfl⟩
  obtain ⟨stack', hstack', hpushed, hle⟩ := h.carry hi howned hbefore hstack hfound rfl
  refine ⟨q, j, stack', hj, rfl, hstack', ?_⟩
  unfold leftoverAfter
  by_cases hslice : i.offset ∈ slice
  · rw [if_pos hslice]
    omega
  · have hmem : some (i.offset, slot) ∈
        unsliced slice (stack'.take (j.popCount b.returnsValue)) := by
      refine mem_unsliced.mpr ⟨mem_take_iff_getElem?.mpr ⟨depth, hlt, hpushed.1⟩, ?_⟩
      intro o _ heq
      rwa [← (Prod.mk.inj (Option.some.inj heq)).1]
    have hpos := List.length_pos_of_mem hmem
    rw [if_neg hslice]
    omega

theorem LeavesOver.mono {o : Nat} {count count' : Int} (h : b.LeavesOver height gain slice o count)
    (hle : count' ≤ count) : b.LeavesOver height gain slice o count' := by
  obtain ⟨q, i, stack, hi, hoffset, hstack, hcount⟩ := h
  exact ⟨q, i, stack, hi, hoffset, hstack, hle.trans hcount⟩

/-- Leftovers get from the slice to the call. -/
theorem Raises.leaves_call (h : b.Raises call slice height gain) {o : Nat} {count : Int}
    (hfeeds : Relation.TransGen b.Feeds o call) (howned : o = call ∨ o ∈ slice)
    (hleaves : b.LeavesOver height gain slice o count) :
    b.LeavesOver height gain slice call count := by
  have hstep : ∀ {producer consumer : Nat}, producer = call ∨ producer ∈ slice →
      b.Feeds producer consumer → b.LeavesOver height gain slice producer count →
      b.LeavesOver height gain slice consumer count := by
    intro producer consumer hproducer hfeeds hleaves
    refine (h.leaves_of_feeds hproducer hfeeds hleaves).mono ?_
    split_ifs <;> omega
  induction hfeeds using Relation.TransGen.head_induction_on with
  | single hfeeds => exact hstep howned hfeeds hleaves
  | @head o o' hfeeds hrest ih =>
      refine ih ?_ (hstep howned hfeeds hleaves)
      by_cases hcall : o' = call
      · exact .inl hcall
      · exact .inr ((h.mem_slice o').mpr ⟨hcall, hrest⟩)

/-- Neither the call nor its slice takes what the call has pushed: on a path around such a cycle
leftovers would grow beyond the height of the stack. -/
theorem Raises.not_feeds_call (h : b.Raises call slice height gain) {consumer : Nat}
    (hconsumer : consumer = call ∨ consumer ∈ slice) : ¬ b.Feeds call consumer := by
  intro hfeeds
  obtain ⟨q, i, stack, hi, hoffset, -, hstack⟩ := hfeeds.exists_instruction
  -- One round: from the call to the consumer, and through the slice back to the call.
  have hround : ∀ count, b.LeavesOver height gain slice call count →
      b.LeavesOver height gain slice call (count + 1) := by
    intro count hleaves
    have hnext := h.leaves_of_feeds (.inl rfl) hfeeds hleaves
    rw [if_neg h.call_notMem] at hnext
    rcases hconsumer with rfl | hconsumer
    · exact hnext
    · exact h.leaves_call ((h.mem_slice consumer).mp hconsumer).2 (.inr hconsumer) hnext
  have hmany : ∀ rounds : Nat, b.LeavesOver height gain slice call
      (b.leftoverAfter height gain slice q i stack + rounds) := by
    intro rounds
    induction rounds with
    | zero => exact ⟨q, i, stack, hi, hoffset, hstack, by simp⟩
    | succ rounds ih =>
        have hmore := hround _ ih
        rwa [add_assoc] at hmore
  -- What is left after the call is no more than the raised height before it.
  obtain ⟨q', i', stack', hi', hoffset', -, hcount⟩ := hmany
    (height q + gain q - b.leftoverAfter height gain slice q i stack + 1).toNat
  obtain rfl := h.ascending.eq_of_offset_eq hi' hi (hoffset'.trans hoffset.symm)
  have hparts := length_unsliced_take_add_drop slice stack' (i'.popCount b.returnsValue)
  unfold leftoverAfter leftover at hcount
  omega

end MethodBody

end CilAnalysis
