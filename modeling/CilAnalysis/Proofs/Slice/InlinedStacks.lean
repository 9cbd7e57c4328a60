import CilAnalysis.Proofs.Slice.Detachment

/-!
# Stacks after inlining

Along a path the stack of a method in which a string was inlined is the old one without the values
of the slice, and at its bottom stays the exception that a handler started with, if the call or the
slice took it (`Residue`).

Neither need be the same on all paths to an instruction.  A value of the slice may be left on the
stack on a way that does not come to the call, and a caught exception is no value that anything
pushed.  So the new method has a data-flow graph only if the stack is raised by the same amount
along all of them.  This is also enough (`MethodBody.inlineString_builds_iff`).

## Strategy

Whether there is a graph is a matter of heights (`DataFlowGraph.exists_ofBody_iff`).

* *Only if.*  If both methods have balanced heights, the stack is raised by their difference
  (`MethodBody.Detaches.lifts_of_balanced`).
* *If.*  The two methods have the same paths, with what is left of the stack
  (`MethodBody.Raises.exists_inlined`, `MethodBody.Raises.exists_original`).  The step is
  `MethodBody.Raises.residue_flow`: what is replaced took values of the slice only, or unpushed
  ones, and everything else took values that are still there.  So every new stack has the raised
  height, and the raised heights are balanced (`MethodBody.Raises.balanced_inlined`).
* *Sources.*  An instruction that was not replaced takes the same values on both sides of a path,
  and so its node has the same sources (`MethodBody.Raises.node_stack`).
-/

namespace CilAnalysis

open DataFlowGraph Instruction

/-! ## The new stacks -/

/-- States with the same sources in the upper slots have the same upper slots. -/
theorem FlowState.take_eq_of_has {s t : FlowState} {pops : Nat} (hs : pops ≤ s.stack.length)
    (ht : pops ≤ t.stack.length)
    (h : ∀ depth < pops, ∀ source, s.Has (.slot depth source) ↔ t.Has (.slot depth source)) :
    s.stack.take pops = t.stack.take pops := by
  refine List.ext_getElem (by rw [List.length_take_of_le hs, List.length_take_of_le ht]) ?_
  intro depth hdepth _
  have hlt : depth < pops := by
    rw [List.length_take] at hdepth
    omega
  rw [List.getElem_take, List.getElem_take]
  refine SortedSet.ext_mem fun source => ?_
  have hsource := h depth hlt source
  simp only [Has, List.getElem?_eq_getElem (hlt.trans_le hs),
    List.getElem?_eq_getElem (hlt.trans_le ht)] at hsource
  simpa using hsource

/-- One stack is what is left of another without the values of a slice.  Values that nothing has
pushed are at the bottom of both, and there may be more of them than before. -/
def Residue (slice : List Nat) (stack stack' : List StackValue) : Prop :=
  ∃ top old new, none ∉ top ∧ old ≤ new ∧ stack = top ++ List.replicate old none ∧
    stack' = unsliced slice top ++ List.replicate new none

namespace Residue

variable {slice : List Nat} {stack stack' : List StackValue}

theorem replicate (slice : List Nat) (n : Nat) :
    Residue slice (List.replicate n none) (List.replicate n none) :=
  ⟨[], n, n, List.not_mem_nil, le_rfl, rfl, rfl⟩

theorem append (h : Residue slice stack stack') {pushed : List StackValue}
    (hpushed : none ∉ pushed) :
    Residue slice (pushed ++ stack) (unsliced slice pushed ++ stack') := by
  obtain ⟨top, old, new, htop, hle, rfl, rfl⟩ := h
  refine ⟨pushed ++ top, old, new, ?_, hle, (List.append_assoc ..).symm, ?_⟩
  · rw [List.mem_append]
    exact not_or.mpr ⟨hpushed, htop⟩
  · rw [unsliced_append, List.append_assoc]

/-- Nothing needs to be taken where only values of the slice and unpushed ones were. -/
theorem drop_sliced (h : Residue slice stack stack') {pops : Nat}
    (htaken : ∀ o slot, some (o, slot) ∈ stack.take pops → o ∈ slice) :
    Residue slice (stack.drop pops) stack' := by
  obtain ⟨top, old, new, htop, hle, rfl, rfl⟩ := h
  refine ⟨top.drop pops, old - (pops - top.length), new,
    fun hmem => htop (List.mem_of_mem_drop hmem), by omega,
    by rw [List.drop_append, List.drop_replicate], ?_⟩
  have hsliced : unsliced slice (top.take pops) = [] := by
    refine unsliced_eq_nil fun v hv => ?_
    rcases v with _ | ⟨o, slot⟩
    · exact absurd (List.mem_of_mem_take hv) htop
    · refine ⟨o, htaken o slot ?_, slot, rfl⟩
      rw [List.take_append]
      exact List.mem_append_left _ hv
  have hkept : unsliced slice top = unsliced slice (top.drop pops) := by
    calc unsliced slice top
        = unsliced slice (top.take pops) ++ unsliced slice (top.drop pops) := by
          rw [← unsliced_append, List.take_append_drop]
      _ = unsliced slice (top.drop pops) := by rw [hsliced, List.nil_append]
  rw [hkept]

/-- Values that are not of the slice are found as before. -/
theorem drop_unsliced (h : Residue slice stack stack') {pops : Nat}
    (htaken : ∀ o slot, some (o, slot) ∈ stack.take pops → o ∉ slice)
    (henough : pops ≤ stack.length) :
    pops ≤ stack'.length ∧ stack'.take pops = stack.take pops ∧
      Residue slice (stack.drop pops) (stack'.drop pops) := by
  obtain ⟨top, old, new, htop, hle, rfl, rfl⟩ := h
  have hkept : unsliced slice (top.take pops) = top.take pops := by
    refine unsliced_eq_self fun o slot hv => htaken o slot ?_
    rw [List.take_append]
    exact List.mem_append_left _ hv
  have hsplit : unsliced slice top = top.take pops ++ unsliced slice (top.drop pops) := by
    rw [← hkept, ← unsliced_append, List.take_append_drop]
  rw [List.length_append, List.length_replicate] at henough
  rw [hsplit]
  by_cases hshort : pops ≤ top.length
  · -- All that is taken was pushed.
    have hlength : (top.take pops).length = pops := List.length_take_of_le hshort
    refine ⟨?_, ?_, top.drop pops, old, new, fun hmem => htop (List.mem_of_mem_drop hmem), hle,
      ?_, ?_⟩
    · rw [List.append_assoc, List.length_append]
      omega
    · rw [List.append_assoc, List.take_left' hlength, List.take_append_of_le_length hshort]
    · rw [List.drop_append_of_le_length hshort]
    · rw [List.append_assoc, List.drop_left' hlength]
  · -- The values that were pushed are too few, and unpushed ones are taken with them.
    have hall : top.take pops = top := List.take_of_length_le (by omega)
    have hnone : top.drop pops = [] := List.drop_eq_nil_of_le (by omega)
    rw [hall, hnone]
    refine ⟨?_, ?_, [], old - (pops - top.length), new - (pops - top.length), List.not_mem_nil,
      by omega, ?_, ?_⟩
    · simp [unsliced]
      omega
    · simp [unsliced, List.take_append, List.take_replicate]
      omega
    · simp [List.drop_append, hnone, List.drop_replicate]
    · simp [unsliced, List.drop_append, hnone, List.drop_replicate]

end Residue

namespace Instruction

variable {i : Instruction} {call : Nat} {slice : List Nat} {text : String}

private theorem popCount_inlined (i : Instruction) (returnsValue : Bool) :
    (i.inlined call slice text).popCount returnsValue =
      if i.offset = call ∨ i.offset ∈ slice then 0 else i.popCount returnsValue := by
  unfold inlined
  by_cases hcall : i.offset = call
  · simp only [hcall, true_or, if_true]
    rfl
  by_cases hslice : i.offset ∈ slice
  · simp only [hcall, hslice, or_true, if_true, if_false]
    rfl
  · simp only [hcall, hslice, or_self, if_false]

private theorem pushCount_inlined (i : Instruction) :
    (i.inlined call slice text).pushCount =
      if i.offset = call then 1 else if i.offset ∈ slice then 0 else i.pushCount := by
  unfold inlined
  split_ifs <;> rfl

private theorem clearsStack_inlined (h : i.offset = call ∨ i.offset ∈ slice → i.IsStraight) :
    (i.inlined call slice text).clearsStack = i.clearsStack := by
  by_cases hcall : i.offset = call
  · rw [inlined_call hcall, (h (.inl hcall)).clears]
    rfl
  by_cases hslice : i.offset ∈ slice
  · rw [inlined_slice hcall hslice, (h (.inr hslice)).clears]
    rfl
  rw [inlined_other hcall hslice]

/-- The stack gets higher by what the old instruction took more, or pushed less, than the new
one. -/
theorem lift_eq (hpush : i.offset = call → i.pushCount = 1) (returnsValue : Bool)
    (text : String) :
    i.lift returnsValue call slice =
      ((i.inlined call slice text).pushCount - (i.inlined call slice text).popCount returnsValue) -
        ((i.pushCount : Int) - i.popCount returnsValue) := by
  rw [popCount_inlined, pushCount_inlined]
  unfold lift
  by_cases hcall : i.offset = call
  · rw [hpush hcall]
    simp only [hcall, true_or, if_true]
    omega
  by_cases hslice : i.offset ∈ slice
  · simp only [hcall, hslice, or_true, if_true, if_false]
    omega
  · simp only [hcall, hslice, or_self, if_false]
    omega

end Instruction

namespace MethodBody

variable {b : MethodBody} {call : Nat} {slice : List Nat} {text : String} {height : Nat → Nat}
  {gain : Nat → Int}

/-- The new instructions push what the old ones pushed that is not of the slice. -/
theorem Detaches.pushedValues_inlined (h : b.Detaches call slice) {i : Instruction}
    (hi : i ∈ b.instructions) (text : String) :
    (i.inlined call slice text).pushedValues = unsliced slice i.pushedValues := by
  by_cases hslice : i.offset ∈ slice
  · have hcall : i.offset ≠ call := fun hcall => h.call_notMem (hcall ▸ hslice)
    rw [unsliced_pushedValues_of_mem hslice, inlined_slice hcall hslice]
    rfl
  · rw [unsliced_pushedValues hslice]
    unfold pushedValues
    rw [pushCount_inlined, offset_inlined, if_neg hslice]
    by_cases hcall : i.offset = call
    · rw [if_pos hcall, h.pushes_one i hi hcall]
    · rw [if_neg hcall]

/-- The call and the slice take values of the slice, and values that nothing has pushed. -/
theorem Raises.mem_slice_of_take (h : b.Raises call slice height gain) {q : Nat} {i : Instruction}
    {stack : List StackValue} (hi : b.instructions[q]? = some i) (hstack : b.StackPath q stack)
    (howned : i.offset = call ∨ i.offset ∈ slice) :
    ∀ o slot, some (o, slot) ∈ stack.take (i.popCount b.returnsValue) → o ∈ slice := by
  intro o slot htaken
  have hfeeds : b.Feeds o i.offset := ⟨q, i, stack, slot, hi, rfl, hstack, htaken⟩
  refine (h.feeds_own howned hfeeds).resolve_left ?_
  rintro rfl
  exact h.not_feeds_call howned hfeeds

/-- The new instruction finds enough on the new stack, leaves what is left of the old one, and takes
the same values if it was not replaced. -/
theorem Raises.residue_flow (h : b.Raises call slice height gain) (text : String) {q : Nat}
    {i : Instruction} {stack stack' : List StackValue} (hstack : b.StackPath q stack)
    (hi : b.instructions[q]? = some i) (hresidue : Residue slice stack stack') :
    (i.inlined call slice text).popCount b.returnsValue ≤ stack'.length ∧
    Residue slice (i.valuesAfter (i.popCount b.returnsValue) stack)
      ((i.inlined call slice text).valuesAfter
        ((i.inlined call slice text).popCount b.returnsValue) stack') ∧
    (¬ (i.offset = call ∨ i.offset ∈ slice) →
      stack'.take (i.popCount b.returnsValue) = stack.take (i.popCount b.returnsValue)) := by
  have hmem := List.mem_of_getElem? hi
  have hunpushed : none ∉ i.pushedValues := by
    intro hnone
    obtain ⟨_, -, heq⟩ := mem_pushedValues.mp hnone
    exact nomatch heq
  unfold valuesAfter
  rw [h.pushedValues_inlined hmem, clearsStack_inlined (h.straight i hmem),
    popCount_inlined]
  by_cases howned : i.offset = call ∨ i.offset ∈ slice
  · rw [if_pos howned, (h.straight i hmem howned).clears]
    refine ⟨Nat.zero_le _, ?_, fun hother => absurd howned hother⟩
    exact (hresidue.drop_sliced (h.mem_slice_of_take hi hstack howned)).append hunpushed
  · have henough : i.popCount b.returnsValue ≤ stack.length := by
      rw [hstack.length_eq h.nonempty h.balanced h.starts]
      exact h.balanced.enough q i (hstack.reachable h.nonempty) hi
    obtain ⟨henough', htake, hdrop⟩ :=
      hresidue.drop_unsliced (h.unsliced_take hi hstack howned) henough
    rw [if_neg howned]
    refine ⟨henough', ?_, fun _ => htake⟩
    cases i.clearsStack with
    | true => exact (Residue.replicate slice 0).append hunpushed
    | false => exact hdrop.append hunpushed

/-- Every path of the old method is one of the new method, with what is left of the stack. -/
theorem Raises.exists_inlined (h : b.Raises call slice height gain) (text : String) {q : Nat}
    {stack : List StackValue} (hstack : b.StackPath q stack) :
    ∃ stack', (b.inlined call slice text).StackPath q stack' ∧ Residue slice stack stack' := by
  induction hstack with
  | enter hentry =>
      refine ⟨_, .enter ?_, Residue.replicate slice _⟩
      rwa [entryHeight?_inlined]
  | flow hbefore hi hflows ih =>
      obtain ⟨stack', hstack', hresidue⟩ := ih
      refine ⟨_, .flow hstack' (getElem?_inlined_eq_some.mpr ⟨_, hi, rfl⟩)
        ((flowsTo_inlined h.straight (List.mem_of_getElem? hi)).mpr hflows), ?_⟩
      exact (h.residue_flow text hbefore hi hresidue).2.1

/-- Every path of the new method is one of the old method. -/
theorem Raises.exists_original (h : b.Raises call slice height gain) {q : Nat}
    {stack' : List StackValue} (hstack' : (b.inlined call slice text).StackPath q stack') :
    ∃ stack, b.StackPath q stack ∧ Residue slice stack stack' := by
  induction hstack' with
  | enter hentry =>
      refine ⟨_, .enter ?_, Residue.replicate slice _⟩
      rwa [entryHeight?_inlined] at hentry
  | flow _ hi' hflows ih =>
      obtain ⟨stack, hstack, hresidue⟩ := ih
      obtain ⟨i, hi, rfl⟩ := getElem?_inlined_eq_some.mp hi'
      have hflows' := (flowsTo_inlined h.straight (List.mem_of_getElem? hi)).mp hflows
      exact ⟨_, .flow hstack hi hflows', (h.residue_flow text hstack hi hresidue).2.1⟩

/-- If a stack is raised before an instruction, it is raised after it by what is gained there. -/
theorem Detaches.raised_flow (h : b.Detaches call slice) {i : Instruction}
    (hi : i ∈ b.instructions) {m m' : Nat} (henough : i.popCount b.returnsValue ≤ m)
    (henough' : (i.inlined call slice text).popCount b.returnsValue ≤ m') :
    (((i.inlined call slice text).pushCount + if i.clearsStack then 0
        else m' - (i.inlined call slice text).popCount b.returnsValue : Nat) : Int) =
      (i.pushCount + if i.clearsStack then 0 else m - i.popCount b.returnsValue : Nat) +
        if i.clearsStack then 0 else (m' - m : Int) + i.lift b.returnsValue call slice := by
  cases hclears : i.clearsStack with
  | true =>
      have hother : ¬ (i.offset = call ∨ i.offset ∈ slice) := by
        intro howned
        rw [(h.straight i hi howned).clears] at hclears
        exact nomatch hclears
      obtain ⟨hcall, hslice⟩ := not_or.mp hother
      rw [inlined_other hcall hslice]
      simp
  | false =>
      rw [lift_eq (h.pushes_one i hi) _ text]
      simp only [Bool.false_eq_true, if_false]
      omega

/-- The stacks of the new method have the raised heights. -/
theorem Raises.length_inlined (h : b.Raises call slice height gain) {q : Nat}
    {stack' : List StackValue} (hstack' : (b.inlined call slice text).StackPath q stack') :
    (stack'.length : Int) = height q + gain q := by
  induction hstack' with
  | @enter q n hentry =>
      rw [entryHeight?_inlined] at hentry
      rw [List.length_replicate, h.starts q n hentry, h.lifts.enter q n hentry, add_zero]
  | @flow q q' i' stack' hbefore hi' hflows ih =>
      obtain ⟨stack, hstack, hresidue⟩ := h.exists_original hbefore
      obtain ⟨i, hi, rfl⟩ := getElem?_inlined_eq_some.mp hi'
      have hmem := List.mem_of_getElem? hi
      have hflows' := (flowsTo_inlined h.straight hmem).mp hflows
      have hreachable := hstack.reachable h.nonempty
      have hraised := h.raised_flow hmem (h.balanced.enough q i hreachable hi)
        (h.residue_flow text hstack hi hresidue).1
      rw [length_valuesAfter, clearsStack_inlined (h.straight i hmem),
        h.balanced.flows q i q' hreachable hi hflows', h.lifts.flows q i q' hreachable hi hflows']
      rwa [ih, add_sub_cancel_left] at hraised

/-- The raised heights are right for the new method. -/
theorem Raises.balanced_inlined (h : b.Raises call slice height gain) (text : String) :
    (b.inlined call slice text).StartsAt (fun q => (height q + gain q).toNat) ∧
      (b.inlined call slice text).Balanced fun q => (height q + gain q).toNat := by
  have hlength : ∀ {q : Nat} {stack' : List StackValue},
      (b.inlined call slice text).StackPath q stack' →
        (height q + gain q).toNat = stack'.length := by
    intro q stack' hstack'
    rw [← h.length_inlined hstack', Int.toNat_natCast]
  refine ⟨?_, ?_, ?_⟩
  · intro q n hentry
    exact (hlength (.enter hentry)).trans List.length_replicate
  · intro q i' hq hi'
    obtain ⟨i, hi, rfl⟩ := getElem?_inlined_eq_some.mp hi'
    obtain ⟨stack, hstack⟩ := ((reachable_inlined h.straight text).mp hq).exists_stackPath
    obtain ⟨stack', hstack', hresidue⟩ := h.exists_inlined text hstack
    rw [hlength hstack']
    exact (h.residue_flow text hstack hi hresidue).1
  · intro q i' q' hq hi' hflows
    obtain ⟨stack', hstack'⟩ := hq.exists_stackPath
    rw [hlength (.flow hstack' hi' hflows), hlength hstack', length_valuesAfter]

/-- If both methods have balanced heights, their difference is what the stack is raised by. -/
theorem Detaches.lifts_of_balanced (h : b.Detaches call slice) {height' : Nat → Nat}
    (hstart : b.StartsAt height) (hbalanced : b.Balanced height)
    (hstart' : (b.inlined call slice text).StartsAt height')
    (hbalanced' : (b.inlined call slice text).Balanced height') :
    b.Lifts call slice fun q => height' q - height q := by
  refine ⟨?_, ?_⟩
  · intro q n hentry
    have hentry' := hstart' q n (by rwa [entryHeight?_inlined])
    rw [hstart q n hentry, hentry', sub_self]
  · intro q i q' hq hi hflows
    have hmem := List.mem_of_getElem? hi
    have hq' := (reachable_inlined h.straight text).mpr hq
    have hi' : (b.inlined call slice text).instructions[q]? = some (i.inlined call slice text) :=
      getElem?_inlined_eq_some.mpr ⟨i, hi, rfl⟩
    have hheight' := hbalanced'.flows q _ q' hq' hi' ((flowsTo_inlined h.straight hmem).mpr hflows)
    rw [clearsStack_inlined (h.straight i hmem)] at hheight'
    have hraised := h.raised_flow hmem (hbalanced.enough q i hq hi) (hbalanced'.enough q _ hq' hi')
    rw [hheight', hbalanced.flows q i q' hq hi hflows]
    exact sub_eq_of_eq_add' hraised

/-- Where an instruction that was not replaced takes values, the states of both methods have the
same sources. -/
theorem Raises.has_slot_iff (h : b.Raises call slice height gain) {q graph : Nat} {i : Instruction}
    (hi : b.instructions[q]? = some i) (hother : ¬ (i.offset = call ∨ i.offset ∈ slice))
    {s s' : FlowState} (hs : b.MergesStacks graph q s)
    (hs' : (b.inlined call slice text).MergesStacks graph q s') {depth : Nat}
    (hlt : depth < i.popCount b.returnsValue) (source : DataSource) :
    s'.Has (.slot depth source) ↔ s.Has (.slot depth source) := by
  have hdepth : ∀ {stack stack' : List StackValue}, b.StackPath q stack →
      Residue slice stack stack' → stack'[depth]? = stack[depth]? := by
    intro stack stack' hstack hresidue
    have htake := (h.residue_flow text hstack hi hresidue).2.2 hother
    calc stack'[depth]?
        = (stack'.take (i.popCount b.returnsValue))[depth]? := (List.getElem?_take_of_lt hlt).symm
      _ = (stack.take (i.popCount b.returnsValue))[depth]? := by rw [htake]
      _ = stack[depth]? := List.getElem?_take_of_lt hlt
  rw [hs.sources, hs'.sources]
  constructor
  · rintro ⟨stack', hstack', hpushed, hgraph⟩
    obtain ⟨stack, hstack, hresidue⟩ := h.exists_original hstack'
    exact ⟨stack, hstack, hdepth hstack hresidue ▸ hpushed, hgraph⟩
  · rintro ⟨stack, hstack, hpushed, hgraph⟩
    obtain ⟨stack', hstack', hresidue⟩ := h.exists_inlined text hstack
    exact ⟨stack', hstack', (hdepth hstack hresidue).trans hpushed, hgraph⟩

/-- The node of an instruction that was not replaced has the same sources for all it takes. -/
theorem Raises.node_stack (h : b.Raises call slice height gain) {id q : Nat} {i : Instruction}
    {g g' : DataFlowGraph} (hg : DataFlowGraph.ofBody b id = .ok g)
    (hg' : DataFlowGraph.ofBody (b.inlined call slice text) id = .ok g')
    (hi : b.instructions[q]? = some i) (hother : ¬ (i.offset = call ∨ i.offset ∈ slice)) :
    (g'.nodes.get? i.offset).map DataFlowNode.stack =
      (g.nodes.get? i.offset).map DataFlowNode.stack := by
  have hi' : (b.inlined call slice text).instructions[q]? = some i :=
    getElem?_inlined_eq_some.mpr
      ⟨i, hi, inlined_other (not_or.mp hother).1 (not_or.mp hother).2⟩
  have hb' : (b.inlined call slice text).Ascending :=
    h.ascending.map fun i => i.offset_inlined call slice text
  obtain ⟨hnode, hpath⟩ := ofBody_mergesStacks h.ascending hg hi
  obtain ⟨hnode', hpath'⟩ := ofBody_mergesStacks hb' hg' hi'
  cases hn : g.nodes.get? i.offset with
  | none =>
      cases hn' : g'.nodes.get? i.offset with
      | none => rfl
      | some n' =>
          obtain ⟨s', hs', -⟩ := hnode' n' hn'
          obtain ⟨stack', hstack'⟩ := hs'.reached
          obtain ⟨stack, hstack, -⟩ := h.exists_original hstack'
          obtain ⟨n, hn''⟩ := hpath ⟨stack, hstack⟩
          exact absurd (hn.symm.trans hn'') (Option.some_ne_none n).symm
  | some n =>
      obtain ⟨s, hs, henough, rfl⟩ := hnode n hn
      obtain ⟨stack, hstack⟩ := hs.reached
      obtain ⟨stack', hstack', -⟩ := h.exists_inlined text hstack
      obtain ⟨n', hn'⟩ := hpath' ⟨stack', hstack'⟩
      obtain ⟨s', hs', henough', rfl⟩ := hnode' n' hn'
      rw [hn', Option.map_some, Option.map_some]
      have htake : s'.stack.take (i.popCount b.returnsValue) =
          s.stack.take (i.popCount b.returnsValue) :=
        FlowState.take_eq_of_has henough' henough fun depth hlt source =>
          h.has_slot_iff hi hother hs hs' hlt source
      unfold flowNode
      exact congrArg (fun stack : List Sources =>
        some (⟨id, i.offset, stack.reverse.map fun sources => ⟨sources, some i.offset⟩⟩ :
          StackDependencies)) htake

/-- Where a string was inlined, the new method has a data-flow graph if and only if the stack is
raised by the same amount along all paths.  All instructions that were not replaced then depend on
the same values. -/
theorem inlineString_builds_iff {b' : MethodBody} (hb : b.Ascending)
    (hformed : ∀ i ∈ b.instructions, i.isWellFormed = true)
    (hinline : b.inlineString call text = .ok (slice, b')) :
    ((∃ g', DataFlowGraph.ofBody b' = .ok g') ↔ ∃ gain, b.Lifts call slice gain) ∧
      ∀ g g', DataFlowGraph.ofBody b = .ok g → DataFlowGraph.ofBody b' = .ok g' →
        ∀ o, o ≠ call → o ∉ slice →
          (g'.nodes.get? o).map DataFlowNode.stack = (g.nodes.get? o).map DataFlowNode.stack := by
  have hdetaches := detaches_of_inlineString hb hformed hinline
  obtain ⟨-, g, -, -, hg, -, -, rfl⟩ := inlineString_eq_ok hb hinline
  obtain ⟨hne, hentries, htargets, height, hstart, hbalanced⟩ :=
    (exists_ofBody_iff hb 0).mp ⟨g, hg⟩
  have hb' : (b.inlined call slice text).Ascending :=
    hb.map fun i => i.offset_inlined call slice text
  have hbuilds : (∃ g', ofBody (b.inlined call slice text) = .ok g') ↔
      ∃ gain, b.Lifts call slice gain := by
    rw [exists_ofBody_iff hb' 0]
    constructor
    · rintro ⟨-, -, -, height', hstart', hbalanced'⟩
      exact ⟨_, hdetaches.lifts_of_balanced hstart hbalanced hstart' hbalanced'⟩
    · rintro ⟨gain, hlifts⟩
      have hraises : b.Raises call slice height gain :=
        ⟨hdetaches, hb, hne, hstart, hbalanced, hlifts⟩
      refine ⟨by simpa [inlined] using hne, entriesPlaced_inlined.mpr hentries,
        targetsPlaced_inlined hdetaches.straight htargets, _, hraises.balanced_inlined text⟩
  refine ⟨hbuilds, ?_⟩
  intro g₀ g' hg₀ hg' o hcall hslice
  obtain rfl := Except.ok.inj (hg.symm.trans hg₀)
  obtain ⟨gain, hlifts⟩ := hbuilds.mp ⟨g', hg'⟩
  have hraises : b.Raises call slice height gain :=
    ⟨hdetaches, hb, hne, hstart, hbalanced, hlifts⟩
  by_cases hplace : ∃ (q : Nat) (i : Instruction), b.instructions[q]? = some i ∧ i.offset = o
  · obtain ⟨q, i, hi, rfl⟩ := hplace
    exact hraises.node_stack hg hg' hi (not_or.mpr ⟨hcall, hslice⟩)
  · have hnone : g.nodes.get? o = none := by
      by_contra hsome
      obtain ⟨n, hn⟩ := Option.ne_none_iff_exists'.mp hsome
      exact hplace (exists_instruction_of_node hb hg hn)
    have hnone' : g'.nodes.get? o = none := by
      by_contra hsome
      obtain ⟨n, hn⟩ := Option.ne_none_iff_exists'.mp hsome
      obtain ⟨q, i', hi', hoffset⟩ := exists_instruction_of_node hb' hg' hn
      obtain ⟨i, hi, rfl⟩ := getElem?_inlined_eq_some.mp hi'
      exact hplace ⟨q, i, hi, (i.offset_inlined call slice text).symm.trans hoffset⟩
    rw [hnone, hnone']

/-- A slice that can be computed, and of which nothing is shared, is replaced. -/
theorem inlineString_of_leaveWithin {b : MethodBody} {call visits : Nat} {slice : List Nat}
    {g : DataFlowGraph} {i : Instruction} (hi : b.instructionAt call = .ok i)
    (hstring : i.returnsString = true) (hg : DataFlowGraph.ofBody b = .ok g)
    (hleave : g.leaveWithin ⟨true, false⟩ visits [] [.enter call] = some (slice ++ [call]))
    (hshared : g.shared? call slice = none) (text : String) :
    b.inlineString call text = do
      let cleared ← b.withNops slice
      return (slice, ← cleared.withCode call .ldstr (.string text)) := by
  unfold inlineString
  rw [hi, hg]
  simp only [bind, Except.bind, hstring, Bool.not_true, Bool.false_eq_true, if_false]
  rw [stackSlice_of_leaveWithin hleave]
  simp only [hshared]

/-- A method that computes a text. -/
def textMethod (token : UInt32) (name : String) (parameters : List TypeSig) : MethodRef where
  token := ⟨token⟩
  declaringType := ⟨⟨0x02000001⟩, "", "<Module>", false⟩
  name := name
  signature := ⟨false, parameters, .string⟩
  isVirtual := false

/-- A method that computes a text from a number, unless its argument is not zero. -/
def branchAround : MethodBody where
  instructions :=
    [⟨0, .ldarg_0, .none, 1⟩, ⟨1, .brtrue_s, .target 12, 2⟩, ⟨3, .ldc_i4_2, .none, 1⟩,
      ⟨4, .ldc_i4_3, .none, 1⟩, ⟨5, .add, .none, 1⟩,
      ⟨6, .call, .method (textMethod 0x06000040 "D" [.int32]), 5⟩, ⟨11, .pop, .none, 1⟩,
      ⟨12, .ret, .none, 1⟩]
  parameters := [.int32]

theorem inlineString_builds_iff_branchAround :
    ∃ b' g g', branchAround.inlineString 6 "x" = .ok ([3, 4, 5], b') ∧
      DataFlowGraph.ofBody branchAround = .ok g ∧ DataFlowGraph.ofBody b' = .ok g' ∧
      (∃ gain, branchAround.Lifts 6 [3, 4, 5] gain) ∧
      (g'.nodes.get? 11).map DataFlowNode.stack = (g.nodes.get? 11).map DataFlowNode.stack := by
  obtain ⟨g, hg, hfound⟩ := exists_of_map_eq_ok (r := ofBody branchAround)
    (f := fun g => (g.leaveWithin ⟨true, false⟩ 10 [] [.enter 6], g.shared? 6 [3, 4, 5]))
    (y := (some ([3, 4, 5] ++ [6]), none)) (by decide +kernel)
  obtain ⟨hleave, hshared⟩ := Prod.mk.inj hfound
  have hinline : branchAround.inlineString 6 "x" =
      .ok ([3, 4, 5], branchAround.inlined 6 [3, 4, 5] "x") := by
    rw [inlineString_of_leaveWithin rfl (by decide) hg hleave hshared]
    decide +kernel
  obtain ⟨g', hg', -⟩ := exists_of_map_eq_ok (f := fun _ => ()) (y := ())
    (r := ofBody (branchAround.inlined 6 [3, 4, 5] "x")) (by decide +kernel)
  obtain ⟨hbuilds, hstacks⟩ := inlineString_builds_iff (by decide) (by decide) hinline
  exact ⟨_, g, g', hinline, hg, hg', hbuilds.mp ⟨g', hg'⟩,
    hstacks g g' hg hg' 11 (by decide) (by decide)⟩

/-- A method that computes a text from the exception it has caught, unless its argument is not
zero. -/
def caughtText : MethodBody where
  instructions :=
    [⟨0, .call, .method (textMethod 0x06000041 "E" []), 5⟩, ⟨5, .pop, .none, 1⟩,
      ⟨6, .leave_s, .target 19, 2⟩, ⟨8, .ldarg_0, .none, 1⟩, ⟨9, .brtrue_s, .target 16, 2⟩,
      ⟨11, .call, .method (textMethod 0x06000040 "D" [.object]), 5⟩, ⟨16, .pop, .none, 1⟩,
      ⟨17, .leave_s, .target 19, 2⟩, ⟨19, .ret, .none, 1⟩]
  clauses := [⟨.catches ⟨⟨0x01000003⟩, "System", "Exception", false⟩, 0, 8, 8, 19⟩]
  parameters := [.int32]

/-- The exception is left on the stack on the way through the text, and taken on the other one. -/
theorem inlineString_caughtText :
    caughtText.Contiguous ∧ (∀ i ∈ caughtText.instructions, i.isWellFormed = true) ∧
      (∃ g, DataFlowGraph.ofBody caughtText = .ok g) ∧
      ∃ slice b', caughtText.inlineString 11 "x" = .ok (slice, b') ∧
        ¬ ∃ g', DataFlowGraph.ofBody b' = .ok g' := by
  obtain ⟨g, hg, hfound⟩ := exists_of_map_eq_ok (r := ofBody caughtText)
    (f := fun g => (g.leaveWithin ⟨true, false⟩ 10 [] [.enter 11], g.shared? 11 []))
    (y := (some ([] ++ [11]), none)) (by decide +kernel)
  obtain ⟨hleave, hshared⟩ := Prod.mk.inj hfound
  have hinline : caughtText.inlineString 11 "x" = .ok ([], caughtText.inlined 11 [] "x") := by
    rw [inlineString_of_leaveWithin rfl (by decide) hg hleave hshared]
    decide +kernel
  refine ⟨by decide, by decide, ⟨g, hg⟩, [], _, hinline, ?_⟩
  rintro ⟨g', hg'⟩
  have hfails : (ofBody (caughtText.inlined 11 [] "x")).map (fun _ => ()) =
      .error (.stackImbalance 16 1 2) := by decide +kernel
  rw [hg'] at hfails
  exact nomatch hfails

end MethodBody

end CilAnalysis
