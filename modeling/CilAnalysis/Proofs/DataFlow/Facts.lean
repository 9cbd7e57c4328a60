import CilAnalysis.DataFlow.Build
import CilAnalysis.Proofs.SortedMap

/-!
# Facts about where values come from

What a `FlowState` says is taken apart into single facts: a source is among those of a stack slot,
or among those of a variable.  Facts are the terms in which everything else about the data-flow
graph is stated.

* A state is determined by its height and its facts (`FlowState.ext_has`).  So a state that has
  grown has more facts, and the number of facts measures how far the collection has come.
* Merging two states joins their facts (`FlowState.merge_has`).  States that are merged have the
  same height, so the slots are merged one by one.
* What an instruction does to facts is `Instruction.carry`, a map of predicates that no longer
  mentions maps and lists (`Instruction.flow_has`).

## Strategy

`Instruction.carry` is made so that it can be applied to the facts of one state, to those of one
path and to those of some path among many.  Two properties are all that is needed to go from one to
the other: it is monotone (`Instruction.carry_mono`), and it goes through a choice of paths
(`Instruction.carry_exists`), because each fact after an instruction goes back to at most one fact
before it.
-/

namespace CilAnalysis

open SortedMap

instance : Std.LawfulEqOrd Variable where
  compare_self := Std.ReflCmp.compare_self
  eq_of_compare := by
    rintro (n | n) (k | k) h
    all_goals
      simp only [compare, compareLex, compareOn, Variable.kind, Variable.index,
        Ordering.then_eq_eq] at h
    · exact congrArg Variable.loc (Std.LawfulEqOrd.eq_of_compare h.2)
    · exact nomatch h.1
    · exact nomatch h.1
    · exact congrArg Variable.arg (Std.LawfulEqOrd.eq_of_compare h.2)

instance : Std.LawfulEqOrd DataSource where
  compare_self := Std.ReflCmp.compare_self
  eq_of_compare := by
    rintro ⟨g, n, k⟩ ⟨g', n', k'⟩ h
    simp only [compare, compareLex, compareOn, Ordering.then_eq_eq] at h
    obtain ⟨hgraph, hnode, hslot⟩ := h
    obtain rfl : g = g' := Std.LawfulEqOrd.eq_of_compare hgraph
    obtain rfl : n = n' := Std.LawfulEqOrd.eq_of_compare hnode
    obtain rfl : k = k' := Std.LawfulEqOrd.eq_of_compare hslot
    rfl

/-- A single fact about the sources of stack slots, counted from the top, and of variables. -/
inductive FlowFact where
  | slot (depth : Nat) (source : DataSource)
  | writer (v : Variable) (source : DataSource)
  /-- The variable has been written at all. -/
  | written (v : Variable)
  deriving DecidableEq

namespace FlowFact

/-- Whether a fact is about a variable. -/
def isOfVariable : FlowFact → Bool
  | slot .. => false
  | writer .. | written _ => true

end FlowFact

namespace FlowState

/-- The facts a state consists of. -/
def Has (s : FlowState) : FlowFact → Prop
  | .slot depth source => ∃ sources, s.stack[depth]? = some sources ∧ source ∈ sources
  | .writer v source => ∃ sources, s.byVariable.get? v = some sources ∧ source ∈ sources
  | .written v => v ∈ s.byVariable

/-- A state of the same height that has all facts of another. -/
structure Below (s t : FlowState) : Prop where
  height : s.stack.length = t.stack.length
  has : ∀ f, s.Has f → t.Has f

theorem Below.refl (s : FlowState) : s.Below s := ⟨rfl, fun _ h => h⟩

theorem Below.trans {s t u : FlowState} (h : s.Below t) (h' : t.Below u) : s.Below u :=
  ⟨h.height.trans h'.height, fun f hf => h'.has f (h.has f hf)⟩

/-- A state is determined by its height and its facts. -/
theorem ext_has {s t : FlowState} (hheight : s.stack.length = t.stack.length)
    (hfacts : ∀ f, s.Has f ↔ t.Has f) : s = t := by
  -- Slot by slot and variable by variable, the sources have the same members.
  have hstack : s.stack = t.stack := by
    refine List.ext_getElem hheight ?_
    intro k hk hk'
    refine SortedSet.ext_mem ?_
    intro source
    have hslot := hfacts (.slot k source)
    simpa [Has, List.getElem?_eq_getElem hk, List.getElem?_eq_getElem hk'] using hslot
  have hvariables : s.byVariable = t.byVariable := by
    refine ext_get? ?_
    intro v
    have hwritten := hfacts (.written v)
    simp only [Has] at hwritten
    by_cases hv : v ∈ s.byVariable
    · obtain ⟨sources, hget⟩ := mem_iff_get?.mp hv
      obtain ⟨sources', hget'⟩ := mem_iff_get?.mp (hwritten.mp hv)
      rw [hget, hget']
      refine congrArg some (SortedSet.ext_mem ?_)
      intro source
      have hwriter := hfacts (.writer v source)
      simpa [Has, hget, hget'] using hwriter
    · rw [notMem_iff_get?.mp hv, notMem_iff_get?.mp (mt hwritten.mpr hv)]
  cases s
  cases t
  cases hstack
  cases hvariables
  rfl

/-- A state that is entered from outside has no facts. -/
theorem not_has_ofHeight (height : Nat) (f : FlowFact) : ¬ (ofHeight height).Has f := by
  cases f with
  | slot depth source =>
      rintro ⟨sources, hget, hmem⟩
      obtain rfl := List.eq_of_mem_replicate (List.mem_of_getElem? hget)
      exact notMem_empty source hmem
  | writer v source =>
      rintro ⟨sources, hget, -⟩
      exact nomatch hget
  | written v => exact notMem_empty v

/-! ## Merging -/

private theorem mergeVariables_writer {known more : SortedMap Variable Sources} {v : Variable}
    {source : DataSource} :
    (∃ sources, (mergeVariables known more).get? v = some sources ∧ source ∈ sources) ↔
      (∃ sources, known.get? v = some sources ∧ source ∈ sources) ∨
        ∃ sources, more.get? v = some sources ∧ source ∈ sources := by
  -- By induction on the variables still to be merged, for any that are known.
  have hfold : ∀ (l : List (Variable × Sources)) (known : SortedMap Variable Sources),
      (∃ sources, (l.foldl (fun m e =>
          m.insert e.1 (SortedSet.union ((m.get? e.1).getD .empty) e.2)) known).get? v =
          some sources ∧ source ∈ sources) ↔
        (∃ sources, known.get? v = some sources ∧ source ∈ sources) ∨
          ∃ sources, (v, sources) ∈ l ∧ source ∈ sources := by
    intro l
    induction l with
    | nil => simp
    | cons e rest ih =>
        intro known
        rw [List.foldl_cons, ih, get?_insert]
        by_cases hv : v = e.1
        · subst hv
          cases hget : known.get? e.1 with
          | none => simp [SortedSet.mem_union, Prod.ext_iff, or_and_right, exists_or]
          | some old => simp [SortedSet.mem_union, or_assoc, Prod.ext_iff, or_and_right, exists_or]
        · simp [hv, Prod.ext_iff]
  rw [mergeVariables, hfold]
  simp only [get?_eq_some_iff]

private theorem mem_mergeVariables {known more : SortedMap Variable Sources} {v : Variable} :
    v ∈ mergeVariables known more ↔ v ∈ known ∨ v ∈ more := by
  have hfold : ∀ (l : List (Variable × Sources)) (known : SortedMap Variable Sources),
      v ∈ l.foldl (fun m e =>
          m.insert e.1 (SortedSet.union ((m.get? e.1).getD .empty) e.2)) known ↔
        v ∈ known ∨ v ∈ l.map Prod.fst := by
    intro l
    induction l with
    | nil => simp
    | cons e rest ih =>
        intro known
        rw [List.foldl_cons, ih, mem_insert, List.map_cons, List.mem_cons]
        tauto
  exact hfold more.entries known

/-- The facts about variables of a state whose variables were merged with others. -/
theorem has_mergeVariables {s : FlowState} {more : FlowState} {f : FlowFact} :
    ({ s with byVariable := mergeVariables s.byVariable more.byVariable } : FlowState).Has f ↔
      s.Has f ∨ (f.isOfVariable ∧ more.Has f) := by
  cases f with
  | slot depth source => simp [Has, FlowFact.isOfVariable]
  | writer v source => simpa [Has, FlowFact.isOfVariable] using mergeVariables_writer
  | written v => simpa [Has, FlowFact.isOfVariable] using mem_mergeVariables

/-- Merging joins the facts of two states of one height. -/
theorem merge_has {s t u : FlowState} {offset : Nat} (h : s.merge t offset = .ok u) :
    s.stack.length = t.stack.length ∧ u.stack.length = s.stack.length ∧
      ∀ f, u.Has f ↔ s.Has f ∨ t.Has f := by
  unfold merge at h
  split at h
  next hheight =>
    cases h
    refine ⟨hheight, by simp [hheight], ?_⟩
    intro f
    cases f with
    | slot depth source =>
        simp only [Has, List.getElem?_zipWith]
        by_cases hdepth : depth < s.stack.length
        · have hdepth' : depth < t.stack.length := hheight ▸ hdepth
          simp [List.getElem?_eq_getElem hdepth, List.getElem?_eq_getElem hdepth',
            SortedSet.mem_union]
        · have hnone := List.getElem?_eq_none (Nat.le_of_not_lt hdepth)
          have hnone' := List.getElem?_eq_none (hheight ▸ Nat.le_of_not_lt hdepth)
          simp [hnone, hnone']
    | writer v source => exact mergeVariables_writer
    | written v => exact mem_mergeVariables
  next => exact nomatch h

end FlowState

/-! ## What an instruction does to facts -/

namespace Instruction

/-- The facts after an instruction, given those before it: about each value it pushes and each
variable it writes that it is the only source, and otherwise what held before. -/
def carry (i : Instruction) (graph pops : Nat) (P : FlowFact → Prop) : FlowFact → Prop
  | .slot depth source =>
    if depth < i.pushCount then source = ⟨graph, i.offset, i.pushCount - 1 - depth⟩
    else i.clearsStack = false ∧ P (.slot (pops + (depth - i.pushCount)) source)
  | .writer v source =>
    if v ∈ i.variablesWritten then source = ⟨graph, i.offset, 0⟩ else P (.writer v source)
  | .written v => v ∈ i.variablesWritten ∨ P (.written v)

variable {i : Instruction} {graph pops : Nat}

theorem carry_mono {P Q : FlowFact → Prop} (hPQ : ∀ f, P f → Q f) {f : FlowFact}
    (h : i.carry graph pops P f) : i.carry graph pops Q f := by
  cases f with
  | slot depth source =>
      simp only [carry] at h ⊢
      split at h
      next hpushed => rwa [if_pos hpushed]
      next hkept =>
        rw [if_neg hkept]
        exact ⟨h.1, hPQ _ h.2⟩
  | writer v source =>
      simp only [carry] at h ⊢
      split at h
      next hwritten => rwa [if_pos hwritten]
      next hkept =>
        rw [if_neg hkept]
        exact hPQ _ h
  | written v => exact h.imp id (hPQ _)

/-- Each fact after an instruction goes back to at most one fact before it. -/
theorem carry_exists {ι : Type} {R : ι → Prop} (hinhabited : ∃ x, R x) {P : ι → FlowFact → Prop}
    {f : FlowFact} (h : i.carry graph pops (fun f => ∃ x, R x ∧ P x f) f) :
    ∃ x, R x ∧ i.carry graph pops (P x) f := by
  -- Where the instruction itself is the source it does not matter which alternative is taken.
  obtain ⟨x₀, hx₀⟩ := hinhabited
  cases f with
  | slot depth source =>
      simp only [carry] at h ⊢
      by_cases hpushed : depth < i.pushCount
      · simp only [hpushed, if_true] at h ⊢
        exact ⟨x₀, hx₀, h⟩
      · simp only [hpushed, if_false] at h ⊢
        obtain ⟨hclears, x, hx, hP⟩ := h
        exact ⟨x, hx, hclears, hP⟩
  | writer v source =>
      simp only [carry] at h ⊢
      by_cases hwritten : v ∈ i.variablesWritten
      · simp only [hwritten, if_true] at h ⊢
        exact ⟨x₀, hx₀, h⟩
      · simp only [hwritten, if_false] at h ⊢
        exact h
  | written v =>
      rcases h with h | ⟨x, hx, hP⟩
      · exact ⟨x₀, hx₀, Or.inl h⟩
      · exact ⟨x, hx, Or.inr hP⟩

private theorem get?_foldl_written {sources : Sources} (vs : List Variable)
    (m : SortedMap Variable Sources) (v : Variable) :
    (vs.foldl (fun m v => m.insert v sources) m).get? v =
      if v ∈ vs then some sources else m.get? v := by
  induction vs generalizing m with
  | nil => simp
  | cons v₀ rest ih =>
      rw [List.foldl_cons, ih, get?_insert]
      by_cases hv : v ∈ rest <;> by_cases hv₀ : v = v₀ <;> simp [hv, hv₀]

private theorem length_pushedSources : (i.pushedSources graph).length = i.pushCount := by
  simp [pushedSources]

private theorem getElem?_pushedSources {depth : Nat} (hdepth : depth < i.pushCount) :
    (i.pushedSources graph)[depth]? =
      some (.singleton ⟨graph, i.offset, i.pushCount - 1 - depth⟩) := by
  unfold pushedSources
  rw [List.getElem?_map, List.getElem?_reverse (by simpa using hdepth), List.length_range,
    List.getElem?_range (by omega)]
  rfl

/-- The state after an instruction has the facts that the instruction carries over. -/
theorem flow_has {s : FlowState} {f : FlowFact} :
    (i.flow graph pops s).Has f ↔ i.carry graph pops s.Has f := by
  cases f with
  | slot depth source =>
      simp only [FlowState.Has, carry, flow]
      by_cases hpushed : depth < i.pushCount
      · rw [List.getElem?_append_left (by rwa [length_pushedSources]),
          getElem?_pushedSources hpushed, if_pos hpushed]
        simp
      · rw [List.getElem?_append_right (by rw [length_pushedSources]; omega),
          length_pushedSources, if_neg hpushed]
        cases i.clearsStack with
        | true => simp
        | false => simp
  | writer v source =>
      simp only [FlowState.Has, carry, flow, get?_foldl_written]
      by_cases hv : v ∈ i.variablesWritten <;> simp [hv]
  | written v =>
      simp only [FlowState.Has, carry, flow, mem_iff_get?, get?_foldl_written]
      by_cases hv : v ∈ i.variablesWritten <;> simp [hv]

theorem length_flow_stack (s : FlowState) :
    (i.flow graph pops s).stack.length =
      i.pushCount + if i.clearsStack then 0 else s.stack.length - pops := by
  unfold flow pushedSources
  by_cases hclears : i.clearsStack <;> simp [hclears]

end Instruction

end CilAnalysis
