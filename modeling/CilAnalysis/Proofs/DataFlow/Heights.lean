import CilAnalysis.Proofs.DataFlow.Fixpoint

/-!
# Heights of the stack

Whether a method has a data-flow graph is a matter of heights alone.  There must be a height for
every instruction that control can reach, such that each finds enough on the stack and leaves what
the next ones expect (`MethodBody.Balanced`), and which is right where control enters.

`DataFlowGraph.exists_ofBody_iff` is the result for all methods whose offsets ascend, and
`DataFlowGraph.builds_iff_balanced` compares it with heights that are right for all clauses: those
exist exactly if there is a graph and the clauses agree (`MethodBody.EntriesAgree`).

## Strategy

*From heights to a graph.*  A law for stacks (`StackLaw`) is a property that holds where control
enters and goes with the flow.  It holds of every state that is collected, and where there is a law
the collection does not fail (`StackLaw.run`).  To have the height that is given for each
instruction is a law, if the heights are balanced (`MethodBody.Balanced.stackLaw`).

*From a graph to heights.*  A collection that has come to rest has a state wherever control can come
(`FlowProgress.Valid.exists_of_reachable`), and the heights of the states are balanced, because
every instruction is settled (`FlowProgress.Valid.balanced`).
-/

namespace CilAnalysis

/-! ## Where control enters -/

namespace MethodBody

variable {b : MethodBody}

/-- An instruction starts at an offset. -/
def HasOffset (b : MethodBody) (offset : Nat) : Prop := ∃ i ∈ b.instructions, i.offset = offset

instance (b : MethodBody) (offset : Nat) : Decidable (b.HasOffset offset) :=
  inferInstanceAs (Decidable (∃ i ∈ b.instructions, _))

/-- Handlers and filters start at instructions. -/
def EntriesPlaced (b : MethodBody) : Prop :=
  ∀ c ∈ b.clauses, ∀ offset ∈ c.entries, b.HasOffset offset

instance (b : MethodBody) : Decidable b.EntriesPlaced :=
  inferInstanceAs (Decidable (∀ c ∈ b.clauses, ∀ offset ∈ c.entries, _))

/-- The height of the stack where control enters in a place: what the last clause asks for that is
entered there, and nothing at the start of the method if there is no such clause. -/
def entryHeightOf (b : MethodBody) (clauses : List Clause) (place : Nat) : Option Nat :=
  (b.instructions[place]?.bind fun i =>
    (clauses.reverse.find? fun c => c.EntersAt i.offset).map fun c =>
      c.kind.receivesException.toNat).or
    (if place = 0 then some 0 else none)

@[inherit_doc entryHeightOf]
def entryHeight? (b : MethodBody) (place : Nat) : Option Nat := b.entryHeightOf b.clauses place

/-- The clauses that are entered in a place ask for the height that is there, and so does the start
of the method. -/
structure EntriesAgree (b : MethodBody) : Prop where
  first : b.entryHeight? 0 = some 0
  entry : ∀ c ∈ b.clauses, ∀ q j, b.instructions[q]? = some j → c.EntersAt j.offset →
    b.entryHeight? q = some c.kind.receivesException.toNat

private theorem entryHeightOf_concat (b : MethodBody) (done : List Clause) (c : Clause) (q : Nat) :
    b.entryHeightOf (done ++ [c]) q =
      if ∃ j, b.instructions[q]? = some j ∧ c.EntersAt j.offset then
        some c.kind.receivesException.toNat
      else b.entryHeightOf done q := by
  unfold entryHeightOf
  rw [List.reverse_append, List.reverse_singleton, List.singleton_append]
  cases hj : b.instructions[q]? with
  | none => simp
  | some j =>
      by_cases henters : c.EntersAt j.offset
      · simp [henters]
      · simp [henters]

/-- A place where control enters is the first one or one that some clause is entered in. -/
theorem entryHeight?_eq_some {q n : Nat} (h : b.entryHeight? q = some n) :
    (q = 0 ∧ n = 0) ∨ ∃ c ∈ b.clauses, ∃ j, b.instructions[q]? = some j ∧ c.EntersAt j.offset ∧
      n = c.kind.receivesException.toNat := by
  unfold entryHeight? entryHeightOf at h
  rcases Option.or_eq_some_iff.mp h with h | ⟨-, h⟩
  · obtain ⟨j, hj, h⟩ := Option.bind_eq_some_iff.mp h
    obtain ⟨c, hc, rfl⟩ := Option.map_eq_some_iff.mp h
    have henters : c.EntersAt j.offset := by simpa using List.find?_some hc
    exact .inr ⟨c, List.mem_reverse.mp (List.mem_of_find?_eq_some hc), j, hj, henters, rfl⟩
  · split at h
    next hq => exact .inl ⟨hq, (Option.some.inj h).symm⟩
    next => exact nomatch h

theorem exists_entryHeight? {q : Nat}
    (h : q = 0 ∨ ∃ c ∈ b.clauses, ∃ j, b.instructions[q]? = some j ∧ c.EntersAt j.offset) :
    ∃ n, b.entryHeight? q = some n := by
  rw [← Option.isSome_iff_exists]
  unfold entryHeight? entryHeightOf
  rw [Option.isSome_or, Bool.or_eq_true]
  rcases h with rfl | ⟨c, hc, j, hj, henters⟩
  · exact .inr rfl
  · refine .inl ?_
    rw [hj, Option.bind_some, Option.isSome_map, List.find?_isSome]
    exact ⟨c, List.mem_reverse.mpr hc, decide_eq_true henters⟩

end MethodBody

namespace FlowProblem

variable {b : MethodBody} {graph : Nat} {x : FlowProgress}

private theorem exists_placeOf_iff (graph : Nat) (hb : b.Ascending) (source offset : Nat) :
    (∃ q, (ofBody graph b).placeOf source offset = .ok q) ↔ b.HasOffset offset := by
  constructor
  · rintro ⟨q, hq⟩
    obtain ⟨i, hi, hoffset⟩ := (placeOf_eq_ok hb).mp hq
    exact ⟨i, List.mem_of_getElem? hi, hoffset⟩
  · rintro ⟨i, hi, hoffset⟩
    obtain ⟨q, hq⟩ := List.getElem?_of_mem hi
    exact ⟨q, (placeOf_eq_ok hb).mpr ⟨i, hq, hoffset⟩⟩

private theorem exists_entryPlaces_iff (graph : Nat) (hb : b.Ascending) (c : Clause) :
    (∃ places, (ofBody graph b).entryPlaces c = .ok places) ↔
      ∀ offset ∈ c.entries, b.HasOffset offset := by
  unfold entryPlaces
  constructor
  · rintro ⟨places, hplaces⟩ offset hoffset
    exact (exists_placeOf_iff graph hb _ offset).mp (exists_of_mapM hplaces hoffset)
  · intro h
    exact mapM_total fun offset hoffset =>
      (exists_placeOf_iff graph hb _ offset).mpr (h offset hoffset)

private theorem exists_successors_iff (graph : Nat) (hb : b.Ascending) (q : Nat) (i : Instruction) :
    (∃ targets, (ofBody graph b).successors q i = .ok targets) ↔
      ∀ offset ∈ i.targets, b.HasOffset offset := by
  unfold successors
  constructor
  · rintro ⟨targets, htargets⟩ offset hoffset
    obtain ⟨branches, hbranches, -⟩ := bind_eq_ok htargets
    exact (exists_placeOf_iff graph hb _ offset).mp (exists_of_mapM hbranches hoffset)
  · intro h
    obtain ⟨branches, hbranches⟩ := mapM_total (f := (ofBody graph b).placeOf i.offset)
      fun offset hoffset => (exists_placeOf_iff graph hb _ offset).mpr (h offset hoffset)
    rw [hbranches]
    exact ⟨_, rfl⟩

private theorem start_eq_ok_iff (graph : Nat) (hb : b.Ascending) :
    (∃ x, (ofBody graph b).start = .ok x) ↔ b.EntriesPlaced := by
  unfold start
  constructor
  · rintro ⟨x, hx⟩ c hc
    obtain ⟨z, z', hstep⟩ := exists_step_of_foldlM hx hc
    obtain ⟨places, hplaces, -⟩ := bind_eq_ok hstep
    exact (exists_entryPlaces_iff graph hb c).mp ⟨places, hplaces⟩
  · intro hentries
    obtain ⟨x, hx, -⟩ := foldlM_total (P := fun _ => True) (l := (ofBody graph b).clauses)
      (x := enterAt ⟨.empty, .empty, .empty⟩ 0 0)
      (f := fun progress c => do
        let places ← (ofBody graph b).entryPlaces c
        return places.foldl (fun q place => enterAt q place c.kind.receivesException.toNat)
          progress)
      (fun c hc z _ => by
        obtain ⟨places, hplaces⟩ := (exists_entryPlaces_iff graph hb c).mpr (hentries c hc)
        exact ⟨_, by rw [hplaces]; rfl, trivial⟩) trivial
    exact ⟨x, hx⟩

/-- At the start there are empty stacks of the heights with which control enters. -/
theorem states_start (hb : b.Ascending) (hx : (ofBody graph b).start = .ok x) (q : Nat) :
    x.states.get? q = (b.entryHeight? q).map FlowState.ofHeight := by
  revert q
  refine start_induction (P := fun done z =>
    ∀ q, z.states.get? q = (b.entryHeightOf done q).map FlowState.ofHeight) ?_ ?_ hx
  · intro q
    unfold enterAt MethodBody.entryHeightOf
    rw [SortedMap.get?_insert]
    cases b.instructions[q]? <;> by_cases hq : q = 0 <;> simp [hq]
  · -- A later clause overwrites what an earlier one asked for in the same place.
    intro done c z places hz hplaces q
    rw [get?_foldl_enterAt, hz, b.entryHeightOf_concat]
    by_cases hq : q ∈ places
    · rw [if_pos hq, if_pos ((mem_entryPlaces hb hplaces q).mp hq), Option.map_some]
    · rw [if_neg hq, if_neg fun h => hq ((mem_entryPlaces hb hplaces q).mpr h)]

end FlowProblem

/-! ## Laws for stacks -/

/-- The sources of the stack after an instruction, which takes `pops` values from it. -/
def Instruction.stackAfter (i : Instruction) (graph pops : Nat) (stack : List Sources) :
    List Sources :=
  i.pushedSources graph ++ if i.clearsStack then [] else stack.drop pops

private theorem Instruction.length_stackAfter (i : Instruction) (graph pops : Nat)
    (stack : List Sources) :
    (i.stackAfter graph pops stack).length =
      i.pushCount + if i.clearsStack then 0 else stack.length - pops :=
  i.length_flow_stack ⟨stack, .empty⟩

/-- A property of the stacks before instructions that holds where control enters, is kept when
stacks are merged, and goes with the flow. -/
structure StackLaw (b : MethodBody) (graph : Nat) (P : Nat → List Sources → Prop) : Prop where
  enter : ∀ q n, b.entryHeight? q = some n → P q (List.replicate n .empty)
  merge : ∀ q s t, P q s → P q t → s.length = t.length ∧ P q (s.zipWith SortedSet.union t)
  enough : ∀ q i s, P q s → b.instructions[q]? = some i → i.popCount b.returnsValue ≤ s.length
  targets : ∀ q i s, P q s → b.instructions[q]? = some i → ∀ o ∈ i.targets, b.HasOffset o
  flow : ∀ q i s q', P q s → b.instructions[q]? = some i → b.FlowsTo q i q' →
    P q' (i.stackAfter graph (i.popCount b.returnsValue) s)

namespace StackLaw

variable {b : MethodBody} {graph : Nat} {P : Nat → List Sources → Prop}

/-- Every state has a property. -/
def Holds (P : Nat → List Sources → Prop) (x : FlowProgress) : Prop :=
  ∀ q s, x.states.get? q = some s → P q s.stack

theorem Holds.insert {x : FlowProgress} (hx : Holds P x) {q : Nat} {s : FlowState}
    (hs : P q s.stack) {queue : SortedSet Nat} : Holds P ⟨x.states.insert q s, queue, x.nodes⟩ := by
  intro q' t ht
  dsimp only at ht
  rw [SortedMap.get?_insert] at ht
  split at ht
  next heq =>
    obtain rfl := Option.some.inj ht
    exact heq ▸ hs
  next => exact hx q' t ht

theorem Holds.grow {x : FlowProgress} (hx : Holds P x) {q : Nat} {old new : FlowState}
    (hnew : P q new.stack) : Holds P (FlowProblem.grow x q old new) := by
  unfold FlowProblem.grow
  split
  next => exact hx
  next => exact hx.insert hnew

/-- Passing on variables leaves stacks alone. -/
theorem Holds.propagateVariables {x : FlowProgress} (hx : Holds P x) (before after : FlowState)
    (q : Nat) : Holds P (FlowProblem.propagateVariables before after x q) := by
  unfold FlowProblem.propagateVariables
  split
  next old hold => exact hx.grow (hx q old hold)
  next => exact hx

theorem propagate (h : StackLaw b graph P) {x : FlowProgress} (hx : Holds P x) {q : Nat}
    {s : FlowState} (hs : P q s.stack) :
    ∃ y, (FlowProblem.ofBody graph b).propagate s x q = .ok y ∧ Holds P y := by
  unfold FlowProblem.propagate
  split
  next old i hold _ =>
    obtain ⟨hheight, hmerged⟩ := h.merge q old.stack s.stack (hx q old hold) hs
    unfold FlowState.merge
    rw [if_pos hheight]
    exact ⟨_, rfl, hx.grow hmerged⟩
  next => exact ⟨_, rfl, hx.insert hs⟩

/-- Handlers can always be given variables. -/
theorem Holds.handlers (graph : Nat) (hb : b.Ascending) (hentries : b.EntriesPlaced)
    {x : FlowProgress} (hx : Holds P x) (before after : FlowState) {l : List Clause}
    (hl : l ⊆ b.clauses) :
    ∃ y, l.foldlM (fun progress c => do
      return (← (FlowProblem.ofBody graph b).entryPlaces c).foldl
        (FlowProblem.propagateVariables before after) progress) x = .ok y ∧ Holds P y := by
  refine foldlM_total (P := Holds P) (fun c hc z hz => ?_) hx
  obtain ⟨places, hplaces⟩ :=
    (FlowProblem.exists_entryPlaces_iff graph hb c).mpr (hentries c (hl hc))
  refine ⟨_, by rw [hplaces]; rfl, ?_⟩
  exact List.foldlRecOn places _ hz fun w hw q _ => hw.propagateVariables before after q

/-- A visit succeeds where the law holds, and keeps it. -/
theorem visit (hb : b.Ascending) (hentries : b.EntriesPlaced) (h : StackLaw b graph P)
    {x : FlowProgress} (hx : Holds P x) (q : Nat) :
    ∃ y, (FlowProblem.ofBody graph b).visit x q = .ok y ∧ Holds P y := by
  have hcode : (FlowProblem.ofBody graph b).code[q]? = b.instructions[q]? := by
    simp [FlowProblem.ofBody]
  unfold FlowProblem.visit
  rw [hcode]
  cases hi : b.instructions[q]? with
  | none => exact ⟨x, rfl, hx⟩
  | some i =>
      cases hs : x.states.get? q with
      | none => exact ⟨x, rfl, hx⟩
      | some before =>
          have hbefore := hx q before hs
          have hpops : ¬ before.stack.length < i.popCount b.returnsValue :=
            Nat.not_lt.mpr (h.enough q i _ hbefore hi)
          have hnoted : Holds P { x with
              nodes := x.nodes.insert i.offset
                (i.flowNode graph (i.popCount b.returnsValue) before) } := hx
          -- The node is no state, the handlers get variables only, and the rest goes with the flow.
          obtain ⟨z, hz, hPz⟩ := hnoted.handlers graph hb hentries before
            (i.flow graph (i.popCount b.returnsValue) before)
            (l := b.clauses.filter fun c => c.guards i.offset) fun c hc => List.mem_of_mem_filter hc
          obtain ⟨targets, htargets⟩ :=
            (FlowProblem.exists_successors_iff graph hb q i).mpr (h.targets q i _ hbefore hi)
          obtain ⟨y, hy, hPy⟩ := foldlM_total (P := Holds P) (x := z) (l := targets)
            (f := (FlowProblem.ofBody graph b).propagate
              (i.flow graph (i.popCount b.returnsValue) before))
            (fun q' hq' w hw => h.propagate hw
              (h.flow q i _ q' hbefore hi ((FlowProblem.mem_successors hb htargets q').mp hq'))) hPz
          refine ⟨y, ?_, hPy⟩
          dsimp only
          rw [show (FlowProblem.ofBody graph b).returnsValue = b.returnsValue from rfl,
            if_neg hpops]
          refine (congrArg (· >>= _) hz).trans ?_
          refine (congrArg (· >>= _) htargets).trans ?_
          exact hy

theorem visitAll (hb : b.Ascending) (hentries : b.EntriesPlaced) (h : StackLaw b graph P)
    (visits : Nat) {x : FlowProgress} (hx : Holds P x) :
    ∃ y, (FlowProblem.ofBody graph b).visitAll visits x = .ok y ∧ Holds P y := by
  induction visits generalizing x with
  | zero => exact ⟨x, rfl, hx⟩
  | succ visits ih =>
      unfold FlowProblem.visitAll
      split
      next => exact ⟨x, rfl, hx⟩
      next q _ _ =>
        have hdequeued : Holds P { x with queue := x.queue.erase q } := hx
        obtain ⟨z, hz, hPz⟩ := h.visit hb hentries hdequeued q
        rw [hz]
        exact ih hPz

/-- Where there is a law the collection succeeds, and all its states obey it. -/
theorem run (hb : b.Ascending) (hentries : b.EntriesPlaced) (h : StackLaw b graph P)
    {x₀ : FlowProgress} (hx₀ : (FlowProblem.ofBody graph b).start = .ok x₀) (visits : Nat) :
    ∃ y, (FlowProblem.ofBody graph b).visitAll visits x₀ = .ok y ∧ Holds P y := by
  refine h.visitAll hb hentries visits fun q s hs => ?_
  rw [FlowProblem.states_start hb hx₀] at hs
  obtain ⟨n, hn, rfl⟩ := Option.map_eq_some_iff.mp hs
  exact h.enter q n hn

end StackLaw

/-! ## Heights -/

namespace MethodBody

/-- Control can come to the instruction in a place: from the start of the method or of a handler. -/
inductive Reachable (b : MethodBody) : Nat → Prop
  | first {i : Instruction} (hplace : b.instructions[0]? = some i) : Reachable b 0
  | entry {c : Clause} {q : Nat} {j : Instruction} (hc : c ∈ b.clauses)
      (hplace : b.instructions[q]? = some j) (henters : c.EntersAt j.offset) : Reachable b q
  | flow {q q' : Nat} {i : Instruction} (hbefore : Reachable b q)
      (hplace : b.instructions[q]? = some i) (hflows : b.FlowsTo q i q') : Reachable b q'

/-- Every instruction finds enough on a stack of the height before it, and leaves the height that
the next ones have. -/
structure Balanced (b : MethodBody) (height : Nat → Nat) : Prop where
  enough : ∀ q i, b.Reachable q → b.instructions[q]? = some i →
    i.popCount b.returnsValue ≤ height q
  flows : ∀ q i q', b.Reachable q → b.instructions[q]? = some i → b.FlowsTo q i q' →
    height q' = i.pushCount + if i.clearsStack then 0 else height q - i.popCount b.returnsValue

/-- The stack has the heights with which control enters. -/
def StartsAt (b : MethodBody) (height : Nat → Nat) : Prop :=
  ∀ q n, b.entryHeight? q = some n → height q = n

/-- The branches of reachable instructions lead to instructions. -/
def TargetsPlaced (b : MethodBody) : Prop :=
  ∀ q i, b.Reachable q → b.instructions[q]? = some i → ∀ offset ∈ i.targets, b.HasOffset offset

variable {b : MethodBody} {height : Nat → Nat}

theorem reachable_of_entryHeight? (hb : b.instructions ≠ []) {q n : Nat}
    (h : b.entryHeight? q = some n) : b.Reachable q := by
  rcases entryHeight?_eq_some h with ⟨rfl, -⟩ | ⟨c, hc, j, hj, henters, -⟩
  · exact .first (List.getElem?_eq_getElem (List.length_pos_iff.mpr hb))
  · exact .entry hc hj henters

/-- To have a height is a law, if the heights are balanced. -/
theorem Balanced.stackLaw (h : b.Balanced height) (hb : b.instructions ≠ [])
    (hstart : b.StartsAt height) (htargets : b.TargetsPlaced) (graph : Nat) :
    StackLaw b graph fun q stack => b.Reachable q ∧ stack.length = height q where
  enter := by
    intro q n hn
    refine ⟨reachable_of_entryHeight? hb hn, ?_⟩
    rw [List.length_replicate, hstart q n hn]
  merge := by
    rintro q s t ⟨hq, hs⟩ ⟨-, ht⟩
    have hlength : s.length = t.length := hs.trans ht.symm
    refine ⟨hlength, hq, ?_⟩
    rw [List.length_zipWith, ← hlength, Nat.min_self, hs]
  enough := by
    rintro q i s ⟨hq, hs⟩ hi
    exact hs ▸ h.enough q i hq hi
  targets := fun q i s hs hi => htargets q i hs.1 hi
  flow := by
    rintro q i s q' ⟨hq, hs⟩ hi hflows
    refine ⟨.flow hq hi hflows, ?_⟩
    rw [Instruction.length_stackAfter, hs, h.flows q i q' hq hi hflows]

end MethodBody

/-! ## Collections that succeed -/

namespace FlowProgress

variable {b : MethodBody} {graph : Nat} {x₀ x : FlowProgress}

/-- A collection that has come to rest has a state wherever control can come. -/
theorem Valid.exists_of_reachable (hx : Valid b graph x₀ x) (hrest : ∀ q, q ∉ x.queue)
    (hx₀ : x₀.Entered b b.clauses) {q : Nat} (hq : b.Reachable q) :
    ∃ s, x.states.get? q = some s := by
  rw [← SortedMap.mem_iff_get?]
  induction hq with
  | first _ => exact hx.rooted.mem hx₀.first
  | entry hc hj henters => exact hx.rooted.mem (hx₀.entries _ hc _ _ hj henters)
  | flow _ hi hflows ih =>
      obtain ⟨s, hs⟩ := SortedMap.mem_iff_get?.mp ih
      obtain ⟨t, ht, -⟩ := (hx.settled _ _ s hi hs (hrest _)).flows _ hflows
      exact SortedMap.mem_iff_get?.mpr ⟨t, ht⟩

/-- The height of the state in a place. -/
def heightAt (x : FlowProgress) (q : Nat) : Nat := (x.states.get? q).elim 0 (·.stack.length)

private theorem heightAt_eq {q : Nat} {s : FlowState} (hs : x.states.get? q = some s) :
    x.heightAt q = s.stack.length := by
  unfold heightAt
  rw [hs, Option.elim_some]

theorem Valid.balanced (hx : Valid b graph x₀ x) (hrest : ∀ q, q ∉ x.queue)
    (hx₀ : x₀.Entered b b.clauses) : b.Balanced x.heightAt where
  enough := by
    intro q i hq hi
    obtain ⟨s, hs⟩ := hx.exists_of_reachable hrest hx₀ hq
    rw [heightAt_eq hs]
    exact (hx.settled q i s hi hs (hrest q)).enough
  flows := by
    intro q i q' hq hi hflows
    obtain ⟨s, hs⟩ := hx.exists_of_reachable hrest hx₀ hq
    obtain ⟨t, ht, hbelow⟩ := (hx.settled q i s hi hs (hrest q)).flows q' hflows
    calc x.heightAt q'
        = t.stack.length := heightAt_eq ht
      _ = (i.flow graph (i.popCount b.returnsValue) s).stack.length := hbelow.height.symm
      _ = i.pushCount + if i.clearsStack then 0
            else s.stack.length - i.popCount b.returnsValue := Instruction.length_flow_stack s
      _ = i.pushCount + if i.clearsStack then 0
            else x.heightAt q - i.popCount b.returnsValue := by rw [heightAt_eq hs]

end FlowProgress

namespace FlowProblem

variable {b : MethodBody} {graph : Nat} {x y : FlowProgress}

/-- The branches of all instructions that have a node lead to instructions. -/
def TargetsChecked (b : MethodBody) (x : FlowProgress) : Prop :=
  ∀ (q : Nat) (i : Instruction), b.instructions[q]? = some i → i.offset ∈ x.nodes →
    ∀ o ∈ i.targets, b.HasOffset o

theorem TargetsChecked.visit (hb : b.Ascending) (hx : TargetsChecked b x) {q : Nat}
    (h : (ofBody graph b).visit x q = .ok y) : TargetsChecked b y := by
  intro q' j hj hnode
  rcases visit_nodes h with hnodes | ⟨i, before, targets, hi, htargets, hnodes⟩
  · exact hx q' j hj (hnodes ▸ hnode)
  · have hplace : b.instructions[q]? = some i := by
      rw [← hi]
      simp [ofBody]
    rw [hnodes] at hnode
    rcases SortedMap.mem_insert.mp hnode with hoffset | hnode
    · obtain rfl := hb.eq_of_offset_eq hj hplace hoffset
      obtain rfl := Option.some.inj (hj.symm.trans hplace)
      exact (exists_successors_iff graph hb _ _).mp ⟨targets, htargets⟩
    · exact hx q' j hj hnode

theorem TargetsChecked.visitAll (hb : b.Ascending) (hx : TargetsChecked b x) {visits : Nat}
    (h : (ofBody graph b).visitAll visits x = .ok y) : TargetsChecked b y :=
  visitAll_induction (fun x _ q hx hz =>
    have hdequeued : TargetsChecked b { x with queue := x.queue.erase q } := hx
    hdequeued.visit hb hz) hx h

end FlowProblem

namespace DataFlowGraph

open MethodBody

variable {b : MethodBody} {id : Nat}

/-- A method has a data-flow graph if it has instructions, if handlers and branches lead to
instructions, and if there are heights for the stack. -/
theorem exists_ofBody_iff (hb : b.Ascending) (id : Nat) :
    (∃ g, ofBody b id = .ok g) ↔ b.instructions ≠ [] ∧ b.EntriesPlaced ∧ b.TargetsPlaced ∧
      ∃ height, b.StartsAt height ∧ b.Balanced height := by
  constructor
  · rintro ⟨g, hg⟩
    obtain ⟨hne, x₀, x, hstart, hx, hentered, hvalid, hrest, -⟩ := ofBody_run hb hg
    refine ⟨hne, (FlowProblem.start_eq_ok_iff id hb).mp ⟨x₀, hstart⟩, ?_, x.heightAt, ?_,
      hvalid.balanced hrest hentered⟩
    · intro q i hq hi
      -- A reachable instruction has a node, and its branches were looked at when that was made.
      have hchecked : FlowProblem.TargetsChecked b x₀ := by
        intro q i _ hnode
        rw [hentered.nodes] at hnode
        exact absurd hnode (SortedMap.notMem_empty _)
      obtain ⟨s, hs⟩ := hvalid.exists_of_reachable hrest hentered hq
      have hnode := (hvalid.settled q i s hi hs (hrest q)).node
      exact hchecked.visitAll hb hx q i hi (SortedMap.mem_iff_get?.mpr ⟨_, hnode⟩)
    · intro q n hn
      have hfirst := FlowProblem.states_start hb hstart q
      rw [hn, Option.map_some] at hfirst
      obtain ⟨s, hs, hbelow⟩ := hvalid.rooted q _ hfirst
      rw [FlowProgress.heightAt_eq hs, ← hbelow.height]
      exact List.length_replicate
  · rintro ⟨hne, hentries, htargets, height, hstart, hbalanced⟩
    obtain ⟨x₀, hx₀⟩ := (FlowProblem.start_eq_ok_iff id hb).mpr hentries
    obtain ⟨x, hx, -⟩ := (hbalanced.stackLaw hne hstart htargets id).run hb hentries hx₀
      (FlowProblem.ofBody id b).visitBound
    refine ⟨⟨id, x.nodes⟩, ?_⟩
    unfold ofBody
    rw [if_neg (by simpa using hne)]
    dsimp only
    rw [hx₀]
    show ((FlowProblem.ofBody id b).visitAll _ x₀ >>= _) = _
    rw [hx]
    rfl

end DataFlowGraph

/-! ## Consistent methods -/

/-- Heights that are right wherever control enters, whichever clause it is, and balanced. -/
structure MethodBody.StackConsistent (b : MethodBody) (height : Nat → Nat) : Prop where
  first : height 0 = 0
  entry : ∀ c ∈ b.clauses, ∀ q j, b.instructions[q]? = some j → c.EntersAt j.offset →
    height q = c.kind.receivesException.toNat
  balanced : b.Balanced height

namespace DataFlowGraph

variable {b : MethodBody}

/-- A method has a data-flow graph if and only if there are balanced heights that are right for the
clauses that decide where control enters.  There are heights that are right for all clauses and for
the start of the method if and only if these agree besides. -/
theorem builds_iff_balanced (hb : b.Ascending) (hne : b.instructions ≠ [])
    (hentries : b.EntriesPlaced) (htargets : ∀ i ∈ b.instructions, ∀ o ∈ i.targets, b.HasOffset o)
    (id : Nat) :
    ((∃ g, ofBody b id = .ok g) ↔ ∃ height, b.StartsAt height ∧ b.Balanced height) ∧
      ((∃ height, b.StackConsistent height) ↔ (∃ g, ofBody b id = .ok g) ∧ b.EntriesAgree) := by
  have hplaced : b.TargetsPlaced := fun q i _ hi => htargets i (List.mem_of_getElem? hi)
  have hbuilds : (∃ g, ofBody b id = .ok g) ↔
      ∃ height, b.StartsAt height ∧ b.Balanced height := by
    rw [exists_ofBody_iff hb id]
    exact ⟨fun h => h.2.2.2, fun h => ⟨hne, hentries, hplaced, h⟩⟩
  refine ⟨hbuilds, ?_⟩
  rw [hbuilds]
  constructor
  · rintro ⟨height, hconsistent⟩
    have hstart : b.StartsAt height := by
      intro q n hn
      rcases MethodBody.entryHeight?_eq_some hn with ⟨rfl, rfl⟩ | ⟨c, hc, j, hj, henters, rfl⟩
      · exact hconsistent.first
      · exact hconsistent.entry c hc q j hj henters
    refine ⟨⟨height, hstart, hconsistent.balanced⟩, ?_, ?_⟩
    · obtain ⟨n, hn⟩ := MethodBody.exists_entryHeight? (b := b) (q := 0) (.inl rfl)
      rw [hn, ← hstart 0 n hn, hconsistent.first]
    · intro c hc q j hj henters
      obtain ⟨n, hn⟩ := MethodBody.exists_entryHeight? (.inr ⟨c, hc, j, hj, henters⟩)
      rw [hn, ← hstart q n hn, hconsistent.entry c hc q j hj henters]
  · rintro ⟨⟨height, hstart, hbalanced⟩, hagree⟩
    exact ⟨height, hstart 0 0 hagree.first,
      fun c hc q j hj henters => hstart q _ (hagree.entry c hc q j hj henters), hbalanced⟩

/-- A method that drops the exceptions of its one instruction. -/
def droppedException : MethodBody where
  instructions :=
    [⟨0, .nop, .none, 1⟩, ⟨1, .leave_s, .target 6, 2⟩, ⟨3, .pop, .none, 1⟩,
      ⟨4, .leave_s, .target 6, 2⟩, ⟨6, .ret, .none, 1⟩]
  clauses := [⟨.catches ⟨⟨0x01000003⟩, "System", "Exception", false⟩, 0, 3, 3, 6⟩]

theorem builds_iff_balanced_droppedException :
    (∃ g, ofBody droppedException = .ok g) ∧
      ∃ height, droppedException.StartsAt height ∧ droppedException.Balanced height := by
  obtain ⟨g, hg, -⟩ := exists_of_map_eq_ok (r := ofBody droppedException) (f := fun _ => ())
    (y := ()) (by decide +kernel)
  have hbuilds := (builds_iff_balanced (b := droppedException) (by decide) (by decide) (by decide)
    (by decide) 0).1
  exact ⟨⟨g, hg⟩, hbuilds.mp ⟨g, hg⟩⟩

/-- A method that starts with a handler of its second instruction. -/
def handlerAtStart : MethodBody where
  instructions := [⟨0, .pop, .none, 1⟩, ⟨1, .ret, .none, 1⟩]
  clauses := [⟨.catches ⟨⟨0x01000003⟩, "System", "Exception", false⟩, 1, 2, 0, 1⟩]

/-- The first instruction takes the exception that the handler starts with, and nothing where the
method starts.  The method has a graph all the same. -/
theorem ofBody_handlerAtStart :
    (∃ g, ofBody handlerAtStart = .ok g) ∧ ¬ ∃ height, handlerAtStart.StackConsistent height := by
  obtain ⟨g, hg, -⟩ := exists_of_map_eq_ok (r := ofBody handlerAtStart) (f := fun _ => ())
    (y := ()) (by decide +kernel)
  refine ⟨⟨g, hg⟩, ?_⟩
  rintro ⟨height, hconsistent⟩
  have hfirst := hconsistent.first
  have hentry := hconsistent.entry _ List.mem_cons_self 0 _ rfl (by decide)
  rw [hfirst] at hentry
  exact nomatch hentry

end DataFlowGraph

end CilAnalysis
