import CilAnalysis.Proofs.DataFlow.Worklist
import CilAnalysis.Proofs.Method.Layout

/-!
# The worklist comes to rest

A visit settles the instruction it is made at: the states that may come next have what the
instruction passes on to them (`FlowProgress.Settled`).  An instruction that is settled stays so
until its own state grows, and then it is queued.  At the end the queue is empty and every
instruction is settled (`DataFlowGraph.ofBody_run`).

## Strategy

There are four parts, and each builds on the one before:

1. *Places.*  Where offsets ascend, places and offsets agree, and what the collection computes as
   the instructions that may come next are those that control may go to
   (`FlowProblem.mem_successors`, `FlowProblem.mem_entryPlaces`).
2. *One visit.*  `FlowProblem.visit_eq_ok` writes a visit as what it does: a node, then the
   handlers, then the next instructions.  Both loops are folds of steps of the worklist
   (`FlowProgress.advance_handlers`, `FlowProgress.advance_successors`).
3. *All visits.*  The invariant between visits is `FlowProgress.Valid`: the instructions that are
   not queued are settled.  A visit keeps it and lowers the potential (`FlowProgress.Valid.visit`),
   and as many visits as the potential allows leave nothing in the queue
   (`FlowProgress.Valid.visitAll`).
4. *The start.*  Control is let in at the first instruction and at the handlers, clause by clause
   (`FlowProblem.start_induction`).  The potential is at most the number of visits that are made
   (`FlowProgress.Entered.potential_le`).
-/

namespace CilAnalysis

open Finset FlowProblem SortedMap

/-! ## Places -/

namespace MethodBody

variable {b : MethodBody}

/-- Control may go from the instruction in a place to the one in another. -/
def FlowsTo (b : MethodBody) (place : Nat) (i : Instruction) (q : Nat) : Prop :=
  ∃ j, b.instructions[q]? = some j ∧
    ((i.opcode.flow.fallsThrough ∧ q = place + 1) ∨ j.offset ∈ i.targets)

theorem Reaches.flowsTo {clauses : List Clause} {place q : Nat} {i : Instruction} {σ : Provenance}
    (h : b.Reaches clauses place σ) (hplace : b.instructions[place]? = some i)
    (hq : b.FlowsTo place i q) : b.Reaches clauses q (σ.after i (i.popCount b.returnsValue)) := by
  obtain ⟨j, hj, ⟨hfalls, rfl⟩ | hbranch⟩ := hq
  · exact .next h hplace hfalls hj
  · exact .branch h hplace hj hbranch

namespace Witnessed

variable {graph place : Nat} {i : Instruction} {s : FlowState}

/-- A fact after an instruction holds after it along some path. -/
theorem exists_after (h : b.Witnessed graph place s) {pops : Nat} {f : FlowFact}
    (hf : (i.flow graph pops s).Has f) :
    ∃ σ, b.Reaches b.clauses place σ ∧ (σ.after i pops).Has graph f := by
  have hcarry := Instruction.carry_mono h.has (Instruction.flow_has.mp hf)
  obtain ⟨σ, hσ, hafter⟩ := Instruction.carry_exists h.reached hcarry
  exact ⟨σ, hσ, Provenance.after_has.mpr hafter⟩

theorem flow (h : b.Witnessed graph place s) (hplace : b.instructions[place]? = some i) {q : Nat}
    (hq : b.FlowsTo place i q) :
    b.Witnessed graph q (i.flow graph (i.popCount b.returnsValue) s) where
  reached := by
    obtain ⟨σ, hσ⟩ := h.reached
    exact ⟨_, hσ.flowsTo hplace hq⟩
  has := by
    intro f hf
    obtain ⟨σ, hσ, hafter⟩ := h.exists_after hf
    exact ⟨_, hσ.flowsTo hplace hq, hafter⟩

/-- A fact about a variable before or after a guarded instruction holds in its handlers. -/
theorem raise (h : b.Witnessed graph place s) (hplace : b.instructions[place]? = some i)
    {c : Clause} (hc : c ∈ b.clauses) (hguards : c.guards i.offset) {q : Nat} {j : Instruction}
    (hq : b.instructions[q]? = some j) (henters : c.EntersAt j.offset) {f : FlowFact}
    (hv : f.isOfVariable)
    (hf : s.Has f ∨ (i.flow graph (i.popCount b.returnsValue) s).Has f) :
    ∃ σ, b.Reaches b.clauses q σ ∧ σ.Has graph f := by
  rcases hf with hf | hf
  · obtain ⟨σ, hσ, hfact⟩ := h.has f hf
    exact ⟨_, .raiseBefore hσ hplace hc hguards hq henters, Provenance.raised_has.mpr ⟨hv, hfact⟩⟩
  · obtain ⟨σ, hσ, hafter⟩ := h.exists_after hf
    exact ⟨_, .raiseAfter hσ hplace hc hguards hq henters, Provenance.raised_has.mpr ⟨hv, hafter⟩⟩

end Witnessed

end MethodBody

namespace FlowProblem

variable {b : MethodBody} {graph : Nat}

theorem placeOf_eq_ok (hb : b.Ascending) {source target place : Nat} :
    (ofBody graph b).placeOf source target = .ok place ↔
      ∃ i, b.instructions[place]? = some i ∧ i.offset = target := by
  -- No offset occurs twice, so the map of places keeps every instruction.
  have hkeys : ((b.instructions.zipIdx.map fun p => (p.1.offset, p.2)).map Prod.fst).Nodup := by
    have hoffsets : (b.instructions.map Instruction.offset).Nodup := hb.imp fun h => h.ne
    rw [List.map_map]
    have hfirst : (Prod.fst ∘ fun p : Instruction × Nat => (p.1.offset, p.2)) =
        Instruction.offset ∘ Prod.fst := rfl
    rwa [hfirst, ← List.map_map, List.zipIdx_map_fst]
  have hget : (ofBody graph b).places.get? target = some place ↔
      ∃ i, b.instructions[place]? = some i ∧ i.offset = target := by
    unfold ofBody
    rw [get?_ofList hkeys, List.mem_map]
    constructor
    · rintro ⟨⟨i, q⟩, hmem, heq⟩
      obtain ⟨rfl, rfl⟩ := Prod.mk.inj heq
      exact ⟨i, List.mem_zipIdx_iff_getElem?.mp hmem, rfl⟩
    · rintro ⟨i, hplace, rfl⟩
      exact ⟨(i, place), List.mem_zipIdx_iff_getElem?.mpr hplace, rfl⟩
  rw [← hget]
  unfold placeOf
  cases (ofBody graph b).places.get? target with
  | none => simp
  | some q => simp

theorem mem_entryPlaces (hb : b.Ascending) {c : Clause} {places : List Nat}
    (h : (ofBody graph b).entryPlaces c = .ok places) (q : Nat) :
    q ∈ places ↔ ∃ j, b.instructions[q]? = some j ∧ c.EntersAt j.offset := by
  unfold entryPlaces at h
  rw [mem_of_mapM h]
  constructor
  · rintro ⟨offset, hentry, hplace⟩
    obtain ⟨j, hj, rfl⟩ := (placeOf_eq_ok hb).mp hplace
    exact ⟨j, hj, Clause.mem_entries.mp hentry⟩
  · rintro ⟨j, hj, henters⟩
    exact ⟨j.offset, Clause.mem_entries.mpr henters, (placeOf_eq_ok hb).mpr ⟨j, hj, rfl⟩⟩

theorem mem_successors (hb : b.Ascending) {place : Nat} {i : Instruction} {targets : List Nat}
    (h : (ofBody graph b).successors place i = .ok targets) (q : Nat) :
    q ∈ targets ↔ b.FlowsTo place i q := by
  obtain ⟨branches, hbranches, h⟩ := bind_eq_ok h
  cases h
  have hsize : (ofBody graph b).code.size = b.instructions.length := by simp [ofBody]
  rw [List.mem_append, mem_of_mapM hbranches, hsize]
  unfold MethodBody.FlowsTo
  constructor
  · rintro (hnext | ⟨target, htarget, hplace⟩)
    · split at hnext
      next hfalls =>
        obtain ⟨hfalls, hlt⟩ := Bool.and_eq_true_iff.mp hfalls
        obtain rfl := List.mem_singleton.mp hnext
        have hlt : place + 1 < b.instructions.length := of_decide_eq_true hlt
        exact ⟨_, List.getElem?_eq_getElem hlt, Or.inl ⟨hfalls, rfl⟩⟩
      next => exact absurd hnext List.not_mem_nil
    · obtain ⟨j, hj, rfl⟩ := (placeOf_eq_ok hb).mp hplace
      exact ⟨j, hj, Or.inr htarget⟩
  · rintro ⟨j, hj, ⟨hfalls, rfl⟩ | htarget⟩
    · obtain ⟨hlt, -⟩ := List.getElem?_eq_some_iff.mp hj
      exact Or.inl (by simp [hfalls, hlt])
    · exact Or.inr ⟨j.offset, htarget, (placeOf_eq_ok hb).mpr ⟨j, hj, rfl⟩⟩

/-- A visit does nothing where there is no state; otherwise it writes the node and passes on the
variables to the handlers and the state to the instructions that may come next. -/
theorem visit_eq_ok {p : FlowProblem} {x y : FlowProgress} {place : Nat}
    (h : p.visit x place = .ok y) :
    ((p.code[place]? = none ∨ x.states.get? place = none) ∧ y = x) ∨
      ∃ i before z targets, p.code[place]? = some i ∧ x.states.get? place = some before ∧
        i.popCount p.returnsValue ≤ before.stack.length ∧
        (p.clauses.filter (·.guards i.offset)).foldlM
          (fun progress c => do
            return (← p.entryPlaces c).foldl
              (propagateVariables before (i.flow p.graph (i.popCount p.returnsValue) before))
              progress)
          { x with
            nodes :=
              x.nodes.insert i.offset (i.flowNode p.graph (i.popCount p.returnsValue) before) } =
          .ok z ∧
        p.successors place i = .ok targets ∧
        targets.foldlM (p.propagate (i.flow p.graph (i.popCount p.returnsValue) before)) z =
          .ok y := by
  unfold visit at h
  cases hi : p.code[place]? with
  | none =>
      rw [hi] at h
      cases h
      exact Or.inl ⟨Or.inl rfl, rfl⟩
  | some i =>
      cases hs : x.states.get? place with
      | none =>
          rw [hi, hs] at h
          cases h
          exact Or.inl ⟨Or.inr rfl, rfl⟩
      | some before =>
          rw [hi, hs] at h
          dsimp only at h
          split at h
          · cases h
          next henough =>
            obtain ⟨z, hz, h⟩ := bind_eq_ok h
            obtain ⟨targets, htargets, h⟩ := bind_eq_ok h
            have hpops := Nat.le_of_not_lt henough
            exact Or.inr ⟨i, before, z, targets, rfl, rfl, hpops, hz, htargets, h⟩

private theorem grow_nodes (x : FlowProgress) (q : Nat) (old new : FlowState) :
    (grow x q old new).nodes = x.nodes := by
  unfold grow
  split <;> rfl

theorem propagateVariables_nodes (before after : FlowState) (x : FlowProgress) (q : Nat) :
    (propagateVariables before after x q).nodes = x.nodes := by
  unfold propagateVariables
  split
  next => exact grow_nodes ..
  next => rfl

theorem propagate_nodes {p : FlowProblem} {x y : FlowProgress} {s : FlowState} {q : Nat}
    (h : p.propagate s x q = .ok y) : y.nodes = x.nodes := by
  unfold propagate at h
  split at h
  next =>
    obtain ⟨merged, -, h⟩ := bind_eq_ok h
    obtain rfl := Except.ok.inj h
    exact grow_nodes ..
  next =>
    obtain rfl := Except.ok.inj h
    rfl

/-- A visit makes no other node than that of its instruction. -/
theorem visit_nodes {p : FlowProblem} {x y : FlowProgress} {place : Nat}
    (h : p.visit x place = .ok y) :
    y.nodes = x.nodes ∨
      ∃ i before targets, p.code[place]? = some i ∧
        p.successors place i = .ok targets ∧ y.nodes =
          x.nodes.insert i.offset (i.flowNode p.graph (i.popCount p.returnsValue) before) := by
  rcases visit_eq_ok h with ⟨-, rfl⟩ | ⟨i, before, z, targets, hi, -, -, hz, htargets, hy⟩
  · exact Or.inl rfl
  · refine Or.inr ⟨i, before, targets, hi, htargets, ?_⟩
    -- Neither loop writes a node.
    have hznodes := foldlM_induction (P := fun w : FlowProgress => w.nodes = x.nodes.insert i.offset
      (i.flowNode p.graph (i.popCount p.returnsValue) before)) (fun c _ w w' hw hstep => by
        obtain ⟨places, -, hstep⟩ := bind_eq_ok hstep
        obtain rfl := Except.ok.inj hstep
        exact List.foldlRecOn (motive := fun v : FlowProgress => v.nodes = _) places _ hw
          fun v hv q _ => (propagateVariables_nodes _ _ v q).trans hv) rfl hz
    have hynodes := foldlM_induction (P := fun w : FlowProgress => w.nodes = z.nodes)
      (fun q' _ w w' hw hstep => (propagate_nodes hstep).trans hw) rfl hy
    exact hynodes.trans hznodes

/-- What holds where control enters the method, and is kept when it is let in at the handler of one
more clause, holds at the start. -/
theorem start_induction {p : FlowProblem} {P : List Clause → FlowProgress → Prop}
    (hfirst : P [] (enterAt ⟨.empty, .empty, .empty⟩ 0 0))
    (hclause : ∀ done c z places, P done z → p.entryPlaces c = .ok places →
      P (done ++ [c])
        (places.foldl (fun q place => enterAt q place c.kind.receivesException.toNat) z))
    {x : FlowProgress} (hx : p.start = .ok x) : P p.clauses x := by
  -- The induction is on the clauses still to come, for any that are done.
  suffices hfrom : ∀ (l done : List Clause) (z : FlowProgress), P done z →
      l.foldlM (fun progress c => do
        let places ← p.entryPlaces c
        return places.foldl (fun q place => enterAt q place c.kind.receivesException.toNat)
          progress) z = .ok x → P (done ++ l) x from hfrom p.clauses [] _ hfirst hx
  intro l
  induction l with
  | nil =>
      intro done z hz hrun
      obtain rfl := Except.ok.inj hrun
      rwa [List.append_nil]
  | cons c rest ih =>
      intro done z hz hrun
      rw [List.foldlM_cons] at hrun
      obtain ⟨w, hw, hrun⟩ := bind_eq_ok hrun
      obtain ⟨places, hplaces, hw⟩ := bind_eq_ok hw
      obtain rfl := Except.ok.inj hw
      have hrest := ih (done ++ [c]) _ (hclause done c z places hz hplaces) hrun
      rwa [List.append_assoc, List.singleton_append] at hrest

/-- What every visit keeps holds after all of them. -/
theorem visitAll_induction {p : FlowProblem} {P : FlowProgress → Prop}
    (hvisit : ∀ x y place, P x → p.visit { x with queue := x.queue.erase place } place = .ok y →
      P y) {visits : Nat} {x y : FlowProgress} (hx : P x) (hrun : p.visitAll visits x = .ok y) :
    P y := by
  induction visits generalizing x with
  | zero =>
      cases hrun
      exact hx
  | succ visits ih =>
      unfold visitAll at hrun
      split at hrun
      next =>
        cases hrun
        exact hx
      next place _ _ =>
        split at hrun
        next z hz => exact ih (hvisit x z place hx hz) hrun
        next => cases hrun

end FlowProblem

/-! ## Settled instructions -/

namespace FlowProgress

/-- The node of an instruction and the states that may come next are what its own state asks for. -/
structure Settled (b : MethodBody) (graph : Nat) (x : FlowProgress) (place : Nat) (i : Instruction)
    (s : FlowState) : Prop where
  enough : i.popCount b.returnsValue ≤ s.stack.length
  node : x.nodes.get? i.offset = some (i.flowNode graph (i.popCount b.returnsValue) s)
  flows : ∀ q, b.FlowsTo place i q →
    ∃ t, x.states.get? q = some t ∧ (i.flow graph (i.popCount b.returnsValue) s).Below t
  raises : ∀ c ∈ b.clauses, c.guards i.offset → ∀ q j, b.instructions[q]? = some j →
    c.EntersAt j.offset → x.HasVariables s (i.flow graph (i.popCount b.returnsValue) s) q

variable {b : MethodBody} {graph : Nat} {x y : FlowProgress}

/-- What is settled stays settled while the states around it grow. -/
theorem Settled.mono {place : Nat} {i : Instruction} {s : FlowState}
    (h : Settled b graph x place i s) (hxy : Extends x y)
    (hnode : y.nodes.get? i.offset = x.nodes.get? i.offset) : Settled b graph y place i s where
  enough := h.enough
  node := hnode.trans h.node
  flows := by
    intro q hq
    obtain ⟨t, ht, hbelow⟩ := h.flows q hq
    obtain ⟨u, hu, htu⟩ := hxy q t ht
    exact ⟨u, hu, hbelow.trans htu⟩
  raises := by
    intro c hc hguards q j hj henters
    exact (h.raises c hc hguards q j hj henters).mono hxy

/-- What holds between two visits of a collection that started as `x₀`: the instructions that are
not queued are settled. -/
structure Valid (b : MethodBody) (graph : Nat) (x₀ x : FlowProgress) : Prop where
  sound : Sound b graph x
  rooted : Extends x₀ x
  settled : ∀ place i s, b.instructions[place]? = some i → x.states.get? place = some s →
    place ∉ x.queue → Settled b graph x place i s
  node : ∀ offset, offset ∈ x.nodes →
    ∃ place i, b.instructions[place]? = some i ∧ i.offset = offset ∧ place ∈ x.states

/-- There are states wherever the handlers of some clauses are entered. -/
def HasEntries (b : MethodBody) (clauses : List Clause) (x : FlowProgress) : Prop :=
  ∀ c ∈ clauses, ∀ (q : Nat) (j : Instruction), b.instructions[q]? = some j →
    c.EntersAt j.offset → q ∈ x.states

theorem HasEntries.extends {clauses : List Clause} (h : HasEntries b clauses x)
    (hxy : Extends x y) : HasEntries b clauses y := by
  intro c hc q j hj henters
  exact hxy.mem (h c hc q j hj henters)

/-- The queue without the instruction that is visited next. -/
def dequeue (x : FlowProgress) (place : Nat) : FlowProgress :=
  { x with queue := x.queue.erase place }

theorem potential_dequeue {place : Nat} (hplace : place ∈ x.queue) :
    potential b (x.dequeue place) + 1 = potential b x := by
  have hsize : (x.queue.erase place).size + 1 = x.queue.size := size_erase_of_mem hplace
  unfold potential dequeue
  dsimp only
  omega

/-- The handlers that guard an instruction are given the variables before and after it. -/
theorem advance_handlers (hb : b.Ascending) (hx : Sound b graph x) {place : Nat} {i : Instruction}
    {before : FlowState} (hplace : b.instructions[place]? = some i)
    (hbefore : b.Witnessed graph place before) (hentries : HasEntries b b.clauses x)
    (hrun : (b.clauses.filter (·.guards i.offset)).foldlM
      (fun progress c => do
        return (← (FlowProblem.ofBody graph b).entryPlaces c).foldl
          (FlowProblem.propagateVariables before
            (i.flow graph (i.popCount b.returnsValue) before)) progress) x = .ok y) :
    Advance b graph x y ∧ ∀ c ∈ b.clauses, c.guards i.offset → ∀ q j,
      b.instructions[q]? = some j → c.EntersAt j.offset →
        y.HasVariables before (i.flow graph (i.popCount b.returnsValue) before) q := by
  set after := i.flow graph (i.popCount b.returnsValue) before
  have hfold := Advance.foldlM (P := fun c z => ∀ q j, b.instructions[q]? = some j →
    c.EntersAt j.offset → z.HasVariables before after q) hx
    (fun c z z' hzz' hz q j hj henters => (hz q j hj henters).mono hzz'.extends) ?_ hrun
  · refine ⟨hfold.1, ?_⟩
    intro c hc hguards
    exact hfold.2 c (List.mem_filter.mpr ⟨hc, hguards⟩)
  · intro c hc z z' hxz hstep
    obtain ⟨hc, hguards⟩ := List.mem_filter.mp hc
    obtain ⟨places, hplaces, hstep⟩ := bind_eq_ok hstep
    have hmem := mem_entryPlaces hb hplaces
    -- Passing on to a place cannot fail, but written as if it could it is a fold like the others.
    have hgive : places.foldlM
        (fun w q => pure (propagateVariables before after w q)) z =
        (.ok z' : Except Error FlowProgress) := by
      rw [← hstep]
      exact List.foldlM_pure
    have hinner := Advance.foldlM (P := fun q w => w.HasVariables before after q) hxz.sound
      (fun q w w' hww' hw => hw.mono hww'.extends) ?_ hgive
    · refine ⟨hinner.1, ?_⟩
      intro q j hj henters
      exact hinner.2 q ((hmem q).mpr ⟨j, hj, henters⟩)
    · intro q hq w w' hzw hw
      obtain rfl := Except.ok.inj hw
      obtain ⟨j, hj, henters⟩ := (hmem q).mp hq
      have hadvance := advance_propagateVariables hzw.sound fun f hv hf =>
        hbefore.raise hplace hc hguards hj henters hv hf
      have hentry : q ∈ w.states :=
        (hentries.extends (hxz.trans hzw).extends) c hc q j hj henters
      exact ⟨hadvance.1, hadvance.2 hentry⟩

/-- The instructions that may come next are given the state after an instruction. -/
theorem advance_successors (hb : b.Ascending) (hx : Sound b graph x) {place : Nat}
    {i : Instruction} {before : FlowState} (hplace : b.instructions[place]? = some i)
    (hbefore : b.Witnessed graph place before)
    (hheight : before.stack.length ≤ 2 * x.states.size) {targets : List Nat}
    (htargets : (FlowProblem.ofBody graph b).successors place i = .ok targets)
    (hrun : targets.foldlM ((FlowProblem.ofBody graph b).propagate
      (i.flow graph (i.popCount b.returnsValue) before)) x = .ok y) :
    Advance b graph x y ∧ ∀ q, b.FlowsTo place i q → ∃ t, y.states.get? q = some t ∧
      (i.flow graph (i.popCount b.returnsValue) before).Below t := by
  set after := i.flow graph (i.popCount b.returnsValue) before with hafter
  have hmem := mem_successors hb htargets
  have hlength : after.stack.length ≤ before.stack.length + 2 := by
    have hpush := i.pushCount_le_two
    rw [hafter, Instruction.length_flow_stack]
    split <;> omega
  have hfold := Advance.foldlM (P := fun q z => ∃ t, z.states.get? q = some t ∧ after.Below t) hx
    ?_ ?_ hrun
  · refine ⟨hfold.1, ?_⟩
    intro q hq
    exact hfold.2 q ((hmem q).mpr hq)
  · rintro q z z' hzz' ⟨t, ht, hbelow⟩
    obtain ⟨u, hu, htu⟩ := hzz'.extends q t ht
    exact ⟨u, hu, hbelow.trans htu⟩
  · intro q hq z z' hxz hstep
    have hsize := hxz.size_le
    exact advance_propagate hxz.sound (hbefore.flow hplace ((hmem q).mp hq)) (by omega) hstep

/-- What a visit has to do for the other instructions to stay settled or be queued: write the node
of its own, settle it, and queue whatever it makes grow. -/
theorem Valid.of_advance (hb : b.Ascending) {x₀ : FlowProgress} (hx : Valid b graph x₀ x)
    {place : Nat} {i : Instruction} {before : FlowState} {n : DataFlowNode}
    (hi : b.instructions[place]? = some i) (hbefore : x.states.get? place = some before)
    (hxy : Advance b graph { x.dequeue place with nodes := x.nodes.insert i.offset n } y)
    (hsettled : Settled b graph y place i before) : Valid b graph x₀ y where
  sound := hxy.sound
  rooted := hx.rooted.trans hxy.extends
  settled := by
    -- An instruction outside the queue is the one visited, or its state has not changed.
    intro q j s hj hs hq
    have hunchanged : x.states.get? q = some s := hxy.get?_of_notMem_queue hs hq
    by_cases hne : q = place
    · subst hne
      obtain rfl : s = before := Option.some_inj.mp (hunchanged.symm.trans hbefore)
      obtain rfl : j = i := Option.some_inj.mp (hj.symm.trans hi)
      exact hsettled
    · have hqueue : q ∉ x.queue := by
        intro hmem
        exact hq (hxy.queue q (mem_erase.mpr ⟨hne, hmem⟩))
      have hoffset : j.offset ≠ i.offset := fun heq => hne (hb.eq_of_offset_eq hj hi heq)
      refine (hx.settled q j s hj hunchanged hqueue).mono hxy.extends ?_
      rw [hxy.nodes]
      exact get?_insert_of_ne _ _ hoffset
  node := by
    intro offset hnode
    rw [hxy.nodes] at hnode
    rcases mem_insert.mp hnode with rfl | hnode
    · exact ⟨place, i, hi, rfl, hxy.extends.mem (mem_iff_get?.mpr ⟨before, hbefore⟩)⟩
    · obtain ⟨q, j, hj, hoffset, hq⟩ := hx.node offset hnode
      exact ⟨q, j, hj, hoffset, hxy.extends.mem hq⟩

/-- Taking an instruction from the queue that has no state leaves the others as they are. -/
theorem Valid.dequeue {x₀ : FlowProgress} (hx : Valid b graph x₀ x) {place : Nat}
    (hnone : b.instructions[place]? = none ∨ x.states.get? place = none) :
    Valid b graph x₀ (x.dequeue place) where
  sound := ⟨hx.sound.witnessed, hx.sound.height⟩
  rooted := hx.rooted
  settled := by
    intro q i s hi hs hq
    have hne : q ≠ place := by
      rintro rfl
      rcases hnone with hnone | hnone
      · exact absurd (hi.symm.trans hnone) (Option.some_ne_none _)
      · exact absurd (hs.symm.trans hnone) (Option.some_ne_none _)
    have hqueue : q ∉ x.queue := fun hmem => hq (mem_erase.mpr ⟨hne, hmem⟩)
    have hsettled := hx.settled q i s hi hs hqueue
    exact ⟨hsettled.enough, hsettled.node, hsettled.flows, hsettled.raises⟩
  node := hx.node

/-- A visit settles the instruction it is made at, keeps the others settled or queues them, and
lowers the potential. -/
theorem Valid.visit (hb : b.Ascending) {x₀ : FlowProgress} (hx : Valid b graph x₀ x)
    (hentries : HasEntries b b.clauses x₀) {place : Nat} (hqueued : place ∈ x.queue)
    (hrun : (FlowProblem.ofBody graph b).visit (x.dequeue place) place = .ok y) :
    Valid b graph x₀ y ∧ potential b y < potential b x := by
  have hpotential := potential_dequeue (b := b) hqueued
  have hcode : (ofBody graph b).code[place]? = b.instructions[place]? := by
    simp [ofBody]
  rcases visit_eq_ok hrun with
    ⟨hnone, rfl⟩ | ⟨i, before, z, targets, hi, hbefore, henough, hz, htargets, hy⟩
  · rw [hcode] at hnone
    exact ⟨hx.dequeue hnone, by omega⟩
  · rw [hcode] at hi
    have hwitnessed := hx.sound.witnessed place before hbefore
    -- The visit starts with the node written and the instruction taken from the queue.
    set x₁ : FlowProgress :=
      { x.dequeue place with
        nodes := x.nodes.insert i.offset
          (i.flowNode graph (i.popCount b.returnsValue) before) } with hx₁
    have hsound : Sound b graph x₁ := ⟨hx.sound.witnessed, hx.sound.height⟩
    have hentries₁ : HasEntries b b.clauses x₁ := hentries.extends hx.rooted
    obtain ⟨hx₁z, hraises⟩ := advance_handlers hb hsound hi hwitnessed hentries₁ hz
    have hheight : before.stack.length ≤ 2 * z.states.size :=
      calc before.stack.length
          ≤ 2 * x.states.size := hx.sound.height place before hbefore
        _ ≤ 2 * z.states.size := Nat.mul_le_mul_left 2 hx₁z.size_le
    obtain ⟨hzy, hflows⟩ := advance_successors hb hx₁z.sound hi hwitnessed hheight htargets hy
    have hx₁y := hx₁z.trans hzy
    -- What the handlers were given they keep while the next instructions are given theirs.
    have hsettled : Settled b graph y place i before :=
      { enough := henough
        node := by
          rw [hx₁y.nodes]
          exact get?_insert_self _ _ _
        flows := hflows
        raises := fun c hc hguards q j hj henters =>
          (hraises c hc hguards q j hj henters).mono hzy.extends }
    have hless : potential b y < potential b x :=
      calc potential b y
          ≤ potential b (x.dequeue place) := hx₁y.potential_le
        _ < potential b x := by omega
    exact ⟨hx.of_advance hb hi hbefore hx₁y hsettled, hless⟩

/-- As many visits as the potential allows leave nothing in the queue. -/
theorem Valid.visitAll (hb : b.Ascending) {x₀ : FlowProgress} (hx : Valid b graph x₀ x)
    (hentries : HasEntries b b.clauses x₀) {visits : Nat} (hvisits : potential b x ≤ visits)
    (hrun : (FlowProblem.ofBody graph b).visitAll visits x = .ok y) :
    Valid b graph x₀ y ∧ ∀ q, q ∉ y.queue := by
  induction visits generalizing x with
  | zero =>
      unfold visitAll at hrun
      obtain rfl := Except.ok.inj hrun
      -- A queued place would be worth a visit, and no potential is left for it.
      refine ⟨hx, ?_⟩
      intro q hq
      have hsize := size_erase_of_mem hq
      have hqueue : x.queue.size ≤ potential b x := Nat.le_add_right _ _
      omega
  | succ visits ih =>
      unfold visitAll at hrun
      split at hrun
      next hempty =>
        cases hrun
        exact ⟨hx, first?_eq_none hempty⟩
      next place _ hfirst =>
        have hqueued : place ∈ x.queue := mem_of_first? hfirst
        split at hrun
        next z hz =>
          obtain ⟨hvalid, hless⟩ := hx.visit hb hentries hqueued hz
          exact ih hvalid (by omega) hrun
        next => exact nomatch hrun

end FlowProgress

/-! ## The start -/

/-- What holds while control is let in at the handlers, those of the clauses `done` so far. -/
structure FlowProgress.Entered (b : MethodBody) (done : List Clause) (x : FlowProgress) : Prop where
  root : ∀ q s, x.states.get? q = some s → ∃ height, s = .ofHeight height ∧
    ((q = 0 ∧ height = 0) ∨ ∃ c ∈ done, ∃ j, b.instructions[q]? = some j ∧ c.EntersAt j.offset ∧
      height = c.kind.receivesException.toNat)
  first : 0 ∈ x.states
  entries : HasEntries b done x
  queued : ∀ q, q ∈ x.states → q ∈ x.queue
  nodes : x.nodes = .empty
  size : x.queue.size ≤ 1 + 2 * done.length

namespace FlowProblem

variable {b : MethodBody} {graph : Nat} {x y : FlowProgress}

private theorem size_enterAt_le (x : FlowProgress) (place height : Nat) :
    (enterAt x place height).queue.size ≤ x.queue.size + 1 := SortedMap.size_insert_le _ _ _

theorem get?_foldl_enterAt (places : List Nat) (height : Nat) (x : FlowProgress) (q : Nat) :
    (places.foldl (fun z place => enterAt z place height) x).states.get? q =
      if q ∈ places then some (.ofHeight height) else x.states.get? q := by
  induction places generalizing x with
  | nil => simp
  | cons place rest ih =>
      rw [List.foldl_cons, ih]
      by_cases hrest : q ∈ rest
      · simp [hrest]
      · by_cases hplace : q = place <;> simp [enterAt, get?_insert, hrest, hplace]

private theorem mem_queue_foldl_enterAt (places : List Nat) (height : Nat) (x : FlowProgress)
    (q : Nat) :
    q ∈ (places.foldl (fun z place => enterAt z place height) x).queue ↔
      q ∈ places ∨ q ∈ x.queue := by
  induction places generalizing x with
  | nil => simp
  | cons place rest ih =>
      rw [List.foldl_cons, ih, List.mem_cons]
      simp only [enterAt, SortedSet.mem_add]
      tauto

theorem foldl_enterAt_nodes (places : List Nat) (height : Nat) (x : FlowProgress) :
    (places.foldl (fun z place => enterAt z place height) x).nodes = x.nodes := by
  induction places generalizing x with
  | nil => rfl
  | cons place rest ih => rw [List.foldl_cons, ih]; rfl

private theorem size_queue_foldl_enterAt_le (places : List Nat) (height : Nat) (x : FlowProgress) :
    (places.foldl (fun z place => enterAt z place height) x).queue.size ≤
      x.queue.size + places.length := by
  induction places generalizing x with
  | nil => simp
  | cons place rest ih =>
      calc (rest.foldl (fun z place => enterAt z place height) (enterAt x place height)).queue.size
          ≤ (enterAt x place height).queue.size + rest.length := ih _
        _ ≤ x.queue.size + 1 + rest.length :=
            Nat.add_le_add_right (size_enterAt_le x place height) _
        _ = x.queue.size + (place :: rest).length := by
            rw [List.length_cons]
            omega

private theorem entered_clause (hb : b.Ascending) {done : List Clause} {c : Clause}
    (hx : x.Entered b done) {places : List Nat}
    (hplaces : (ofBody graph b).entryPlaces c = .ok places) :
    (places.foldl (fun z place => enterAt z place c.kind.receivesException.toNat) x).Entered b
      (done ++ [c]) where
  root := by
    intro q s hs
    rw [get?_foldl_enterAt] at hs
    split at hs
    next hq =>
      cases hs
      obtain ⟨j, hj, henters⟩ := (mem_entryPlaces hb hplaces q).mp hq
      exact ⟨_, rfl, Or.inr ⟨c, by simp, j, hj, henters, rfl⟩⟩
    next =>
      obtain ⟨height, hstate, hroot | ⟨c', hc', hroot⟩⟩ := hx.root q s hs
      · exact ⟨height, hstate, Or.inl hroot⟩
      · exact ⟨height, hstate, Or.inr ⟨c', List.mem_append_left _ hc', hroot⟩⟩
  first := by
    obtain ⟨s, hs⟩ := mem_iff_get?.mp hx.first
    rw [mem_iff_get?, get?_foldl_enterAt]
    split
    · exact ⟨_, rfl⟩
    · exact ⟨s, hs⟩
  entries := by
    intro c' hc' q j hj henters
    rw [mem_iff_get?, get?_foldl_enterAt]
    split
    next => exact ⟨_, rfl⟩
    next hq =>
      rcases List.mem_append.mp hc' with hc' | hc'
      · exact mem_iff_get?.mp (hx.entries c' hc' q j hj henters)
      · obtain rfl := List.mem_singleton.mp hc'
        exact absurd ((mem_entryPlaces hb hplaces q).mpr ⟨j, hj, henters⟩) hq
  queued := by
    intro q hq
    rw [mem_queue_foldl_enterAt]
    rw [mem_iff_get?, get?_foldl_enterAt] at hq
    split at hq
    next hmem => exact Or.inl hmem
    next => exact Or.inr (hx.queued q (mem_iff_get?.mpr hq))
  nodes := (foldl_enterAt_nodes _ _ _).trans hx.nodes
  size := by
    have hlength : places.length ≤ 2 := by
      rw [← (mapM_forall₂ hplaces).length_eq]
      unfold Clause.entries
      split <;> simp
    calc (places.foldl (fun z place => enterAt z place c.kind.receivesException.toNat) x).queue.size
        ≤ x.queue.size + places.length := size_queue_foldl_enterAt_le ..
      _ ≤ 1 + 2 * done.length + 2 := Nat.add_le_add hx.size hlength
      _ = 1 + 2 * (done ++ [c]).length := by
          rw [List.length_append, List.length_singleton]
          omega

private theorem entered_first : (enterAt ⟨.empty, .empty, .empty⟩ 0 0).Entered b [] where
  root := by
    intro q s hs
    unfold enterAt at hs
    rw [get?_insert] at hs
    split at hs
    next hq =>
      cases hs
      exact ⟨0, rfl, Or.inl ⟨hq, rfl⟩⟩
    next => exact nomatch hs
  first := mem_insert.mpr (Or.inl rfl)
  entries := fun _ hc => absurd hc List.not_mem_nil
  queued := by
    intro q hq
    rcases mem_insert.mp hq with rfl | hq
    · exact SortedSet.mem_add.mpr (Or.inl rfl)
    · exact absurd hq (SortedMap.notMem_empty q)
  nodes := rfl
  size := size_enterAt_le _ _ _

theorem entered_start (hb : b.Ascending) (hx : (ofBody graph b).start = .ok x) :
    x.Entered b b.clauses :=
  start_induction (P := fun done z => z.Entered b done) entered_first
    (fun _ _ _ _ hz hplaces => entered_clause hb hz hplaces) hx

end FlowProblem

namespace FlowProgress.Entered

variable {b : MethodBody} {graph : Nat} {x : FlowProgress}

theorem valid (hx : x.Entered b b.clauses) (hb : b.instructions ≠ []) :
    Valid b graph x x where
  sound :=
    { witnessed := by
        intro q s hs
        obtain ⟨height, rfl, ⟨rfl, -⟩ | ⟨c, hc, j, hj, henters, -⟩⟩ := hx.root q s hs
        · have hplace : b.instructions[0]? = some (b.instructions.head hb) := by
            rw [← List.head?_eq_getElem?, List.head?_eq_some_head hb]
          exact ⟨⟨_, .start hplace⟩, fun f hf => absurd hf (FlowState.not_has_ofHeight _ f)⟩
        · exact ⟨⟨_, .enter hc hj henters⟩, fun f hf => absurd hf (FlowState.not_has_ofHeight _ f)⟩
      height := by
        intro q s hs
        have hsize : 0 < x.states.size := by
          have herase := size_erase_of_mem hx.first
          omega
        have hone : s.stack.length ≤ 1 := by
          obtain ⟨height, rfl, hroot⟩ := hx.root q s hs
          unfold FlowState.ofHeight
          rw [List.length_replicate]
          rcases hroot with ⟨-, rfl⟩ | ⟨c, -, j, -, -, rfl⟩
          · exact Nat.zero_le 1
          · exact Bool.toNat_le _
        omega }
  rooted := fun q s hs => ⟨s, hs, .refl s⟩
  settled := by
    intro q i s _ hs hqueue
    exact absurd (hx.queued q (mem_iff_get?.mpr ⟨s, hs⟩)) hqueue
  node := by
    intro offset hoffset
    rw [hx.nodes] at hoffset
    exact absurd hoffset (SortedMap.notMem_empty offset)

theorem potential_le (hx : x.Entered b b.clauses) :
    potential b x ≤ (FlowProblem.ofBody graph b).visitBound := by
  have hrooms : ∑ place ∈ range b.instructions.length, room b (x.states.get? place) ≤
      b.instructions.length * (b.factBound + 1) := by
    calc ∑ place ∈ range b.instructions.length, room b (x.states.get? place)
        ≤ (range b.instructions.length).card • (b.factBound + 1) := by
          refine sum_le_card_nsmul _ _ _ ?_
          intro place _
          cases x.states.get? place with
          | none => exact le_rfl
          | some s => exact (Nat.sub_le _ _).trans (Nat.le_succ _)
      _ = b.instructions.length * (b.factBound + 1) := by rw [card_range, smul_eq_mul]
  have hsize : (ofBody graph b).code.size = b.instructions.length := by
    simp [ofBody]
  have hqueue := hx.size
  have hbound : (ofBody graph b).visitBound =
      (1 + 2 * b.clauses.length) + b.instructions.length * (b.factBound + 1) := by
    unfold visitBound MethodBody.factBound
    rw [hsize, show (ofBody graph b).clauses = b.clauses from rfl]
    ring
  calc potential b x
      = x.queue.size + ∑ place ∈ range b.instructions.length, room b (x.states.get? place) := rfl
    _ ≤ (1 + 2 * b.clauses.length) + b.instructions.length * (b.factBound + 1) :=
        Nat.add_le_add hqueue hrooms
    _ = (ofBody graph b).visitBound := hbound.symm

end FlowProgress.Entered

namespace DataFlowGraph

variable {b : MethodBody} {id : Nat} {g : DataFlowGraph}

/-- The graph of a method was collected from where control enters the method and its handlers, until
nothing was queued any more. -/
theorem ofBody_run (hb : b.Ascending) (hg : ofBody b id = .ok g) :
    b.instructions ≠ [] ∧ ∃ x₀ x, (FlowProblem.ofBody id b).start = .ok x₀ ∧
      (FlowProblem.ofBody id b).visitAll (FlowProblem.ofBody id b).visitBound x₀ = .ok x ∧
      x₀.Entered b b.clauses ∧ FlowProgress.Valid b id x₀ x ∧ (∀ q, q ∉ x.queue) ∧
      g = ⟨id, x.nodes⟩ := by
  unfold ofBody at hg
  by_cases hempty : b.instructions.isEmpty
  · rw [if_pos hempty] at hg
    exact nomatch hg
  · rw [if_neg hempty] at hg
    have hnonempty : b.instructions ≠ [] := fun h => hempty (List.isEmpty_iff.mpr h)
    obtain ⟨x₀, hstart, hg⟩ := bind_eq_ok hg
    obtain ⟨x, hx, hg⟩ := bind_eq_ok hg
    have hentered := entered_start hb hstart
    have hend := (hentered.valid hnonempty).visitAll hb hentered.entries hentered.potential_le hx
    exact ⟨hnonempty, x₀, x, hstart, hx, hentered, hend.1, hend.2, (Except.ok.inj hg).symm⟩

/-- The graph of a method has the nodes of a collection that has come to rest: it started where
control enters the method and its handlers, and nothing is queued any more. -/
theorem ofBody_eq_ok (hb : b.Ascending) (hg : ofBody b id = .ok g) :
    ∃ x₀ x, x₀.Entered b b.clauses ∧ FlowProgress.Valid b id x₀ x ∧ (∀ q, q ∉ x.queue) ∧
      g = ⟨id, x.nodes⟩ := by
  obtain ⟨-, x₀, x, -, -, hend⟩ := ofBody_run hb hg
  exact ⟨x₀, x, hend⟩

end DataFlowGraph

end CilAnalysis
