import CilAnalysis.Proofs.DataFlow.Execution
import CilAnalysis.Proofs.DataFlow.Slices
import CilAnalysis.Proofs.Machine.Agreement

/-!
# Slices that are expressions

The slice of an instruction is an expression if every value in it has one producer and one use, and
if its instructions compute: they neither look into objects nor load variables that are changed
anywhere (`DataFlowGraph.IsExpression`).  An expression has one value for each of its instructions,
which a replay finds (`Interpreter.replay_replayed`).

## Strategy

A replay evaluates the slice like a program for a stack (`DataFlowGraph.Evaluates`), so the
induction is on the evaluation.  What is known between two instructions is `Machine.Evaluated`:

* the stack holds the values of some nodes, the producers of the next one on top.  That the graph
  names the producers in the order of the slots is `DataFlowGraph.taken_eq_producers`;
* references on the stack are all different, because each was made by an instruction of its own
  (`Value.DistinctHandles.cons_madeFrom`);
* variables that the method does not change are as at the start.  This is the discipline
  `Discipline.fixing`, which every instruction of the method obeys.

The step is `Machine.Evaluated.step`.  Two executions of an instruction that computes leave like
values (`MethodBody.Computes.yields`), and here the execution is compared with itself.  For each
instruction `DataFlowGraph.Replayed` keeps the state in which it was executed, to be compared with a
run later.
-/

namespace CilAnalysis

/-! ## Expressions -/

namespace MethodBody

/-- An instruction leaves one value, made from its operands or loaded from a variable that no
instruction of the method changes. -/
structure Computes (b : MethodBody) (i : Instruction) : Prop where
  operation : i.opcode.operation.computes = true
  one : i.pushCount = 1
  fixed : i.opcode.operation = .loadVariable → ∀ j ∈ b.instructions,
    j.opcode.operation.setsVariable = true → j.slot? ≠ i.slot?

instance (b : MethodBody) (i : Instruction) : Decidable (b.Computes i) :=
  decidable_of_iff (_ ∧ _ ∧ _)
    ⟨fun ⟨h₁, h₂, h₃⟩ => ⟨h₁, h₂, h₃⟩, fun h => ⟨h.operation, h.one, h.fixed⟩⟩

/-- Some instruction of the method changes the variable. -/
def Changes (b : MethodBody) (slot : Variable) : Prop := ∃ j ∈ b.instructions, j.Sets slot

private theorem Computes.not_changes {b : MethodBody} {i : Instruction} (h : b.Computes i)
    (hload : i.opcode.operation = .loadVariable) {slot : Variable} (hslot : i.slot? = some slot) :
    ¬ b.Changes slot := by
  rintro ⟨j, hj, hsets, hsame⟩
  exact h.fixed hload j hj hsets (hsame.trans hslot.symm)

end MethodBody

/-- Each value that a node takes has one source, and that is the first value some node pushes. -/
def DataFlowNode.HasSingleSources (n : DataFlowNode) (graph : Nat) : Prop :=
  ∀ d ∈ n.stack.items,
    d.sources.keys.map (fun source => (source.graph, source.slot)) = [(graph, 0)]

instance (n : DataFlowNode) (graph : Nat) : Decidable (n.HasSingleSources graph) :=
  inferInstanceAs (Decidable (∀ d ∈ n.stack.items, _ = _))

namespace DataFlowGraph

/-- The slice of an instruction has one producer and one use for every value, and its instructions
compute. -/
structure IsExpression (g : DataFlowGraph) (b : MethodBody) (root : Nat) (slice : List Nat) :
    Prop where
  tree : g.IsTree root (root :: slice)
  single : ∀ v ∈ root :: slice, ∀ n ∈ g.nodes.get? v, n.HasSingleSources g.id
  computes : ∀ v ∈ slice, ∀ i ∈ b.instructions, i.offset = v → b.Computes i

instance (g : DataFlowGraph) (b : MethodBody) (root : Nat) (slice : List Nat) :
    Decidable (g.IsExpression b root slice) :=
  decidable_of_iff (_ ∧ _ ∧ _)
    ⟨fun ⟨h₁, h₂, h₃⟩ => ⟨h₁, h₂, h₃⟩, fun h => ⟨h.tree, h.single, h.computes⟩⟩

/-- The producers are listed in the order of the slots, one for each. -/
theorem producers_forall₂ {g : DataFlowGraph} {v : Nat} {n : DataFlowNode}
    (hn : g.nodes.get? v = some n) (hsingle : n.HasSingleSources g.id) :
    List.Forall₂ (fun d q => d.sources.keys = [⟨g.id, q, 0⟩]) n.stack.items (g.producers v) := by
  have hproducers : g.producers v =
      n.stack.items.flatMap fun d => d.sources.keys.map DataSource.node := by
    unfold producers
    rw [hn]
    exact List.append_nil _
  rw [hproducers]
  unfold DataFlowNode.HasSingleSources at hsingle
  generalize n.stack.items = items at hsingle
  induction items with
  | nil => exact .nil
  | cons d items ih =>
      obtain ⟨source, hkeys, hsource⟩ := List.map_eq_singleton_iff.mp (hsingle d List.mem_cons_self)
      rcases source with ⟨graph, q, slot⟩
      obtain ⟨rfl, rfl⟩ := Prod.mk.inj hsource
      rw [List.flatMap_cons, hkeys]
      exact .cons hkeys (ih fun d' hd' => hsingle d' (List.mem_cons_of_mem d hd'))

theorem length_producers {g : DataFlowGraph} {b : MethodBody} {id : Nat} (hb : b.Ascending)
    (hg : DataFlowGraph.ofBody b id = .ok g) {i : Instruction} (hi : i ∈ b.instructions)
    {n : DataFlowNode} (hn : g.nodes.get? i.offset = some n) (hsingle : n.HasSingleSources g.id) :
    (g.producers i.offset).length = i.popCount b.returnsValue := by
  rw [← (producers_forall₂ hn hsingle).length_eq]
  obtain ⟨x₀, x, -, hx, hrest, rfl⟩ := ofBody_eq_ok hb hg
  obtain ⟨place, hplace⟩ := List.mem_iff_getElem?.mp hi
  obtain ⟨state, -, henough, rfl⟩ := hx.exists_state hb hrest hplace hn
  exact Instruction.length_flowNode_items henough

/-- What an instruction really takes comes from its producers in the graph, if each value has only
one. -/
theorem taken_eq_producers {g : DataFlowGraph} {v pops : Nat} {n : DataFlowNode}
    {reads : List Variable} {σ : Provenance} (hn : g.nodes.get? v = some n)
    (hsingle : n.HasSingleSources g.id) (hcovers : n.Covers g.id pops reads σ)
    (hpops : pops ≤ σ.stack.length) :
    σ.stack.take pops = (g.producers v).reverse.map fun q => some (q, 0) := by
  have hforall := producers_forall₂ hn hsingle
  have hitems : n.stack.items.length = pops := hcovers.length
  have hproducers : (g.producers v).length = pops := hforall.length_eq.symm.trans hitems
  have htaken : σ.taken pops = (g.producers v).map fun q => some (q, 0) := by
    have hlength : (σ.taken pops).length = pops := by
      unfold Provenance.taken
      rw [List.length_reverse, List.length_take]
      omega
    -- Position by position: the source of the slot is the only key, and it names the producer.
    refine List.ext_getElem? fun k => ?_
    by_cases hk : k < pops
    · obtain ⟨d, node, slot, hd, hproducer, hmem⟩ := hcovers.taken k hk
      obtain ⟨hkd, rfl⟩ := List.getElem?_eq_some_iff.mp hd
      have hkq : k < (g.producers v).length := by omega
      have hkeys := hforall.get hkd hkq
      have hsource : (⟨g.id, node, slot⟩ : DataSource) ∈ [⟨g.id, (g.producers v)[k], 0⟩] :=
        hkeys ▸ hmem
      obtain ⟨-, rfl, rfl⟩ := DataSource.mk.inj (List.mem_singleton.mp hsource)
      rw [hproducer, List.getElem?_map, List.getElem?_eq_getElem hkq]
      rfl
    · rw [List.getElem?_eq_none (by omega), List.getElem?_eq_none]
      rw [List.length_map]
      omega
  calc σ.stack.take pops
      = (σ.taken pops).reverse := (List.reverse_reverse _).symm
    _ = ((g.producers v).map fun q => some (q, 0)).reverse := by rw [htaken]
    _ = (g.producers v).reverse.map fun q => some (q, 0) := List.map_reverse.symm

end DataFlowGraph

/-! ## Variables that stay as they are -/

/-- No variable holds a handle. -/
def Frame.HandleFree (f : Frame) : Prop :=
  ∀ slot cell, f.cell? slot = some cell → cell.value.HandleFree

namespace Discipline

/-- Handles are live, and the variables that a method does not change are those of a given frame. -/
def fixing (width : PointerWidth) (b : MethodBody) (f : Frame) : Discipline width :=
  { live width with
    frame := fun f' => ∀ slot, ¬ b.Changes slot → f'.cell? slot = f.cell? slot
    stored := b.Changes
    frame_set := by
      intro f' slot v hstored hf' other hother
      have hne : other ≠ slot := by
        rintro rfl
        exact hother hstored
      rw [Frame.cell?_set v hne, hf' other hother] }

theorem admits_fixing_iff {width : PointerWidth} {b : MethodBody} {f : Frame} {h : Heap}
    {v : Value} : (fixing width b f).Admits h v ↔ v.Live h :=
  show (live width).Admits h v ↔ v.Live h from admits_live_iff

/-- An instruction of the method keeps handles live and fixed variables fixed. -/
theorem Obeyed.execute_fixing {s : Setting} {b : MethodBody} {f : Frame} {m : Machine}
    (hm : (fixing s.width b f).Obeyed s m) (henv : s.environment = {}) {i : Instruction}
    (hi : i ∈ b.instructions) :
    (fixing s.width b f).Obeyed s ((s.execute i).run m).2 ∧
      m.heap.Extends ((s.execute i).run m).2.heap := by
  obtain ⟨hm', hext, -⟩ := hm.execute henv (i := i) fun slot hsets => ⟨i, hi, hsets⟩
  exact ⟨hm', hext⟩

theorem obeyed_fixing_start (s : Setting) (b b' : MethodBody) :
    (fixing s.width b' (Machine.start s b).frame).Obeyed s (.start s b) := by
  apply obeyed_start
  exact fun slot _ => rfl

/-- The variables that a method starts with have no handles. -/
theorem handleFree_start (s : Setting) (b : MethodBody) : (Machine.start s b).frame.HandleFree := by
  have hstart : (live s.width).Obeyed s (.start s b) := obeyed_start trivial
  intro slot cell hcell
  cases slot with
  | loc index => exact handleFree_iff.mpr (hstart.values.locals cell (List.mem_of_getElem? hcell))
  | arg index =>
      exact handleFree_iff.mpr (hstart.values.arguments cell (List.mem_of_getElem? hcell))

end Discipline

/-! ## Execution of an instruction of an expression -/

namespace Value

variable {h h' h₀ : Heap} {v v' : Value} {vs rest : List Value}

/-- A value made in a heap with references to other objects than all others differs from these. -/
theorem DistinctHandles.cons_madeFrom (hdistinct : DistinctHandles (vs ++ rest))
    (hlive : ∀ u ∈ rest, u.Live h) (hmade : v.MadeFrom h vs) : DistinctHandles (v :: rest) := by
  obtain ⟨-, hrest, hacross⟩ := List.pairwise_append.mp hdistinct
  refine List.pairwise_cons.mpr ⟨?_, hrest⟩
  intro u hu handle hv
  rcases hmade handle hv with hnew | hold
  · rintro rfl
    have hlt : handle.index < h.size := hlive _ hu
    omega
  · exact hacross v hold u hu handle hv

/-- References may be compared in an earlier heap that has their objects. -/
theorem Alike.restrict (hv : Alike h h' v v') (hself : Alike h₀ h₀ v' v') (hext : h₀.Extends h') :
    Alike h h₀ v v' := by
  cases hv with
  | same hv => exact .same hv
  | known ho ho' htext =>
      cases hself with
      | same hfree => exact hfree.elim
      | known ho₀ _ _ =>
          obtain ⟨o₁, ho₁, hlayout⟩ := hext _ _ ho₀
          obtain rfl := Option.some.inj (ho'.symm.trans ho₁)
          exact .known ho ho₀ (htext.trans hlayout.text?_eq.symm)

end Value

/-- An instruction that computes leaves like values, if it finds like operands. -/
theorem MethodBody.Computes.yields {b : MethodBody} {i : Instruction} (h : b.Computes i)
    {s : Setting} (henv : s.environment = {}) {f : Frame} (hf : f.HandleFree)
    {m m' m₁ m₁' : Machine} {t t' : Successor} (hm : (Discipline.fixing s.width b f).Obeyed s m)
    (hm' : (Discipline.fixing s.width b f).Obeyed s m') {vs vs' stack stack' : List Value}
    (hstack : m.stack = vs ++ stack) (hstack' : m'.stack = vs' ++ stack')
    (hvs : List.Forall₂ (Value.Alike m.heap m'.heap) vs vs')
    (hcount : vs.length = i.popCount s.returnsValue) (hdistinct : Value.DistinctHandles vs)
    (hdistinct' : Value.DistinctHandles vs') (hrun : (s.execute i).run m = (.ok t, m₁))
    (hrun' : (s.execute i).run m' = (.ok t', m₁')) :
    Machine.Yield m.heap m'.heap vs vs' stack stack' m₁ m₁' := by
  have hone : i.opcode.operation.pushes i.signature? = 1 := i.pushCount_eq ▸ h.one
  rw [i.popCount_eq] at hcount
  refine Setting.perform_yields henv h.operation hone hvs hcount hdistinct hdistinct' m m'
    ⟨⟨rfl, rfl, hstack, hstack'⟩, ?_⟩ t t' m₁ m₁' hrun hrun'
  intro hload slot hslot
  have hfixed := hm.frame slot (h.not_changes hload hslot)
  have hfixed' := hm'.frame slot (h.not_changes hload hslot)
  refine ⟨hfixed.trans hfixed'.symm, ?_⟩
  intro cell hcell
  exact hf slot cell (hfixed.symm.trans hcell)

/-! ## Replays -/

/-- The stack holds the values of some nodes, and each of its references is to an object of its own.
-/
structure Machine.Evaluated (s : Setting) (b : MethodBody) (f : Frame) (val : Nat → Value)
    (nodes : List Nat) (m : Machine) : Prop where
  stack : m.stack = nodes.map val
  plain : ∀ v ∈ m.stack, v.Alike m.heap m.heap v
  distinct : Value.DistinctHandles m.stack
  obeyed : (Discipline.fixing s.width b f).Obeyed s m

/-- The instruction at an offset was executed on the values of its producers and left its own, in a
heap that was to grow to a given one. -/
inductive DataFlowGraph.Replayed (g : DataFlowGraph) (s : Setting) (b : MethodBody) (f : Frame)
    (val : Nat → Value) (h : Heap) (q : Nat) : Prop where
  | intro {i : Instruction} {m m' : Machine} {t : Successor} {rest : List Nat}
      (hi : b.instructionAt q = .ok i) (hrun : (s.execute i).run m = (.ok t, m'))
      (hm : m.Evaluated s b f val ((g.producers q).reverse ++ rest))
      (hm' : m'.Evaluated s b f val (q :: rest)) (hgrown : m'.heap.Extends h)

theorem map_update_of_notMem {val : Nat → Value} {nodes : List Nat} {q : Nat} (hq : q ∉ nodes)
    (v : Value) : nodes.map (Function.update val q v) = nodes.map val := by
  refine List.map_congr_left fun p hp => Function.update_of_ne ?_ v val
  rintro rfl
  exact hq hp

namespace Machine.Evaluated

variable {s : Setting} {b : MethodBody} {f : Frame} {val val' : Nat → Value} {nodes : List Nat}
  {m m' : Machine}

/-- Only the values of the nodes on the stack count. -/
theorem congr (hm : m.Evaluated s b f val nodes) (hval : ∀ q ∈ nodes, val' q = val q) :
    m.Evaluated s b f val' nodes :=
  { hm with stack := hm.stack.trans (List.map_congr_left fun q hq => (hval q hq).symm) }

/-- An instruction that computes takes the values of its producers and leaves one of its own. -/
theorem step (henv : s.environment = {}) (hf : f.HandleFree) {i : Instruction}
    (hi : i ∈ b.instructions) (hcomputes : b.Computes i) {producers rest : List Nat} {q : Nat}
    (hm : m.Evaluated s b f val (producers.reverse ++ rest))
    (hcount : producers.length = i.popCount s.returnsValue) (hq : q ∉ rest) {t : Successor}
    (hrun : (s.execute i).run m = (.ok t, m')) :
    ∃ v, m'.Evaluated s b f (Function.update val q v) (q :: rest) ∧ m.heap.Extends m'.heap := by
  have hstack : m.stack = producers.reverse.map val ++ rest.map val := by
    rw [hm.stack, List.map_append]
  obtain ⟨hobeyed, hext⟩ := hm.obeyed.execute_fixing henv hi
  rw [hrun] at hobeyed hext
  have hoperands : ∀ v ∈ producers.reverse.map val, v ∈ m.stack := by
    intro v hv
    rw [hstack]
    exact List.mem_append_left _ hv
  have hself : List.Forall₂ (Value.Alike m.heap m.heap) (producers.reverse.map val)
      (producers.reverse.map val) :=
    List.forall₂_same.mpr fun v hv => hm.plain v (hoperands v hv)
  have hall : Value.DistinctHandles (producers.reverse.map val ++ rest.map val) :=
    hstack ▸ hm.distinct
  have hdistinct : Value.DistinctHandles (producers.reverse.map val) :=
    (List.pairwise_append.mp hall).1
  have hlength : (producers.reverse.map val).length = i.popCount s.returnsValue := by
    rw [List.length_map, List.length_reverse, hcount]
  -- The execution is compared with itself: what two executions have in common is then said of one.
  obtain @⟨v, v', hpushed, hpushed', halike, hmade, -⟩ := hcomputes.yields henv hf hm.obeyed
    hm.obeyed hstack hstack hself hlength hdistinct hdistinct hrun hrun
  obtain ⟨rfl, -⟩ := List.cons.inj (hpushed.symm.trans hpushed')
  have hrest : ∀ u ∈ rest.map val, u ∈ m.stack := by
    intro u hu
    rw [hstack]
    exact List.mem_append_right _ hu
  refine ⟨v, ?_, hext⟩
  exact
    { stack := by rw [hpushed, List.map_cons, Function.update_self, map_update_of_notMem hq]
      plain := by
        rw [hpushed]
        refine List.forall_mem_cons.mpr ⟨halike, ?_⟩
        intro u hu
        exact (hm.plain u (hrest u hu)).mono hext hext
      distinct := by
        rw [hpushed]
        refine hall.cons_madeFrom ?_ hmade
        intro u hu
        exact Discipline.admits_fixing_iff.mp (hm.obeyed.values.stack u (hrest u hu))
      obeyed := hobeyed }

end Machine.Evaluated

/-- A replay that succeeds has executed its first instruction, and goes on from there. -/
theorem Interpreter.replay_cons_eq_ok {p : Interpreter} {b : MethodBody} {offset : Nat}
    {rest : List Nat} {m m' : Machine} (h : p.replay b (offset :: rest) m = .ok m') :
    ∃ i t m₁, b.instructionAt offset = .ok i ∧
      (p.dispatch (p.setting b) i).run m = (.ok t, m₁) ∧ p.replay b rest m₁ = .ok m' := by
  rw [replay] at h
  cases hi : b.instructionAt offset with
  | error e =>
      rw [hi] at h
      cases h
  | ok i =>
      rw [hi] at h
      dsimp only at h
      rcases hrun : (p.dispatch (p.setting b) i).run m with ⟨fault | t, m₁⟩
      · rw [hrun] at h
        cases h
      · rw [hrun] at h
        exact ⟨i, t, m₁, rfl, hrun, h⟩

/-- The replay of an expression gives every instruction of it one value, and ends with the values
that are left. -/
theorem Interpreter.replay_replayed {options : Options} {s : Setting} {b : MethodBody} {f : Frame}
    {g : DataFlowGraph} (hs : s = ({ options } : Interpreter).setting b) (hf : f.HandleFree)
    {nodes order final : List Nat} (horder : g.Evaluates nodes order final)
    (hnodup : (nodes ++ order).Nodup)
    (hcomputes : ∀ q ∈ order, ∀ i ∈ b.instructions, i.offset = q →
      b.Computes i ∧ (g.producers q).length = i.popCount s.returnsValue)
    {val : Nat → Value} {m m' : Machine} (hm : m.Evaluated s b f val nodes)
    (hrun : ({ options } : Interpreter).replay b order m = .ok m') :
    ∃ val', (∀ q, q ∉ order → val' q = val q) ∧ m'.Evaluated s b f val' final ∧
      m.heap.Extends m'.heap ∧ ∀ q ∈ order, g.Replayed s b f val' m'.heap q := by
  induction horder generalizing val m with
  | nil stack =>
      obtain rfl := Except.ok.inj hrun
      exact ⟨val, fun _ _ => rfl, hm, .refl _, fun q hq => absurd hq List.not_mem_nil⟩
  | @cons stack rest order final v hstack hrest ih =>
      subst hstack
      obtain ⟨i, t, m₁, hfound, hstep, hrun⟩ := replay_cons_eq_ok hrun
      rw [dispatch_eq_execute, ← hs] at hstep
      obtain ⟨hi, hoffset⟩ := MethodBody.of_instructionAt hfound
      obtain ⟨hi', hcount⟩ := hcomputes v List.mem_cons_self i hi hoffset
      -- The nodes on the stack are none of those still to come.
      have hapart : ∀ q ∈ (g.producers v).reverse ++ rest, q ∉ v :: order :=
        fun q hq hq' => (List.disjoint_of_nodup_append hnodup) hq hq'
      have hnodup' : (v :: rest ++ order).Nodup := by
        rw [List.append_assoc] at hnodup
        exact List.perm_middle.nodup_iff.mp hnodup.of_append_right
      obtain ⟨hv, -⟩ := List.nodup_cons.mp hnodup'
      have hvrest : v ∉ rest := fun hmem => hv (List.mem_append_left order hmem)
      have hvorder : v ∉ order := fun hmem => hv (List.mem_append_right rest hmem)
      obtain ⟨u, hm₁, hgrown⟩ := hm.step (by rw [hs]; rfl) hf hi hi' hcount hvrest hstep
      obtain ⟨val', hval', hm', hext, hreplayed⟩ := ih hnodup'
        (fun q hq => hcomputes q (List.mem_cons_of_mem v hq)) hm₁ hrun
      -- Later instructions leave the values of these nodes and of the new one alone.
      have hold : ∀ q, q ∉ v :: order → val' q = val q := by
        intro q hq
        rw [hval' q (List.not_mem_of_not_mem_cons hq),
          Function.update_of_ne (List.ne_of_not_mem_cons hq)]
      have hkept : ∀ q ∈ v :: rest, val' q = Function.update val v u q := by
        intro q hq
        refine hval' q ?_
        rcases List.mem_cons.mp hq with rfl | hq
        · exact hvorder
        · exact fun hlater =>
            hapart q (List.mem_append_right _ hq) (List.mem_cons_of_mem v hlater)
      refine ⟨val', hold, hm', hgrown.trans hext, List.forall_mem_cons.mpr ⟨?_, hreplayed⟩⟩
      exact .intro hfound hstep (hm.congr fun q hq => hold q (hapart q hq)) (hm₁.congr hkept)
        hext

end CilAnalysis
