import CilAnalysis.Proofs.DataFlow.MergeOverPaths
import CilAnalysis.Proofs.Instruction.Expand
import CilAnalysis.Proofs.Machine.StackEffect
import CilAnalysis.Proofs.Machine.Successor

/-!
# The data-flow graph and executions

Where an executed instruction really gets its values from is among the sources that the graph of its
method gives (`Interpreter.runWith_explained`).  A run from an empty stack never finds the stack too
small, since the graph would not have been made otherwise.

## Strategy

A run is made to record what it executes (`Interpreter.recordWith`), and with it where the values on
the stack and in the variables come from.  Recording changes nothing (`Interpreter.recordFrom_snd`).

The recorded provenance is that of a path through the method, because instructions take and leave as
many values as the tables say and lead where the tables let them (`MethodBody.Follows.step`).  All
paths are within the states of the graph, so it explains every execution
(`DataFlowGraph.ofBody_coversPaths`).

* What is recorded is an observation (`Provenance.observe`): it only looks at the height of the
  stack that was left.
* An execution raises no exceptions that are handled, since a fault ends the run.  So the paths that
  count are those without exceptions (`MethodBody.Reaches` with no clauses).
* The induction is on the number of steps (`Interpreter.recordFrom_explained`), and the invariant is
  that the run follows a path (`MethodBody.Follows`).
-/

namespace CilAnalysis

open Instruction

/-! ## The graph covers all paths without exceptions -/

/-- A node has the sources that a path gives to the `pops` values taken from the stack, each of
which some instruction pushed, and to the variables read. -/
structure DataFlowNode.Covers (n : DataFlowNode) (graph pops : Nat) (reads : List Variable)
    (σ : Provenance) : Prop where
  length : n.stack.items.length = pops
  taken : ∀ k < pops, ∃ (d : StackDependency) (node slot : Nat), n.stack.items[k]? = some d ∧
    (σ.taken pops)[k]? = some (some (node, slot)) ∧ ⟨graph, node, slot⟩ ∈ d.sources
  written : ∀ v ∈ reads, ∃ sources : Sources, n.byVariable.get? v = some sources ∧
    ∀ node, σ.writer v = some node → ⟨graph, node, 0⟩ ∈ sources

/-- The graph covers the paths on which no exception is raised, and the instructions on them find
the values that they take. -/
def DataFlowGraph.CoversPaths (g : DataFlowGraph) (b : MethodBody) : Prop :=
  ∀ (place : Nat) (i : Instruction) (σ : Provenance), b.instructions[place]? = some i →
    b.Reaches [] place σ → i.popCount b.returnsValue ≤ σ.stack.length ∧
      ∃ n, g.nodes.get? i.offset = some n ∧
        n.Covers g.id (i.popCount b.returnsValue) i.variablesRead σ

/-- Without exceptions every value on the stack was pushed by an instruction. -/
theorem MethodBody.Reaches.exists_producer {b : MethodBody} {place : Nat} {σ : Provenance}
    (h : b.Reaches [] place σ) {producer : Option (Nat × Nat)} (hmem : producer ∈ σ.stack) :
    ∃ node slot, producer = some (node, slot) := by
  have hafter : ∀ {i : Instruction} {pops : Nat} {σ : Provenance},
      (∀ producer ∈ σ.stack, ∃ node slot, producer = some (node, slot)) →
      ∀ producer ∈ (σ.after i pops).stack, ∃ node slot, producer = some (node, slot) := by
    intro i pops σ hσ producer hmem
    rcases List.mem_append.mp hmem with hpushed | hkept
    · obtain ⟨slot, -, rfl⟩ := List.mem_map.mp hpushed
      exact ⟨i.offset, slot, rfl⟩
    · split at hkept
      next => exact absurd hkept List.not_mem_nil
      next => exact hσ producer (List.mem_of_mem_drop hkept)
  induction h generalizing producer with
  | start _ => exact absurd hmem List.not_mem_nil
  | enter hc _ _ => exact absurd hc List.not_mem_nil
  | next _ _ _ _ ih => exact hafter (fun _ => ih) producer hmem
  | branch _ _ _ _ ih => exact hafter (fun _ => ih) producer hmem
  | raiseBefore _ _ hc _ _ _ _ => exact absurd hc List.not_mem_nil
  | raiseAfter _ _ hc _ _ _ _ => exact absurd hc List.not_mem_nil

theorem DataFlowGraph.ofBody_coversPaths {b : MethodBody} (hb : b.Ascending)
    (hfirst : ∀ c ∈ b.clauses, ∀ i, b.instructions[0]? = some i → ¬ c.EntersAt i.offset)
    {id : Nat} {g : DataFlowGraph} (hg : DataFlowGraph.ofBody b id = .ok g) : g.CoversPaths b := by
  obtain ⟨x₀, x, hentered, hx, hrest, rfl⟩ := DataFlowGraph.ofBody_eq_ok hb hg
  intro place i σ hplace hσ
  -- The path is within the state that the node was made of.
  obtain ⟨s, hs, hwithin⟩ := hx.holds hrest (hentered.rooted_nil hfirst) (List.nil_subset _) hσ
  have hsettled := hx.settled place i s hplace hs (hrest place)
  have henough := hsettled.enough
  have hpops : i.popCount b.returnsValue ≤ σ.stack.length := hwithin.height ▸ henough
  refine ⟨hpops, _, hsettled.node, length_flowNode_items henough, ?_, ?_⟩
  · intro k hk
    have hget := Provenance.getElem?_taken hpops hk
    have hdepth : i.popCount b.returnsValue - 1 - k < σ.stack.length := by omega
    obtain ⟨node, slot, hproducer⟩ := hσ.exists_producer (List.getElem_mem hdepth)
    rw [List.getElem?_eq_getElem hdepth, hproducer] at hget
    have hitem : k < (i.flowNode id (i.popCount b.returnsValue) s).stack.items.length := by
      rwa [length_flowNode_items henough]
    refine ⟨_, node, slot, List.getElem?_eq_getElem hitem, hget, ?_⟩
    rw [mem_flowNode_items henough (List.getElem?_eq_getElem hitem)]
    refine hwithin.has _ ⟨?_, rfl⟩
    rw [List.getElem?_eq_getElem hdepth, hproducer]
  · intro v hv
    have hget : (i.flowNode id (i.popCount b.returnsValue) s).byVariable.get? v =
        some ((s.byVariable.get? v).getD .empty) :=
      get?_flowNode_byVariable.mpr ⟨hv, rfl⟩
    refine ⟨_, hget, ?_⟩
    intro node hwriter
    rw [mem_flowNode_byVariable hget]
    exact hwithin.has _ ⟨hwriter, rfl, rfl⟩

/-! ## Runs that record what they execute -/

/-- What lies above the values that an instruction did not touch are the values it pushed, counted
from the lowest.  `height` is that of the stack it left. -/
def Provenance.observe (σ : Provenance) (i : Instruction) (pops height : Nat) : Provenance where
  stack :=
    let kept := if i.clearsStack then [] else σ.stack.drop pops
    ((List.range (height - kept.length)).reverse.map fun slot => some (i.offset, slot)) ++ kept
  writer v := if v ∈ i.variablesWritten then some i.offset else σ.writer v

namespace Provenance

variable {σ : Provenance} {i : Instruction} {pops height : Nat}

/-- An instruction that leaves as many values as it should is observed to do what it does along
paths. -/
theorem observe_eq_after
    (h : height = i.pushCount + if i.clearsStack then 0 else σ.stack.length - pops) :
    σ.observe i pops height = σ.after i pops := by
  have hpushed : height - (if i.clearsStack then [] else σ.stack.drop pops).length =
      i.pushCount := by
    cases hclears : i.clearsStack <;> simp [h, hclears]
  unfold observe after
  dsimp only
  rw [hpushed]

private theorem after_expand : σ.after i.expand pops = σ.after i pops := by
  unfold after
  simp only [pushCount_expand, offset_expand,
    clearsStack_expand, variablesWritten_expand]

end Provenance

/-- An instruction as it was executed: where the values came from that it found, the states around
it, and its outcome. -/
structure Executed where
  instruction : Instruction
  provenance : Provenance
  before : Machine
  outcome : Outcome
  after : Machine

namespace Interpreter

/-- Run from an offset like `runFrom`, and record what is executed. -/
def recordFrom (p : Interpreter) (s : Setting) (b : MethodBody) :
    Nat → Nat → Provenance → Machine → List Executed × Except Error RunOutcome × Machine
  | 0, offset, _, m => ([], .ok (.stepLimit offset), m)
  | steps + 1, offset, σ, m =>
    match b.instructionAt offset with
    | .error e => ([], .error e, m)
    | .ok i =>
      match (p.dispatch s i).run m with
      | (.error fault, m') => ([⟨i, σ, m, .error fault, m'⟩], .ok (.faulted offset fault), m')
      | (.ok successor, m') =>
        match continuation i m' successor with
        | .inl next =>
          let τ := σ.observe i (i.popCount s.returnsValue) m'.stack.length
          let rest := recordFrom p s b steps next τ m'
          (⟨i, σ, m, .ok successor, m'⟩ :: rest.1, rest.2)
        | .inr outcome => ([⟨i, σ, m, .ok successor, m'⟩], .ok outcome, m')

/-- Run a method from a state like `runWith`, and record what is executed.  The values on the stack
at the start come from outside. -/
def recordWith (p : Interpreter) (b : MethodBody) (m : Machine) :
    List Executed × Except Error RunOutcome × Machine :=
  match b.expand.instructions with
  | [] => ([], .error .emptyMethodBody, m)
  | first :: _ =>
    p.recordFrom (p.setting b) b.expand p.options.maxSteps first.offset (.ofHeight m.stack.length) m

/-- Recording changes nothing. -/
theorem recordFrom_snd (p : Interpreter) (s : Setting) (b : MethodBody) (steps offset : Nat)
    (σ : Provenance) (m : Machine) :
    (p.recordFrom s b steps offset σ m).2 = p.runFrom s b steps offset m := by
  induction steps generalizing offset σ m with
  | zero => rfl
  | succ steps ih =>
      unfold recordFrom runFrom
      cases b.instructionAt offset with
      | error e => rfl
      | ok i =>
          dsimp only
          rcases (p.dispatch s i).run m with ⟨fault | successor, m'⟩
          · rfl
          · dsimp only
            cases continuation i m' successor with
            | inl next => exact ih next _ m'
            | inr outcome => rfl

theorem recordWith_snd (p : Interpreter) (b : MethodBody) (m : Machine) :
    (p.recordWith b m).2 = p.runWith b m := by
  unfold recordWith runWith
  cases b.expand.instructions with
  | nil => rfl
  | cons first rest => exact p.recordFrom_snd _ _ _ _ _ m

end Interpreter

/-! ## Executions follow paths -/

/-- The graph has a node for an executed instruction, which lists the true sources of all values it
takes and of the variables it reads.  The provenance is that of the values on the stack: there is
one entry for each value, and those that an instruction is not said to have pushed were there
before. -/
structure DataFlowGraph.Explains (g : DataFlowGraph) (b : MethodBody) (e : Executed) : Prop where
  node : ∃ n, g.nodes.get? e.instruction.offset = some n ∧
    n.Covers g.id (e.instruction.popCount b.returnsValue) e.instruction.variablesRead e.provenance
  height : e.provenance.stack.length = e.before.stack.length
  kept : ∀ t, e.outcome = .ok t → ∃ new : List Value, new.length = e.instruction.pushCount ∧
    e.after.stack = new ++ if e.instruction.clearsStack then []
      else e.before.stack.drop (e.instruction.popCount b.returnsValue)

/-- Before the instruction at an offset, the recorded provenance is that of the stack and of some
path to the instruction. -/
structure MethodBody.Follows (b : MethodBody) (offset : Nat) (σ : Provenance) (m : Machine) :
    Prop where
  height : σ.stack.length = m.stack.length
  path : ∀ (place : Nat) (i : Instruction), b.instructions[place]? = some i → i.offset = offset →
    b.Reaches [] place σ

namespace MethodBody.Follows

variable {b : MethodBody} {g : DataFlowGraph} {s : Setting} {place : Nat} {i : Instruction}
  {σ : Provenance} {m m' : Machine}

private theorem explains (h : b.Follows i.offset σ m) (hg : g.CoversPaths b)
    (hplace : b.instructions[place]? = some i) (henv : s.environment = {})
    (hreturns : s.returnsValue = b.returnsValue) {outcome : Outcome}
    (hrun : (s.execute i.expand).run m = (outcome, m')) :
    g.Explains b ⟨i.expand, σ, m, outcome, m'⟩ where
  node := by
    obtain ⟨-, n, hn, hcovers⟩ := hg place i σ hplace (h.path place i hplace rfl)
    rw [offset_expand, popCount_expand, variablesRead_expand]
    exact ⟨n, hn, hcovers⟩
  height := h.height
  kept := by
    rintro t rfl
    rw [← hreturns]
    exact (s.execute_stack i.expand henv hrun).2

private theorem not_underflow (h : b.Follows i.offset σ m) (hg : g.CoversPaths b)
    (hplace : b.instructions[place]? = some i) (henv : s.environment = {})
    (hreturns : s.returnsValue = b.returnsValue) :
    (s.execute i.expand).run m ≠ (.error .stackUnderflow, m') := by
  intro hrun
  obtain ⟨hpops, -⟩ := hg place i σ hplace (h.path place i hplace rfl)
  have hless := s.execute_underflow i.expand henv hrun
  rw [popCount_expand, hreturns, ← h.height] at hless
  omega

/-- An executed instruction takes the run one edge further along its path. -/
theorem step (h : b.Follows i.offset σ m) (hb : b.Contiguous)
    (hplace : b.instructions[place]? = some i) (henv : s.environment = {})
    (hreturns : s.returnsValue = b.returnsValue) {t : Successor} {next : Nat}
    (hrun : (s.execute i.expand).run m = (.ok t, m'))
    (hnext : Interpreter.continuation i.expand m' t = .inl next) :
    b.Follows next (σ.observe i.expand (i.expand.popCount s.returnsValue) m'.stack.length) m' := by
  have hheight : m'.stack.length = i.expand.pushCount +
      if i.expand.clearsStack then 0 else σ.stack.length - i.expand.popCount s.returnsValue := by
    obtain ⟨-, new, hnew, hstack⟩ := s.execute_stack i.expand henv hrun
    set pops := i.expand.popCount s.returnsValue
    calc m'.stack.length
        = (new ++ if i.expand.clearsStack then [] else m.stack.drop pops).length := by rw [hstack]
      _ = new.length + (if i.expand.clearsStack then [] else m.stack.drop pops).length :=
          List.length_append
      _ = i.expand.pushCount + if i.expand.clearsStack then 0 else m.stack.length - pops := by
          rw [hnew]
          cases i.expand.clearsStack <;> simp
      _ = i.expand.pushCount + if i.expand.clearsStack then 0 else σ.stack.length - pops := by
          rw [h.height]
  have hafter : σ.observe i.expand (i.expand.popCount s.returnsValue) m'.stack.length =
      σ.after i (i.popCount b.returnsValue) :=
    calc σ.observe i.expand (i.expand.popCount s.returnsValue) m'.stack.length
        = σ.after i.expand (i.expand.popCount s.returnsValue) :=
          Provenance.observe_eq_after hheight
      _ = σ.after i (i.expand.popCount s.returnsValue) := Provenance.after_expand
      _ = σ.after i (i.popCount b.returnsValue) := by rw [popCount_expand, hreturns]
  refine ⟨?_, ?_⟩
  · rw [Provenance.observe_eq_after hheight, Provenance.length_after_stack, hheight]
  · intro q j hq hoffset
    rw [hafter]
    refine (h.path place i hplace rfl).flowsTo hplace ⟨j, hq, ?_⟩
    -- Of the successors only two let the run go on.
    have hleads := s.perform_leads i.expand _ m t m' hrun
    rw [operation_expand] at hleads
    cases t with
    | fallThrough =>
        obtain rfl := Sum.inl.inj hnext
        rw [next_expand] at hoffset
        exact Or.inl ⟨Opcode.flow_fallsThrough hleads, hb.place_eq hplace hq hoffset⟩
    | branch target =>
        obtain rfl := Sum.inl.inj hnext
        rw [hoffset]
        exact Or.inr (i.targets_expand_subset hleads.2)
    | _ => exact nomatch hnext

end MethodBody.Follows

namespace Interpreter

variable {b : MethodBody} {g : DataFlowGraph}

/-- A run that follows a path is explained to its end. -/
theorem recordFrom_explained (hb : b.Contiguous) (hg : g.CoversPaths b) (options : Options)
    {s : Setting} (henv : s.environment = {}) (hreturns : s.returnsValue = b.returnsValue)
    (steps : Nat) {offset : Nat} {σ : Provenance} {m : Machine} (h : b.Follows offset σ m) :
    (∀ e ∈ (({ options } : Interpreter).recordFrom s b.expand steps offset σ m).1,
        g.Explains b e) ∧
      ∀ o, (({ options } : Interpreter).recordFrom s b.expand steps offset σ m).2.1 ≠
        .ok (.faulted o .stackUnderflow) := by
  induction steps generalizing offset σ m with
  | zero =>
      refine ⟨fun e he => absurd he List.not_mem_nil, ?_⟩
      intro o heq
      exact RunOutcome.noConfusion (Except.ok.inj heq)
  | succ steps ih =>
      unfold recordFrom
      cases hfound : b.expand.instructionAt offset with
      | error e =>
          refine ⟨fun e he => absurd he List.not_mem_nil, ?_⟩
          intro o heq
          exact nomatch heq
      | ok i' =>
          obtain ⟨place, i, hplace, rfl, rfl⟩ := MethodBody.exists_of_instructionAt_expand hfound
          dsimp only
          rw [dispatch_eq_execute]
          cases hrun : (s.execute i.expand).run m with
          | mk outcome m' =>
              have hexplains := h.explains hg hplace henv hreturns hrun
              cases outcome with
              | error fault =>
                  refine ⟨List.forall_mem_singleton.mpr hexplains, ?_⟩
                  intro o heq
                  obtain ⟨-, rfl⟩ := RunOutcome.faulted.inj (Except.ok.inj heq)
                  exact h.not_underflow hg hplace henv hreturns hrun
              | ok t =>
                  dsimp only
                  cases hnext : continuation i.expand m' t with
                  | inl next =>
                      obtain ⟨hrest, hend⟩ := ih (h.step hb hplace henv hreturns hrun hnext)
                      exact ⟨List.forall_mem_cons.mpr ⟨hexplains, hrest⟩, hend⟩
                  | inr outcome =>
                      -- What ends a run after a success is no fault.
                      refine ⟨List.forall_mem_singleton.mpr hexplains, ?_⟩
                      intro o heq
                      rw [Except.ok.inj heq] at hnext
                      cases t <;> exact nomatch hnext

/-- The data-flow graph is sound for executions.  Every instruction that a run from an empty stack
executes has a node; for each value it takes from the stack, the deepest first, the instruction and
the place with which it was pushed are among the sources of that slot; for each variable it reads,
so is the last executed instruction that wrote it, if there is one; and the run never finds the
stack too small. -/
theorem runWith_explained (options : Options) {id : Nat} (hb : b.Contiguous)
    (hfirst : ∀ c ∈ b.clauses, ∀ i, b.instructions[0]? = some i → ¬ c.EntersAt i.offset)
    (hg : DataFlowGraph.ofBody b id = .ok g) {m : Machine} (hm : m.stack = []) :
    (({ options } : Interpreter).recordWith b m).2 = ({ options } : Interpreter).runWith b m ∧
      (∀ e ∈ (({ options } : Interpreter).recordWith b m).1, g.Explains b e) ∧
      ∀ offset, (({ options } : Interpreter).runWith b m).1 ≠
        .ok (.faulted offset .stackUnderflow) := by
  have hcovers := DataFlowGraph.ofBody_coversPaths hb.ascending hfirst hg
  rw [← recordWith_snd]
  refine ⟨rfl, ?_⟩
  unfold recordWith
  cases hcode : b.expand.instructions with
  | nil =>
      refine ⟨fun e he => absurd he List.not_mem_nil, ?_⟩
      intro offset heq
      exact nomatch heq
  | cons first rest =>
      -- The first instruction is the only one at its offset.
      refine recordFrom_explained hb hcovers options rfl rfl _ ⟨List.length_replicate, ?_⟩
      intro place i hplace hoffset
      cases hbody : b.instructions with
      | nil =>
          rw [hbody] at hplace
          exact nomatch hplace
      | cons j _ =>
          have hstart : b.instructions[0]? = some j := by rw [hbody]; rfl
          have hlong : j.expand = first := by
            unfold MethodBody.expand at hcode
            rw [hbody] at hcode
            exact (List.cons.inj hcode).1
          have hsame : i.offset = j.offset := by rw [hoffset, ← hlong, offset_expand]
          obtain rfl := hb.ascending.eq_of_offset_eq hplace hstart hsame
          rw [hm]
          exact .start hplace

/-- A method that counts its argument down and returns what is left at the end. -/
def countdown : MethodBody where
  instructions :=
    [⟨0, .ldarg_0, .none, 1⟩, ⟨1, .stloc_0, .none, 1⟩, ⟨2, .ldloc_0, .none, 1⟩, ⟨3, .dup, .none, 1⟩,
      ⟨4, .brfalse_s, .target 11, 2⟩, ⟨6, .ldc_i4_1, .none, 1⟩, ⟨7, .sub, .none, 1⟩,
      ⟨8, .stloc_0, .none, 1⟩, ⟨9, .br_s, .target 2, 2⟩, ⟨11, .ret, .none, 1⟩]
  locals := [.int32]
  parameters := [.int32]
  returnType := .int32

/-- The state before a call of `countdown`. -/
def countdownFrom (n : BitVec 32) : Machine where
  frame := ⟨[⟨.int32, .int32 (.exact 0)⟩], [⟨.int32, .int32 (.exact n)⟩]⟩

/-- Counting down from two executes twenty instructions, and the graph explains them all. -/
theorem runWith_explained_countdown :
    countdown.Contiguous ∧
      (({} : Interpreter).runWith countdown (countdownFrom 2)).1 =
        .ok (.returned (some (.int32 (.exact 0)))) ∧
      (({} : Interpreter).recordWith countdown (countdownFrom 2)).1.length = 20 ∧
      ∃ g, DataFlowGraph.ofBody countdown = .ok g ∧
        ∀ e ∈ (({} : Interpreter).recordWith countdown (countdownFrom 2)).1,
          g.Explains countdown e := by
  have hbuilds : (DataFlowGraph.ofBody countdown).isOk = true := by decide +kernel
  cases hg : DataFlowGraph.ofBody countdown with
  | error e =>
      rw [hg] at hbuilds
      exact nomatch hbuilds
  | ok g =>
      have hcontiguous : countdown.Contiguous := by decide
      have hsound := runWith_explained {} hcontiguous (fun _ hc => absurd hc List.not_mem_nil) hg
        (m := countdownFrom 2) rfl
      exact ⟨hcontiguous, by decide +kernel, by decide +kernel, g, rfl, hsound.2.1⟩

end Interpreter

end CilAnalysis
