import CilAnalysis.Proofs.DataFlow.Facts

/-!
# Paths through a method

Along a path that control may take, every value on the stack was pushed by one instruction, or was
there when a handler was entered, and every variable was last written by one instruction or by none.
`Provenance` records this, and `MethodBody.Reaches` is inductively generated by the edges of the
method: to the next instruction, to the targets of a branch, and from a guarded instruction to the
entries of its handlers.

A path starts at the first instruction with an empty stack, or where a handler is entered with what
its clause puts on the stack.  An exception may come before an instruction has had its effect or
after it, so there are two edges to a handler.

Paths are the specification against which the collected states are measured.  They are stated in
terms of facts (`Provenance.Has`), like the states:

* an instruction does to the facts of a path what it does to those of a state
  (`Provenance.after_has`);
* a handler keeps the facts about variables and no others (`Provenance.raised_has`);
* all facts of a path go back to instructions of the method (`MethodBody.Reaches.produces`), of
  which there are finitely many.

The clauses that are followed are a parameter of `MethodBody.Reaches`.  With those of the method it
describes all paths, and with none the paths on which no exception is raised.
-/

namespace CilAnalysis

/-- Whether control can enter the handler of a clause at an offset: where the handler starts, or
where its filter does. -/
def Clause.EntersAt (c : Clause) (offset : Nat) : Prop :=
  offset = c.handlerStart ∨ c.filterStart? = some offset

instance (c : Clause) (offset : Nat) : Decidable (c.EntersAt offset) :=
  inferInstanceAs (Decidable (_ ∨ _))

theorem Clause.mem_entries {c : Clause} {offset : Nat} :
    offset ∈ c.entries ↔ c.EntersAt offset := by
  unfold entries entry EntersAt
  cases hfilter : c.filterStart? with
  | none => simp
  | some start =>
      by_cases hsame : start = c.handlerStart
      · simp [hsame, eq_comm]
      · simp [hsame, eq_comm, or_comm]

/-- Where the values on the stack, the top first, and in the variables come from: a value on the
stack from an instruction, given by its offset, and from a place among the values that it pushed, or
from outside; the value of a variable from an instruction that wrote it, or from outside. -/
structure Provenance where
  stack : List (Option (Nat × Nat))
  writer : Variable → Option Nat

namespace Provenance

/-- A stack of some height that no instruction has touched. -/
def ofHeight (height : Nat) : Provenance := ⟨List.replicate height none, fun _ => none⟩

/-- What an instruction that takes `pops` values leaves. -/
def after (σ : Provenance) (i : Instruction) (pops : Nat) : Provenance where
  stack :=
    ((List.range i.pushCount).reverse.map fun slot => some (i.offset, slot)) ++
      if i.clearsStack then [] else σ.stack.drop pops
  writer v := if v ∈ i.variablesWritten then some i.offset else σ.writer v

/-- What the handler of a clause finds: the variables, and on the stack at most the exception. -/
def raised (σ : Provenance) (c : Clause) : Provenance :=
  { σ with stack := List.replicate c.kind.receivesException.toNat none }

/-- Where the values that an instruction takes come from, the deepest first. -/
def taken (σ : Provenance) (pops : Nat) : List (Option (Nat × Nat)) := (σ.stack.take pops).reverse

/-- The facts that hold along a path. -/
def Has (σ : Provenance) (graph : Nat) : FlowFact → Prop
  | .slot depth source =>
    σ.stack[depth]? = some (some (source.node, source.slot)) ∧ source.graph = graph
  | .writer v source => σ.writer v = some source.node ∧ source.slot = 0 ∧ source.graph = graph
  | .written v => (σ.writer v).isSome

variable {σ : Provenance} {graph : Nat} {f : FlowFact}

theorem not_has_ofHeight (height : Nat) : ¬ (ofHeight height).Has graph f := by
  cases f with
  | slot depth source =>
      rintro ⟨hget, -⟩
      exact nomatch List.eq_of_mem_replicate (List.mem_of_getElem? hget)
  | writer v source => exact fun h => nomatch h.1
  | written v => exact fun h => nomatch h

theorem getElem?_taken {pops k : Nat} (hpops : pops ≤ σ.stack.length) (hk : k < pops) :
    (σ.taken pops)[k]? = σ.stack[pops - 1 - k]? := by
  have hlength : (σ.stack.take pops).length = pops := by rw [List.length_take]; omega
  calc (σ.taken pops)[k]?
      = (σ.stack.take pops)[(σ.stack.take pops).length - 1 - k]? :=
        List.getElem?_reverse (by omega)
    _ = (σ.stack.take pops)[pops - 1 - k]? := by rw [hlength]
    _ = σ.stack[pops - 1 - k]? := List.getElem?_take_of_lt (by omega)

theorem raised_has {c : Clause} : (σ.raised c).Has graph f ↔ f.isOfVariable ∧ σ.Has graph f := by
  cases f with
  | slot depth source =>
      refine iff_of_false ?_ (fun h => nomatch h.1)
      rintro ⟨hget, -⟩
      exact nomatch List.eq_of_mem_replicate (List.mem_of_getElem? hget)
  | writer v source => simp [Has, raised, FlowFact.isOfVariable]
  | written v => simp [Has, raised, FlowFact.isOfVariable]

/-- Along a path an instruction does to the facts what it does to those of a state. -/
theorem after_has {i : Instruction} {pops : Nat} :
    (σ.after i pops).Has graph f ↔ i.carry graph pops (σ.Has graph) f := by
  cases f with
  | slot depth source =>
      obtain ⟨g, n, k⟩ := source
      simp only [Has, Instruction.carry, after]
      by_cases hpushed : depth < i.pushCount
      · rw [List.getElem?_append_left (by simpa using hpushed), List.getElem?_map,
          List.getElem?_reverse (by simpa using hpushed), List.length_range,
          List.getElem?_range (by omega), if_pos hpushed]
        simp only [Option.map_some, Option.some_inj, Prod.mk.injEq, DataSource.mk.injEq]
        tauto
      · rw [List.getElem?_append_right (by simpa using hpushed), if_neg hpushed]
        cases i.clearsStack with
        | true => simp
        | false => simp
  | writer v source =>
      obtain ⟨g, n, k⟩ := source
      simp only [Has, Instruction.carry, after]
      by_cases hv : v ∈ i.variablesWritten
      · simp only [hv, if_true, Option.some_inj, DataSource.mk.injEq]
        tauto
      · simp only [hv, if_false]
  | written v =>
      simp only [Has, Instruction.carry, after]
      by_cases hv : v ∈ i.variablesWritten <;> simp [hv]

theorem length_after_stack (i : Instruction) (pops : Nat) :
    (σ.after i pops).stack.length =
      i.pushCount + if i.clearsStack then 0 else σ.stack.length - pops := by
  unfold after
  by_cases hclears : i.clearsStack <;> simp [hclears]

end Provenance

namespace MethodBody

/-- Along some path control reaches the instruction in a place, where values have the given
provenance.  Of the clauses of the method only the given ones are followed. -/
inductive Reaches (b : MethodBody) (clauses : List Clause) : Nat → Provenance → Prop
  | start {i : Instruction} (hplace : b.instructions[0]? = some i) :
      Reaches b clauses 0 (.ofHeight 0)
  | enter {c : Clause} {place : Nat} {i : Instruction} (hclause : c ∈ clauses)
      (hplace : b.instructions[place]? = some i) (henters : c.EntersAt i.offset) :
      Reaches b clauses place (.ofHeight c.kind.receivesException.toNat)
  | next {place : Nat} {i j : Instruction} {σ : Provenance} (hbefore : Reaches b clauses place σ)
      (hplace : b.instructions[place]? = some i) (hfalls : i.opcode.flow.fallsThrough)
      (htarget : b.instructions[place + 1]? = some j) :
      Reaches b clauses (place + 1) (σ.after i (i.popCount b.returnsValue))
  | branch {place target : Nat} {i j : Instruction} {σ : Provenance}
      (hbefore : Reaches b clauses place σ) (hplace : b.instructions[place]? = some i)
      (htarget : b.instructions[target]? = some j) (hbranch : j.offset ∈ i.targets) :
      Reaches b clauses target (σ.after i (i.popCount b.returnsValue))
  | raiseBefore {place target : Nat} {i j : Instruction} {σ : Provenance} {c : Clause}
      (hbefore : Reaches b clauses place σ) (hplace : b.instructions[place]? = some i)
      (hclause : c ∈ clauses) (hguards : c.guards i.offset)
      (htarget : b.instructions[target]? = some j) (henters : c.EntersAt j.offset) :
      Reaches b clauses target (σ.raised c)
  | raiseAfter {place target : Nat} {i j : Instruction} {σ : Provenance} {c : Clause}
      (hbefore : Reaches b clauses place σ) (hplace : b.instructions[place]? = some i)
      (hclause : c ∈ clauses) (hguards : c.guards i.offset)
      (htarget : b.instructions[target]? = some j) (henters : c.EntersAt j.offset) :
      Reaches b clauses target ((σ.after i (i.popCount b.returnsValue)).raised c)

variable {b : MethodBody} {clauses : List Clause}

theorem Reaches.exists_instruction {place : Nat} {σ : Provenance} (h : b.Reaches clauses place σ) :
    ∃ i, b.instructions[place]? = some i := by
  cases h with
  | start hplace => exact ⟨_, hplace⟩
  | enter _ hplace _ => exact ⟨_, hplace⟩
  | next _ _ _ htarget => exact ⟨_, htarget⟩
  | branch _ _ htarget _ => exact ⟨_, htarget⟩
  | raiseBefore _ _ _ _ htarget _ => exact ⟨_, htarget⟩
  | raiseAfter _ _ _ _ htarget _ => exact ⟨_, htarget⟩

/-- A fact whose sources are instructions of a method. -/
def Produces (b : MethodBody) (graph : Nat) : FlowFact → Prop
  | .slot _ source =>
    ∃ i ∈ b.instructions, ∃ slot < i.pushCount, source = ⟨graph, i.offset, slot⟩
  | .writer v source =>
    ∃ i ∈ b.instructions, v ∈ i.variablesWritten ∧ source = ⟨graph, i.offset, 0⟩
  | .written v => ∃ i ∈ b.instructions, v ∈ i.variablesWritten

private theorem Produces.of_carry {graph pops : Nat} {i : Instruction} (hi : i ∈ b.instructions)
    {P : FlowFact → Prop} (hP : ∀ f, P f → b.Produces graph f) {f : FlowFact}
    (h : i.carry graph pops P f) : b.Produces graph f := by
  cases f with
  | slot depth source =>
      simp only [Instruction.carry] at h
      split at h
      next hpushed => exact ⟨i, hi, i.pushCount - 1 - depth, by omega, h⟩
      next =>
        have hbefore := hP _ h.2
        exact hbefore
  | writer v source =>
      simp only [Instruction.carry] at h
      split at h
      next hwritten => exact ⟨i, hi, hwritten, h⟩
      next => exact hP _ h
  | written v =>
      rcases h with hwritten | h
      · exact ⟨i, hi, hwritten⟩
      · exact hP _ h

/-- Whatever holds along a path goes back to instructions of the method. -/
theorem Reaches.produces {graph place : Nat} {σ : Provenance} (h : b.Reaches clauses place σ)
    {f : FlowFact} (hf : σ.Has graph f) : b.Produces graph f := by
  induction h generalizing f with
  | start _ => exact absurd hf (Provenance.not_has_ofHeight _)
  | enter _ _ _ => exact absurd hf (Provenance.not_has_ofHeight _)
  | next _ hplace _ _ ih =>
      exact .of_carry (List.mem_of_getElem? hplace) (fun _ => ih) (Provenance.after_has.mp hf)
  | branch _ hplace _ _ ih =>
      exact .of_carry (List.mem_of_getElem? hplace) (fun _ => ih) (Provenance.after_has.mp hf)
  | raiseBefore _ _ _ _ _ _ ih => exact ih (Provenance.raised_has.mp hf).2
  | raiseAfter _ hplace _ _ _ _ ih =>
      have hafter := (Provenance.raised_has.mp hf).2
      exact .of_carry (List.mem_of_getElem? hplace) (fun _ => ih) (Provenance.after_has.mp hafter)

end MethodBody

end CilAnalysis
