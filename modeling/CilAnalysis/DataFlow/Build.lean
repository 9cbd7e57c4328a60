import CilAnalysis.DataFlow.Graph
import CilAnalysis.Method.Body

/-!
# The data-flow graph of a method

The sources of every stack slot and variable before an instruction are collected from all the ways
to it.  Instructions whose sources have grown wait in a queue, the first of the method first, and a
visit passes the sources on to the instructions that may come next.  A handler starts with the
exception alone on the stack, or with nothing, and with the variables of every instruction that its
clause guards.

Sources only grow and there are finitely many, so that the queue runs empty within a number of
visits that the size of the method bounds.
-/

namespace CilAnalysis

/-- The sources of the stack slots, the top first, and of the variables. -/
structure FlowState where
  stack : List Sources
  byVariable : SortedMap Variable Sources
  deriving DecidableEq

namespace FlowState

/-- The state in which the stack has a height and nothing has a source. -/
def ofHeight (height : Nat) : FlowState := ⟨List.replicate height .empty, .empty⟩

/-- Add the sources of variables to those already known. -/
def mergeVariables (known : SortedMap Variable Sources) (more : SortedMap Variable Sources) :
    SortedMap Variable Sources :=
  more.entries.foldl
    (fun m e => m.insert e.1 (SortedSet.union ((m.get? e.1).getD .empty) e.2))
    known

/-- Add the sources of another state, which must have the same height. -/
def merge (s t : FlowState) (offset : Nat) : Except Error FlowState :=
  if s.stack.length = t.stack.length then
    .ok ⟨s.stack.zipWith SortedSet.union t.stack, mergeVariables s.byVariable t.byVariable⟩
  else
    .error (.stackImbalance offset s.stack.length t.stack.length)

end FlowState

namespace Instruction

/-- The values an instruction pushes, the topmost first. -/
def pushedSources (i : Instruction) (graph : Nat) : List Sources :=
  (List.range i.pushCount).reverse.map fun slot => .singleton ⟨graph, i.offset, slot⟩

/-- The state after an instruction, which takes `pops` values from the stack. -/
def flow (i : Instruction) (graph pops : Nat) (s : FlowState) : FlowState where
  stack := i.pushedSources graph ++ if i.clearsStack then [] else s.stack.drop pops
  byVariable :=
    i.variablesWritten.foldl (fun m v => m.insert v (.singleton ⟨graph, i.offset, 0⟩)) s.byVariable

/-- The dependencies of an instruction in a state. -/
def flowNode (i : Instruction) (graph pops : Nat) (s : FlowState) : DataFlowNode where
  offset := i.offset
  stack :=
    ⟨graph, i.offset, (s.stack.take pops).reverse.map fun sources => ⟨sources, some i.offset⟩⟩
  byVariable := .ofList (i.variablesRead.map fun v => (v, (s.byVariable.get? v).getD .empty))

end Instruction

/-- A method with the places of its instructions. -/
structure FlowProblem where
  graph : Nat
  code : Array Instruction
  clauses : List Clause
  returnsValue : Bool
  /-- The place of the instruction at each offset. -/
  places : SortedMap Nat Nat

/-- How far the collection of sources has come. -/
structure FlowProgress where
  /-- The states before instructions, by the places of these. -/
  states : SortedMap Nat FlowState
  /-- The places of the instructions still to be visited. -/
  queue : SortedSet Nat
  nodes : SortedMap Nat DataFlowNode
  deriving DecidableEq

namespace FlowProblem

/-- The problem of a method. -/
def ofBody (graph : Nat) (b : MethodBody) : FlowProblem where
  graph := graph
  code := b.instructions.toArray
  clauses := b.clauses
  returnsValue := b.returnsValue
  places := .ofList (b.instructions.zipIdx.map fun p => (p.1.offset, p.2))

/-- The place of the instruction that a branch leads to. -/
def placeOf (p : FlowProblem) (source target : Nat) : Except Error Nat :=
  match p.places.get? target with
  | some place => .ok place
  | none => .error (.danglingBranchTarget source target)

/-- The places where the handler of a clause is entered. -/
def entryPlaces (p : FlowProblem) (c : Clause) : Except Error (List Nat) :=
  c.entries.mapM (p.placeOf c.tryStart)

/-- Let control enter at a place with a stack of some height. -/
def enterAt (progress : FlowProgress) (place height : Nat) : FlowProgress :=
  { progress with
    states := progress.states.insert place (.ofHeight height)
    queue := progress.queue.add place }

/-- The state before any visit: control enters at the first instruction and at the handlers. -/
def start (p : FlowProblem) : Except Error FlowProgress :=
  p.clauses.foldlM
    (fun progress c => do
      let places ← p.entryPlaces c
      return places.foldl (fun q place => enterAt q place c.kind.receivesException.toNat) progress)
    (enterAt ⟨.empty, .empty, .empty⟩ 0 0)

/-- Replace the state before an instruction, to be visited if that changes it. -/
def grow (progress : FlowProgress) (place : Nat) (old new : FlowState) : FlowProgress :=
  if new = old then progress
  else
    { progress with states := progress.states.insert place new, queue := progress.queue.add place }

/-- Add a state to that before an instruction. -/
def propagate (p : FlowProblem) (s : FlowState) (progress : FlowProgress) (place : Nat) :
    Except Error FlowProgress :=
  match progress.states.get? place, p.code[place]? with
  | some old, some i => do return grow progress place old (← old.merge s i.offset)
  | _, _ =>
    .ok { progress with
      states := progress.states.insert place s, queue := progress.queue.add place }

/-- Add the variables before and after a guarded instruction to those of a handler. -/
def propagateVariables (before after : FlowState) (progress : FlowProgress) (place : Nat) :
    FlowProgress :=
  match progress.states.get? place with
  | some old =>
    let merged := FlowState.mergeVariables old.byVariable before.byVariable
    grow progress place old
      { old with byVariable := FlowState.mergeVariables merged after.byVariable }
  | none => progress

/-- The places of the instructions that may come next. -/
def successors (p : FlowProblem) (place : Nat) (i : Instruction) : Except Error (List Nat) := do
  let following := if i.opcode.flow.fallsThrough && place + 1 < p.code.size then [place + 1] else []
  return following ++ (← i.targets.mapM (p.placeOf i.offset))

/-- Visit the instruction in a place. -/
def visit (p : FlowProblem) (progress : FlowProgress) (place : Nat) :
    Except Error FlowProgress := do
  let some i := p.code[place]? | return progress
  let some before := progress.states.get? place | return progress
  let pops := i.popCount p.returnsValue
  if before.stack.length < pops then throw (.stackUnderflow i.offset)
  let after := i.flow p.graph pops before
  let nodes := progress.nodes.insert i.offset (i.flowNode p.graph pops before)
  let progress ← (p.clauses.filter (·.guards i.offset)).foldlM
    (fun progress c => do
      return (← p.entryPlaces c).foldl (propagateVariables before after) progress)
    { progress with nodes }
  (← p.successors place i).foldlM (p.propagate after) progress

/-- Visit instructions from the queue, at most as many as asked for. -/
def visitAll (p : FlowProblem) : Nat → FlowProgress → Except Error FlowProgress
  | 0, progress => .ok progress
  | visits + 1, progress =>
    match progress.queue.first? with
    | none => .ok progress
    | some (place, _) =>
      match p.visit { progress with queue := progress.queue.erase place } place with
      | .ok next => p.visitAll visits next
      | .error e => .error e

/-- A number of visits after which the queue is empty.  A visit is due when control enters at an
instruction, when it first reaches one, and when one of the sources of one of the slots or variables
there is new; an instruction pushes at most two values and writes at most one variable. -/
def visitBound (p : FlowProblem) : Nat :=
  let n := p.code.size
  1 + 2 * p.clauses.length + n + n * (3 * n + 1) * (3 * n)

end FlowProblem

namespace DataFlowGraph

/-- The data-flow graph of a method, to be told from others by a number. -/
def ofBody (b : MethodBody) (id : Nat := 0) : Except Error DataFlowGraph := do
  if b.instructions.isEmpty then throw .emptyMethodBody
  let p := FlowProblem.ofBody id b
  let progress ← p.visitAll p.visitBound (← p.start)
  return ⟨id, progress.nodes⟩

end DataFlowGraph

end CilAnalysis
