import CilAnalysis.DataFlow.Dependency
import CilAnalysis.Digraph.Traversal
import CilAnalysis.Instruction

/-!
# Data-flow graphs

A data-flow graph has a node for each instruction that control can reach.  The node says which
instructions may have produced each value that it takes from the stack, and which may have written
each variable that it reads.  Following these dependencies from a node gives the part of the method
that decides what the instruction works on.
-/

namespace CilAnalysis

/-- The dependencies to be followed. -/
structure DependencyKinds where
  viaStack : Bool
  viaVariables : Bool
  deriving DecidableEq, Repr

/-- The dependencies of one instruction. -/
structure DataFlowNode where
  offset : Nat
  stack : StackDependencies
  byVariable : SortedMap Variable Sources
  deriving DecidableEq

namespace DataFlowNode

/-- The offsets of the nodes a node directly depends on: those of the stack slots, the deepest
first, and then those of the variables. -/
def dependencies (n : DataFlowNode) (kinds : DependencyKinds) : List Nat :=
  let nodesOf := fun (sources : Sources) => sources.keys.map DataSource.node
  (if kinds.viaStack then n.stack.items.flatMap fun d => nodesOf d.sources else []) ++
    (if kinds.viaVariables then n.byVariable.values.flatMap nodesOf else [])

/-- The number of sources of all variables together. -/
def variableEdgeCount (n : DataFlowNode) : Nat :=
  n.byVariable.values.foldr (fun sources total => sources.size + total) 0

end DataFlowNode

/-- The dependencies of the instructions of a method. -/
structure DataFlowGraph where
  /-- The number that tells this graph from others. -/
  id : Nat
  nodes : SortedMap Nat DataFlowNode
  deriving DecidableEq

namespace DataFlowGraph

def node (g : DataFlowGraph) (offset : Nat) : Except Error DataFlowNode :=
  match g.nodes.get? offset with
  | some n => .ok n
  | none => .error (.instructionNotFound offset)

def setStack (g : DataFlowGraph) (offset : Nat) (stack : StackDependencies) : DataFlowGraph :=
  { g with nodes := g.nodes.modify offset fun n => { n with stack } }

/-- The number of nodes that have not been entered. -/
def unvisited (g : DataFlowGraph) (visited : List Nat) : Nat :=
  g.nodes.keys.countP fun v => !visited.contains v

/-- Entering a node leaves fewer to be entered. -/
theorem unvisited_lt {g : DataFlowGraph} {visited : List Nat} {v : Nat} {n : DataFlowNode}
    (hfresh : v ∉ visited) (hnode : g.nodes.get? v = some n) :
    g.unvisited (v :: visited) < g.unvisited visited := by
  apply Digraph.countP_lt_of_mem (SortedMap.mem_keys_of_get? hnode)
  · intro w hw
    simp only [Bool.not_eq_true', List.contains_eq_mem, decide_eq_false_iff_not,
      List.mem_cons, not_or] at hw ⊢
    exact hw.2
  · simp
  · simpa using hfresh

/-- The nodes left while a stack of nodes is worked off, in the order in which they are left. -/
def leave (g : DataFlowGraph) (kinds : DependencyKinds) (visited : List Nat) :
    List Digraph.Visit → Except Error (List Nat)
  | [] => .ok []
  | .leave v :: stack =>
    match g.leave kinds visited stack with
    | .ok order => .ok (v :: order)
    | .error e => .error e
  | .enter v :: stack =>
    if hv : v ∈ visited then g.leave kinds visited stack
    else
      match hn : g.nodes.get? v with
      | none => .error (.instructionNotFound v)
      | some n =>
        have := unvisited_lt hv hn
        let fresh := (n.dependencies kinds).filter fun w => !(v :: visited).contains w
        g.leave kinds (v :: visited) (fresh.map .enter ++ .leave v :: stack)
termination_by stack => (g.unvisited visited, stack.length)

/-- All that a node depends on, directly or not, each node after those it depends on as far as
there is no cycle; the node itself comes last. -/
def orderedDependencies (g : DataFlowGraph) (offset : Nat) (kinds : DependencyKinds) :
    Except Error (List Nat) := do
  let _ ← g.node offset
  g.leave kinds [] [.enter offset]

end DataFlowGraph

end CilAnalysis
