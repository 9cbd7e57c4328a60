import CilAnalysis.Digraph.Traversal
import CilAnalysis.Region.Tree

/-!
# Control-flow graphs

The vertices of a control-flow graph are basic blocks, numbered by the offset of their first
instruction, and each is placed in a scope of the region tree.  The instructions may be of any type,
so that a graph can be carried over to another presentation of its code.
-/

namespace CilAnalysis

/-- Why control may go from one block to another. -/
inductive EdgeKind where
  | fallThrough
  | unconditional
  | conditional
  /-- An exception. -/
  | abnormal
  deriving DecidableEq, Repr

namespace EdgeKind

def text : EdgeKind → String
  | fallThrough => "fallthrough"
  | unconditional => "unconditional"
  | conditional => "conditional"
  | abnormal => "abnormal"

def style : EdgeKind → Digraph.EdgeStyle
  | conditional => { label := "cond" }
  | abnormal => { label := "", line := "dashed", color := "#aa0000" }
  | fallThrough | unconditional => { label := "" }

def edgeText (kind : EdgeKind) (arc : Arc) : String :=
  "(0x" ++ Text.upperHex arc.head ++ "->0x" ++ Text.upperHex arc.tail ++ ") " ++ kind.text

end EdgeKind

/-- Instructions that are executed one after the other. -/
structure BasicBlock (ι : Type) where
  offset : Nat
  instructions : List ι
  deriving DecidableEq

def BasicBlock.text {ι : Type} (listing : ι → String) (b : BasicBlock ι) : String :=
  "[ Block: 0x" ++ Text.upperHex b.offset ++ " ]\n" ++
    String.join (b.instructions.map fun i => listing i ++ "\n")

/-- A block and the scope it is placed in. -/
structure FlowNode (ι : Type) where
  block : BasicBlock ι
  region : Nat
  deriving DecidableEq

/-- Change the contents of the block of a node, unless they cannot be changed. -/
def FlowNode.mapM {ι κ : Type} (f : List ι → Except Error (List κ)) (node : FlowNode ι) :
    Except Error (FlowNode κ) := do
  return ⟨⟨node.block.offset, ← f node.block.instructions⟩, node.region⟩

/-- The blocks of a method, the ways between them, and the regions they are placed in. -/
structure ControlFlowGraph (ι : Type) where
  graph : Digraph (FlowNode ι) EdgeKind
  regions : RegionTree
  entry : Nat
  deriving DecidableEq

namespace ControlFlowGraph

variable {ι κ : Type}

def nodes (g : ControlFlowGraph ι) : List (FlowNode ι) := g.graph.vertices.values

def block (g : ControlFlowGraph ι) (offset : Nat) : Except Error (BasicBlock ι) := do
  return (← g.graph.vertex offset).block

def edgeCount (g : ControlFlowGraph ι) (kind : EdgeKind) : Nat := g.graph.edges.values.count kind

def edgeCounts (g : ControlFlowGraph ι) : List Nat :=
  [.fallThrough, .unconditional, .conditional, .abnormal].map g.edgeCount

/-- The node of the first block that has an instruction of some kind. -/
def nodeContaining? (g : ControlFlowGraph ι) (p : ι → Bool) : Option (FlowNode ι) :=
  g.nodes.find? fun node => node.block.instructions.any p

/-- Change the contents of every block, in the order of their offsets, unless one cannot be changed.
The graph is made anew from the changed nodes and its edges. -/
def transform (g : ControlFlowGraph ι) (f : List ι → Except Error (List κ)) :
    Except Error (ControlFlowGraph κ) := do
  let graph ← Digraph.empty.insertVertices (·.block.offset) (FlowNode.mapM f) g.nodes
  let graph ← graph.insertEdges g.graph.edges.entries
  return ⟨graph, g.regions, g.entry⟩

/-- Whether two graphs are the same, when instructions are compared in a given way. -/
def same (eq : ι → ι → Bool) (g h : ControlFlowGraph ι) : Bool :=
  let sameNode := fun (m n : FlowNode ι) =>
    m.region == n.region && m.block.offset == n.block.offset &&
      m.block.instructions.length == n.block.instructions.length &&
      (m.block.instructions.zip n.block.instructions).all fun p => eq p.1 p.2
  g.entry == h.entry && g.regions == h.regions && g.graph.edges == h.graph.edges &&
    g.graph.vertices.keys == h.graph.vertices.keys &&
    (g.nodes.zip h.nodes).all fun p => sameNode p.1 p.2

def dot (g : ControlFlowGraph ι) (listing : ι → String) : String :=
  g.graph.dot (fun node => node.block.text listing) EdgeKind.style

/-- A graph in listings: its blocks, and then its edges. -/
def text (g : ControlFlowGraph ι) (listing : ι → String) : String :=
  String.join (g.nodes.map fun node => node.block.text listing ++ "\n") ++
    String.join (g.graph.edges.entries.map fun e => "edge " ++ e.2.edgeText e.1 ++ "\n")

end ControlFlowGraph

end CilAnalysis
