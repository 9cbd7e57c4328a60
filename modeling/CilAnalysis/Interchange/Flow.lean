import CilAnalysis.ControlFlow.Build
import CilAnalysis.DataFlow.Build
import CilAnalysis.Interchange.Code

/-!
# Region trees and flow graphs for interchange
-/

namespace CilAnalysis.Interchange

/-! ## Region trees -/

instance : Encode RegionChild where
  encode
    | .block offset => .record [("Block", encode offset)]
    | .region id => .record [("Region", encode id)]

instance : Decode RegionChild where
  decode
    | .record [("Block", offset)] => .block <$> decode offset
    | .record [("Region", id)] => .region <$> decode id
    | _ => malformed

instance : Encode Region where
  encode
    | .scope children entry =>
      .record [("Scope", .record [("children", encode children), ("entry", encode entry)])]
    | .guarded protectedScope handlers =>
      .record [("Guarded",
        .record [("handlers", encode handlers), ("protected", encode protectedScope)])]
    | .handler kind prologue contents epilogue =>
      .record [("Handler", .record [("contents", encode contents), ("epilogue", encode epilogue),
        ("kind", encode kind), ("prologue", encode prologue)])]

instance : Decode Region where
  decode
    | .record [("Scope", t)] => do return .scope (← t.read "children") (← t.read "entry")
    | .record [("Guarded", t)] => do return .guarded (← t.read "protected") (← t.read "handlers")
    | .record [("Handler", t)] => do
      return .handler (← t.read "kind") (← t.read "prologue") (← t.read "contents")
        (← t.read "epilogue")
    | _ => malformed

instance : Encode RegionTree where
  encode t := .record [
    ("blocks", .record (t.blocks.entries.map fun e => (toString e.1, encode e.2))),
    ("parents", encode t.parents.toList), ("regions", encode t.regions.toList)]

instance : Decode RegionTree where
  decode t := do
    let .record blocks := t.get "blocks" | malformed
    let blocks ← blocks.mapM fun e => do return (← decode (.text e.1), ← decode e.2)
    let parents : List (Option Nat) ← t.read "parents"
    let regions : List Region ← t.read "regions"
    return ⟨regions.toArray, parents.toArray, .ofList blocks⟩

/-- What a region is made of. -/
def regionShape (id : Nat) : Region → Tree
  | .scope children entry => encode (s!"region_{id}", "scope", children, entry)
  | .guarded protectedScope handlers =>
    encode (s!"region_{id}", "guarded", protectedScope, handlers)
  | r@(.handler kind prologue contents epilogue) =>
    encode (s!"region_{id}", "handler", kind, prologue, contents, epilogue, r.childRegions)

def regionRecord (t : RegionTree) (id : Nat) : Except Error Tree := do
  let r ← t.region id
  return .record [("blocks", encode (← t.blocksOf id)), ("children", encode (← t.childrenOf id)),
    ("depth", encode (← t.depth id)), ("first", encode (← t.firstBlock id)),
    ("last", encode (← t.lastBlock id)), ("nesting", encode (← t.nesting id)),
    ("parent", encode (← t.parent id)), ("shape", regionShape id r)]

def regionRecords (t : RegionTree) : Except Error (List Tree) :=
  (List.range t.size).mapM (regionRecord t)

/-! ## Control-flow graphs -/

instance : Encode EdgeKind where
  encode
    | .fallThrough => .text "FallThrough"
    | .unconditional => .text "Unconditional"
    | .conditional => .text "Conditional"
    | .abnormal => .text "Abnormal"

/-- An edge is written as its ends and what it carries. -/
instance {α : Type} [Encode α] : Encode (Arc × α) := ⟨fun e => encode (e.1.head, e.1.tail, e.2)⟩

def flowRecord {ι : Type} (listing : ι → String) (g : ControlFlowGraph ι) : Except Error Tree := do
  let nodes := g.nodes.map fun node =>
    (node.block.offset, node.region, node.block.instructions.map listing)
  return .record [("counts", encode g.edgeCounts), ("edges", encode g.graph.edges.entries),
    ("entry", encode g.entry), ("nodes", encode nodes),
    ("regions", encode (← regionRecords g.regions))]

def blockRecord (b : BasicBlock Instruction) : Tree :=
  encode (b.offset, b.instructions.length, b.instructions.isEmpty,
    b.instructions.head?.map Instruction.offset, b.instructions.getLast?.map Instruction.offset,
    b.text Instruction.text)

/-! ## Data-flow graphs -/

/-- Sources are written without the graph they are of. -/
instance : Encode Sources := ⟨fun s => encode (s.keys.map fun source => (source.node, source.slot))⟩

/-- Sources of a graph from their offsets and slots. -/
def sourcesOf (graph : Nat) (pairs : List (Nat × Nat)) : Sources :=
  .ofKeys (pairs.map fun p => ⟨graph, p.1, p.2⟩)

instance : Encode StackDependency := ⟨fun d => encode (d.sources, d.owner)⟩

instance : Encode StackDependencies where
  encode c := encode (c.items, c.items.length, c.items.isEmpty, c.edgeCount)

instance : Encode DataFlowNode where
  encode n := encode (n.offset, n.stack.items.map StackDependency.sources,
    n.byVariable.entries.map fun e => (e.1.text, e.2))

instance : Decode DependencyKinds where
  decode
    | .text "stack" => .ok ⟨true, false⟩
    | .text "vars" => .ok ⟨false, true⟩
    | .text "all" => .ok ⟨true, true⟩
    | .text "none" => .ok ⟨false, false⟩
    | _ => malformed

end CilAnalysis.Interchange
