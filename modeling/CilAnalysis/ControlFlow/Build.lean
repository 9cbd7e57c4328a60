import CilAnalysis.ControlFlow.Graph
import CilAnalysis.Region.Walk

/-!
# The control-flow graph of a method

A block starts at the first instruction, at every branch target, after every instruction that ends
a block, and at the bounds of the ranges of the exception clauses.  Each distinct guarded range
becomes a guarded region in the scope of the smallest range around it, and each of its clauses a
handler.
-/

namespace CilAnalysis

/-- A range of offsets that is the range of a scope. -/
structure ScopeRange where
  start : Nat
  stop : Nat
  scope : Nat
  deriving DecidableEq, Repr

namespace ScopeRange

def covers (r : ScopeRange) (start stop : Nat) : Bool := r.start ≤ start && stop ≤ r.stop

/-- Whether another range meets this one and neither lies in the other. -/
def crosses (r : ScopeRange) (start stop : Nat) : Bool :=
  r.start < stop && start < r.stop && !r.covers start stop && !(start ≤ r.start && r.stop ≤ stop)

def length (r : ScopeRange) : Nat := r.stop - r.start

/-- The range of the root, which is that of all offsets. -/
def whole : ScopeRange := ⟨0, RegionTree.greatestOffset, RegionTree.root⟩

/-- Refuse a range that crosses one of the others. -/
def checkNested (ranges : List ScopeRange) (start stop : Nat) : Except Error Unit :=
  match ranges.find? fun r => r.crosses start stop with
  | some r => .error (.overlappingRegions r.start start)
  | none => .ok ()

/-- The scope of the smallest range that covers another; of two that are equal the later one. -/
def innermost (ranges : List ScopeRange) (start stop : Nat) : Nat :=
  let narrower := fun (best r : ScopeRange) =>
    if r.covers start stop && r.length ≤ best.length then r else best
  (ranges.foldl narrower whole).scope

end ScopeRange

/-- A guarded range.  Ranges that start earlier come first, and of those that start together the
longer ones. -/
structure GuardedRange where
  start : Nat
  stop : Nat
  deriving DecidableEq, Repr

namespace GuardedRange

/-- A number that is greater for a range that stops earlier. -/
def earliness (r : GuardedRange) : Int := -r.stop

instance : Ord GuardedRange := ⟨compareLex (compareOn start) (compareOn earliness)⟩

instance : Std.TransOrd GuardedRange := inferInstanceAs (Std.TransCmp (compareLex _ _))

end GuardedRange

namespace MethodBody

def isOffset (b : MethodBody) (offset : Nat) : Bool := b.instructions.any (·.offset == offset)

/-- The offset after the last instruction. -/
def endOffset (b : MethodBody) : Nat := (b.instructions.getLast?.map Instruction.next).getD 0

/-- Refuse a branch to an offset where no instruction starts. -/
def checkBranch (b : MethodBody) (i : Instruction) : Except Error Unit :=
  match i.targets.find? fun target => !b.isOffset target with
  | some target => .error (.danglingBranchTarget i.offset target)
  | none => .ok ()

/-- Check every instruction for such branches. -/
def checkTargets (b : MethodBody) : Except Error Unit := b.instructions.forM b.checkBranch

def clauseBounds (c : Clause) : List Nat :=
  [c.tryStart, c.tryEnd, c.handlerStart, c.handlerEnd] ++ c.filterStart?.toList

/-- Refuse a clause with a bound inside an instruction, an empty range, or a filter that does not
come before its handler. -/
def checkClause (b : MethodBody) (c : Clause) : Except Error Unit :=
  match (clauseBounds c).find? fun offset => !(b.isOffset offset || offset == b.endOffset) with
  | some offset =>
    .error (.invalidExceptionClause
      (c.text ++ " does not start on an instruction boundary at " ++ Text.offsetLabel offset))
  | none =>
    if c.tryStart ≥ c.tryEnd ∨ c.handlerStart ≥ c.handlerEnd then
      .error (.invalidExceptionClause (c.text ++ " has an empty range"))
    else if c.filterStart?.any (c.handlerStart ≤ ·) then
      .error (.invalidExceptionClause (c.text ++ " has a filter after its handler"))
    else .ok ()

/-- The offsets that follow an instruction which ends its block. -/
def followers : List Instruction → List Nat
  | i :: j :: rest =>
    if i.opcode.flow.endsBlock then j.offset :: followers (j :: rest) else followers (j :: rest)
  | _ => []

/-- The offsets where blocks start. -/
def leaders (b : MethodBody) : SortedSet Nat :=
  .ofKeys <|
    (b.instructions.head?.map Instruction.offset).toList ++
      b.instructions.flatMap Instruction.targets ++ followers b.instructions ++
      (b.clauses.flatMap clauseBounds).filter (· ≠ b.endOffset)

/-- Cut instructions into blocks before those that lead one. -/
def cutBlocks (leads : Nat → Bool) : List Instruction → List (BasicBlock Instruction)
  | [] => []
  | i :: rest =>
    match cutBlocks leads rest with
    | [] => [⟨i.offset, [i]⟩]
    | next :: blocks =>
      if leads next.offset then ⟨i.offset, [i]⟩ :: next :: blocks
      else ⟨i.offset, i :: next.instructions⟩ :: blocks

/-- The blocks of a method in the order of its instructions. -/
def blocks (b : MethodBody) : List (BasicBlock Instruction) :=
  cutBlocks b.leaders.contains b.instructions

/-- The clauses of each guarded range. -/
def clauseGroups (b : MethodBody) : SortedMap GuardedRange (List Clause) :=
  b.clauses.foldl
    (fun groups c =>
      let range := ⟨c.tryStart, c.tryEnd⟩
      groups.insert range ((groups.get? range).getD [] ++ [c]))
    .empty

/-- Add a handler for a clause.  Its ranges are checked against those of the groups before, and
given back. -/
def addClause (ranges : List ScopeRange) (guarded : Nat) (t : RegionTree) (c : Clause) :
    Except Error (List ScopeRange × RegionTree) := do
  let (scopes, t) ← t.addHandler guarded c.kind
  let filter ←
    match scopes.prologue, c.filterStart? with
    | some prologue, some start => do
      ScopeRange.checkNested ranges start c.handlerStart
      pure [⟨start, c.handlerStart, prologue⟩]
    | _, _ => pure []
  ScopeRange.checkNested ranges c.handlerStart c.handlerEnd
  return (filter ++ [⟨c.handlerStart, c.handlerEnd, scopes.contents⟩], t)

def addGroup (state : List ScopeRange × RegionTree) (group : GuardedRange × List Clause) :
    Except Error (List ScopeRange × RegionTree) := do
  let (ranges, t) := state
  let (range, clauses) := group
  ScopeRange.checkNested ranges range.start range.stop
  let ((guarded, protectedScope), t) ←
    t.addGuarded (ScopeRange.innermost ranges range.start range.stop)
  let (added, t) ← clauses.foldlM
    (fun (added, t) c => do
      let (more, t) ← addClause ranges guarded t c
      return (added ++ more, t))
    ([⟨range.start, range.stop, protectedScope⟩], t)
  return (ranges ++ added, t)

/-- The regions of the exception clauses, still without blocks, and the ranges of their scopes. -/
def clauseRegions (b : MethodBody) : Except Error (List ScopeRange × RegionTree) :=
  b.clauseGroups.entries.foldlM addGroup ([], .empty)

/-- The regions of a method. -/
def regions (b : MethodBody) : Except Error RegionTree := do
  let (ranges, t) ← b.clauseRegions
  let t ← b.blocks.foldlM
    (fun t block =>
      t.addBlock (ScopeRange.innermost ranges block.offset (block.offset + 1)) block.offset)
    t
  return t.sortChildren

end MethodBody

namespace ControlFlowGraph

def addEdge (g : Digraph (FlowNode Instruction) EdgeKind) (head tail : Nat) (kind : EdgeKind) :
    Except Error (Digraph (FlowNode Instruction) EdgeKind) :=
  if g.hasEdge head tail then .ok g else g.insertEdge head tail kind

/-- The edges by which control leaves a block at its end, `next` being the block after it. -/
def exits (block : BasicBlock Instruction) (next : Option Nat) : List (Nat × EdgeKind) :=
  match block.instructions.getLast? with
  | none => []
  | some last =>
    let branches :=
      match last.opcode.flow with
      | .conditionalBranch => last.targets.map (·, EdgeKind.conditional)
      | .branch => last.targets.map (·, EdgeKind.unconditional)
      | _ => []
    if last.opcode.flow.fallsThrough then branches ++ (next.map (·, EdgeKind.fallThrough)).toList
    else branches

/-- The edges of control that goes from block to block. -/
def flowEdges : List (BasicBlock Instruction) → List (Arc × EdgeKind)
  | [] => []
  | block :: rest =>
    (exits block (rest.head?.map BasicBlock.offset)).map (fun e => (⟨block.offset, e.1⟩, e.2)) ++
      flowEdges rest

/-- The edges from the blocks of a guarded range to where its handler is entered. -/
def exceptionEdges (blocks : List (BasicBlock Instruction)) (c : Clause) :
    List (Arc × EdgeKind) :=
  (blocks.filter fun block => c.guards block.offset).map fun block =>
    (⟨block.offset, c.entry⟩, .abnormal)

/-- The node of a block, which has to be placed in a region. -/
def placeBlock (regions : RegionTree) (block : BasicBlock Instruction) :
    Except Error (FlowNode Instruction) :=
  match regions.regionOf? block.offset with
  | some region => .ok ⟨block, region⟩
  | none => .error (.vertexNotFound block.offset)

/-- The control-flow graph of a method.  Of several edges between two blocks the first is kept:
branches come before falling through, and exceptions come last. -/
def ofBody (b : MethodBody) : Except Error (ControlFlowGraph Instruction) := do
  let some first := b.instructions.head? | throw .emptyMethodBody
  b.checkTargets
  b.clauses.forM b.checkClause
  let regions ← b.regions
  let blocks := b.blocks
  let graph ← Digraph.empty.insertVertices BasicBlock.offset (placeBlock regions) blocks
  let edges := flowEdges blocks ++ b.clauses.flatMap (exceptionEdges blocks)
  let graph ← edges.foldlM (fun g e => addEdge g e.1.head e.1.tail e.2) graph
  return ⟨graph, regions, first.offset⟩

end ControlFlowGraph

end CilAnalysis
