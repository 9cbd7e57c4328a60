import CilAnalysis.Error
import CilAnalysis.SortedMap

/-!
# Dependencies

What an instruction takes from the stack or from a variable was put there by other instructions.  A
stack dependency is the set of those that may have produced the value in one stack slot.  It belongs
to at most one node of a graph at a time, and only to a node of the graph its sources are from.
-/

namespace CilAnalysis

/-- A value that a node of a data-flow graph produces: the graph, the offset of the node, and the
number of the value among those the node pushes. -/
structure DataSource where
  graph : Nat
  node : Nat
  slot : Nat
  deriving DecidableEq, Repr

namespace DataSource

instance : Ord DataSource :=
  ⟨compareLex (compareOn graph) (compareLex (compareOn node) (compareOn slot))⟩

instance : Std.TransOrd DataSource := inferInstanceAs (Std.TransCmp (compareLex _ _))

def text (s : DataSource) : String := Text.offsetLabel s.node ++ "#" ++ toString s.slot

end DataSource

abbrev Sources := SortedSet DataSource

/-- The sources of one stack slot, and the node that takes its value.  There are no sources where
the value comes from outside the method. -/
structure StackDependency where
  sources : Sources := .empty
  owner : Option Nat := none
  deriving DecidableEq

/-- The stack dependencies of one node, the deepest slot first. -/
structure StackDependencies where
  graph : Nat
  owner : Nat
  items : List StackDependency
  deriving DecidableEq

namespace StackDependencies

/-- The dependencies of a node that takes nothing. -/
def empty (graph owner : Nat) : StackDependencies := ⟨graph, owner, []⟩

/-- Make a dependency one of this node's, if it is nobody's and its sources are of this graph. -/
def adopt (c : StackDependencies) (d : StackDependency) : Except Error StackDependency :=
  if d.owner.isSome then .error .dependencyAlreadyOwned
  else if d.sources.keys.any (·.graph ≠ c.graph) then .error .foreignDataSource
  else .ok { d with owner := some c.owner }

/-- The number of sources of all slots together. -/
def edgeCount (c : StackDependencies) : Nat :=
  c.items.foldr (fun d total => d.sources.size + total) 0

/-!
## Changes in place

A dependency is made the node's own before it gets its place, and it is nobody's again when it has
lost its place.
-/

namespace InPlace

def item (index : Nat) : Edit StackDependencies StackDependency :=
  Edit.ask fun c =>
    match c.items[index]? with
    | some d => .ok d
    | none => .error (.dependencyIndexOutOfRange index)

/-- Add a dependency for a slot on top of the others. -/
def push (d : StackDependency) : Edit StackDependencies Unit := do
  let d ← Edit.ask (·.adopt d)
  modify fun c => { c with items := c.items ++ [d] }

/-- Add a dependency before the one in a position. -/
def insert (index : Nat) (d : StackDependency) : Edit StackDependencies Unit := do
  if (← get).items.length < index then throw (.dependencyIndexOutOfRange index)
  let d ← Edit.ask (·.adopt d)
  modify fun c => { c with items := c.items.insertIdx index d }

/-- Take a dependency out; nobody owns it then. -/
def remove (index : Nat) : Edit StackDependencies StackDependency := do
  let d ← item index
  modify fun c => { c with items := c.items.eraseIdx index }
  return { d with owner := none }

/-- Put a dependency in the place of another, which nobody owns then. -/
def set (index : Nat) (d : StackDependency) : Edit StackDependencies StackDependency := do
  let d ← Edit.ask (·.adopt d)
  let old ← item index
  modify fun c => { c with items := c.items.set index d }
  return { old with owner := none }

/-- Drop the topmost slots, or add slots without sources, so that there are as many as asked for. -/
def resize (count : Nat) : Edit StackDependencies Unit := do
  modify fun c => { c with items := c.items.take count }
  modify fun c =>
    let unsourced := { owner := some c.owner }
    { c with items := c.items ++ List.replicate (count - c.items.length) unsourced }

end InPlace

end StackDependencies

end CilAnalysis
