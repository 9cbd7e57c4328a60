import CilAnalysis.Error
import CilAnalysis.SortedMap

/-!
# Directed graphs

Vertices are numbered, and between two vertices there is at most one edge in each direction.  Beside
its vertices and edges a graph keeps, for each vertex, the sets of its successors and predecessors.
All of these are visited in ascending order.

A graph is changed by making a new one, or in place (`Digraph.InPlace`).
-/

namespace CilAnalysis

/-- The place of an edge: the vertex it leaves and the vertex it enters. -/
structure Arc where
  head : Nat
  tail : Nat
  deriving DecidableEq, Repr

instance : Ord Arc := ⟨compareLex (compareOn Arc.head) (compareOn Arc.tail)⟩

instance : Std.TransOrd Arc := inferInstanceAs (Std.TransCmp (compareLex _ _))

/-- A directed graph with values of `α` at its vertices and values of `β` at its edges. -/
structure Digraph (α β : Type) where
  vertices : SortedMap Nat α
  edges : SortedMap Arc β
  successors : SortedMap Nat (SortedSet Nat)
  predecessors : SortedMap Nat (SortedSet Nat)
  deriving DecidableEq

namespace Digraph

variable {α β : Type}

def empty : Digraph α β := ⟨.empty, .empty, .empty, .empty⟩

def hasVertex (g : Digraph α β) (index : Nat) : Bool := g.vertices.contains index

def hasEdge (g : Digraph α β) (head tail : Nat) : Bool := g.edges.contains ⟨head, tail⟩

def vertex (g : Digraph α β) (index : Nat) : Except Error α :=
  match g.vertices.get? index with
  | some a => .ok a
  | none => .error (.vertexNotFound index)

def edge (g : Digraph α β) (head tail : Nat) : Except Error β :=
  match g.edges.get? ⟨head, tail⟩ with
  | some b => .ok b
  | none => .error (.edgeNotFound head tail)

def insertVertex (g : Digraph α β) (index : Nat) (a : α) : Except Error (Digraph α β) :=
  if g.hasVertex index then .error (.duplicateVertex index)
  else .ok {
    g with
    vertices := g.vertices.insert index a
    successors := g.successors.insert index .empty
    predecessors := g.predecessors.insert index .empty }

def setVertex (g : Digraph α β) (index : Nat) (a : α) : Except Error (Digraph α β) :=
  if g.hasVertex index then .ok { g with vertices := g.vertices.insert index a }
  else .error (.vertexNotFound index)

def insertEdge (g : Digraph α β) (head tail : Nat) (b : β) : Except Error (Digraph α β) :=
  if g.hasEdge head tail then .error (.duplicateEdge head tail)
  else if !g.hasVertex head then .error (.vertexNotFound head)
  else if !g.hasVertex tail then .error (.vertexNotFound tail)
  else .ok {
    g with
    edges := g.edges.insert ⟨head, tail⟩ b
    successors := g.successors.modify head (SortedSet.add · tail)
    predecessors := g.predecessors.modify tail (SortedSet.add · head) }

def eraseEdge (g : Digraph α β) (a : Arc) : Digraph α β :=
  { g with
    edges := g.edges.erase a
    successors := g.successors.modify a.head (SortedMap.erase · a.tail)
    predecessors := g.predecessors.modify a.tail (SortedMap.erase · a.head) }

/-- The edges that leave or enter a vertex. -/
def incidentArcs (g : Digraph α β) (index : Nat) : List Arc :=
  let keysOf := fun (m : SortedMap Nat (SortedSet Nat)) =>
    ((m.get? index).map SortedMap.keys).getD []
  (keysOf g.successors).map (Arc.mk index) ++
    ((keysOf g.predecessors).filter (· ≠ index)).map fun head => ⟨head, index⟩

def successorsOf (g : Digraph α β) (index : Nat) : Except Error (List Nat) :=
  match g.successors.get? index with
  | some s => .ok s.keys
  | none => .error (.vertexNotFound index)

def predecessorsOf (g : Digraph α β) (index : Nat) : Except Error (List Nat) :=
  match g.predecessors.get? index with
  | some s => .ok s.keys
  | none => .error (.vertexNotFound index)

def edgesOut (g : Digraph α β) (index : Nat) : Except Error (List (Arc × β)) := do
  (← g.successorsOf index).mapM fun tail => return (⟨index, tail⟩, ← g.edge index tail)

def edgesIn (g : Digraph α β) (index : Nat) : Except Error (List (Arc × β)) := do
  (← g.predecessorsOf index).mapM fun head => return (⟨head, index⟩, ← g.edge head index)

/-- Add vertices one by one, each with a value that may be refused. -/
def insertVertices {ι : Type} (g : Digraph α β) (index : ι → Nat) (value : ι → Except Error α)
    (l : List ι) : Except Error (Digraph α β) :=
  l.foldlM (fun g x => do g.insertVertex (index x) (← value x)) g

def insertEdges (g : Digraph α β) (edges : List (Arc × β)) : Except Error (Digraph α β) :=
  edges.foldlM (fun g e => g.insertEdge e.1.head e.1.tail e.2) g

/-!
## Changes in place

A vertex is removed before the edges that leave or enter it, and these one after the other.
-/

namespace InPlace

def insertVertex (index : Nat) (a : α) : Edit (Digraph α β) Unit := do
  if (← get).hasVertex index then throw (.duplicateVertex index)
  modify fun g => { g with successors := g.successors.insert index .empty }
  modify fun g => { g with predecessors := g.predecessors.insert index .empty }
  modify fun g => { g with vertices := g.vertices.insert index a }

def insertEdge (head tail : Nat) (b : β) : Edit (Digraph α β) Unit := do
  if (← get).hasEdge head tail then throw (.duplicateEdge head tail)
  if !(← get).hasVertex head then throw (.vertexNotFound head)
  if !(← get).hasVertex tail then throw (.vertexNotFound tail)
  modify fun g => { g with edges := g.edges.insert ⟨head, tail⟩ b }
  modify fun g => { g with successors := g.successors.modify head (SortedSet.add · tail) }
  modify fun g => { g with predecessors := g.predecessors.modify tail (SortedSet.add · head) }

def removeEdge (head tail : Nat) : Edit (Digraph α β) β := do
  let b ← Edit.ask (·.edge head tail)
  modify (·.eraseEdge ⟨head, tail⟩)
  return b

/-- Remove a vertex and its edges; its value is given back. -/
def removeVertex (index : Nat) : Edit (Digraph α β) α := do
  let a ← Edit.ask (·.vertex index)
  modify fun g => { g with vertices := g.vertices.erase index }
  ((← get).incidentArcs index).forM fun arc => do
    let _ ← removeEdge arc.head arc.tail
  modify fun g => { g with successors := g.successors.erase index }
  modify fun g => { g with predecessors := g.predecessors.erase index }
  return a

end InPlace

/-! ## The dot language -/

/-- How an edge is drawn. -/
structure EdgeStyle where
  label : String
  line : String := "solid"
  color : String := "#000000"
  deriving DecidableEq, Repr

def dotLabel (label : String) : String := label.replace "\n" "\\l"

def dotVertex (index : Nat) (label : String) : String :=
  toString index ++ " [shape=\"box\", label=\"" ++ dotLabel label ++
    "\", style=\"filled\", fillcolor=\"#ffddcc\"];"

def dotEdge (arc : Arc) (style : EdgeStyle) : String :=
  toString arc.head ++ " -> " ++ toString arc.tail ++ " [label=\"" ++ dotLabel style.label ++
    "\", style=\"" ++ style.line ++ "\", color=\"" ++ style.color ++ "\"];"

def dot {α β : Type} (g : Digraph α β) (label : α → String) (style : β → EdgeStyle) : String :=
  let options := [
    "graph [fontname = \"Courier New\", splines=\"polyline\"]",
    "node [fontname = \"Courier New\"]",
    "edge [fontname = \"Courier New\"]"]
  let vertices := g.vertices.entries.map fun e => dotVertex e.1 (label e.2)
  let edges := g.edges.entries.map fun e => dotEdge e.1 (style e.2)
  "digraph G \x7b\n" ++ "\n".intercalate options ++ "\n\n" ++ "\n".intercalate vertices ++ "\n" ++
    "\n".intercalate edges ++ "\n\x7d"

end Digraph

end CilAnalysis
