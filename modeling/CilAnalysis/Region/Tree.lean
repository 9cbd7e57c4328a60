import CilAnalysis.Method.Body
import CilAnalysis.SortedMap

/-!
# Region trees

The basic blocks of a method are placed in scopes.  A guarded region holds the scope that
exceptions are caught in and its handlers; a handler holds the scope of its contents and, for a
filter, that of the prologue in which the filter decides.  Guarded regions stand in scopes again,
so that the regions form a tree with a scope at its root.

Regions are numbered in the order in which they are made, and a block is named by its offset.
-/

namespace CilAnalysis

/-- What stands in a scope. -/
inductive RegionChild where
  | block (offset : Nat)
  | region (id : Nat)
  deriving DecidableEq, Repr

/-- A region of a method. -/
inductive Region where
  /-- Blocks and guarded regions in their order, and the one where control enters. -/
  | scope (children : List RegionChild) (entry : Option RegionChild)
  /-- A scope in which exceptions are handled, and the handlers in the order they are tried. -/
  | guarded (protectedScope : Nat) (handlers : List Nat)
  /-- The scopes of a handler. -/
  | handler (kind : ClauseKind) (prologue : Option Nat) (contents : Nat) (epilogue : Option Nat)
  deriving DecidableEq, Repr

namespace Region

def emptyScope : Region := scope [] none

def isScope : Region → Bool
  | scope .. => true
  | _ => false

def isGuarded : Region → Bool
  | guarded .. => true
  | _ => false

def isHandler : Region → Bool
  | handler .. => true
  | _ => false

def childRegions : Region → List Nat
  | scope children _ =>
    children.filterMap fun
      | .region id => some id
      | .block _ => none
  | guarded protectedScope handlers => protectedScope :: handlers
  | handler _ prologue contents epilogue => prologue.toList ++ contents :: epilogue.toList

/-- Put a child at the end of what stands in a scope. -/
def appendChild (child : RegionChild) : Region → Region
  | scope children entry => scope (children ++ [child]) entry
  | r => r

def appendHandler (handler : Nat) : Region → Region
  | guarded protectedScope handlers => guarded protectedScope (handlers ++ [handler])
  | r => r

end Region

/-- The regions of a method, with the parent of each and the scope of each block. -/
structure RegionTree where
  regions : Array Region
  parents : Array (Option Nat)
  blocks : SortedMap Nat Nat
  deriving DecidableEq

/-- The scopes made for a handler. -/
structure HandlerScopes where
  handler : Nat
  prologue : Option Nat
  contents : Nat
  deriving DecidableEq, Repr

namespace RegionTree

/-- The tree that has only its root, an empty scope. -/
def empty : RegionTree := ⟨#[.emptyScope], #[none], .empty⟩

def root : Nat := 0

def size (t : RegionTree) : Nat := t.regions.size

def region (t : RegionTree) (id : Nat) : Except Error Region :=
  match t.regions[id]? with
  | some r => .ok r
  | none => .error (.regionNotFound id)

/-- What stands in a scope, and where control enters it. -/
def scope (t : RegionTree) (id : Nat) : Except Error (List RegionChild × Option RegionChild) := do
  match ← t.region id with
  | .scope children entry => return (children, entry)
  | _ => throw (.regionNotScope id)

/-- The region that a region stands in; the root stands in none. -/
def parent (t : RegionTree) (id : Nat) : Except Error (Option Nat) :=
  match t.parents[id]? with
  | some p => .ok p
  | none => .error (.regionNotFound id)

def regionOf? (t : RegionTree) (offset : Nat) : Option Nat := t.blocks.get? offset

/-- Add a region below another, without telling the other of it. -/
def push (t : RegionTree) (region : Region) (parent : Nat) : RegionTree :=
  { t with regions := t.regions.push region, parents := t.parents.push (some parent) }

/-- Change the region with a number, if there is one. -/
def update (t : RegionTree) (id : Nat) (f : Region → Region) : RegionTree :=
  { t with regions := t.regions.modify id f }

def appendChild (t : RegionTree) (id : Nat) (child : RegionChild) : RegionTree :=
  t.update id (Region.appendChild child)

/-- Add a guarded region to a scope; its number and that of its protected scope are given back. -/
def addGuarded (t : RegionTree) (scope : Nat) : Except Error ((Nat × Nat) × RegionTree) := do
  let _ ← t.scope scope
  let guarded := t.size
  let protectedScope := t.size + 1
  let t := (t.push (.guarded protectedScope []) scope).push .emptyScope guarded
  return ((guarded, protectedScope), t.appendChild scope (.region guarded))

/-- Add a handler to a guarded region; only a filter has a prologue. -/
def addHandler (t : RegionTree) (guarded : Nat) (kind : ClauseKind) :
    Except Error (HandlerScopes × RegionTree) := do
  if !(← t.region guarded).isGuarded then throw (.regionNotGuarded guarded)
  let handler := t.size
  let (prologue, contents) :=
    match kind with
    | .filters _ => (some (handler + 1), handler + 2)
    | _ => (none, handler + 1)
  let scopes := prologue.toList ++ [contents]
  let t := t.push (.handler kind prologue contents none) guarded
  let t := scopes.foldl (fun t _ => t.push .emptyScope handler) t
  return (⟨handler, prologue, contents⟩, t.update guarded (Region.appendHandler handler))

def addBlock (t : RegionTree) (scope offset : Nat) : Except Error RegionTree := do
  if t.blocks.contains offset then throw (.blockAlreadyPlaced offset)
  let _ ← t.scope scope
  return { t.appendChild scope (.block offset) with blocks := t.blocks.insert offset scope }

end RegionTree

end CilAnalysis
