import CilAnalysis.Region.Walk

/-!
# Changing region trees in place

A region is made before the scopes below it, so that it first holds a number that belongs to no
region in their place.  The region above is told of it last.
-/

namespace CilAnalysis

namespace Region

/-- Put a scope in the place of the protected scope of a guarded region. -/
def setProtected (protectedScope : Nat) : Region → Region
  | guarded _ handlers => guarded protectedScope handlers
  | r => r

/-- Put scopes in the places of those of a handler. -/
def setScopes (prologue : Option Nat) (contents : Nat) : Region → Region
  | handler kind _ _ epilogue => handler kind prologue contents epilogue
  | r => r

end Region

namespace RegionTree.InPlace

/-- The number that stands for a scope yet to be made. -/
def unset : Nat := 0xffffffffffffffff

/-- Add a region below another, without telling the other of it; its number is given back. -/
def push (region : Region) (parent : Nat) : Edit RegionTree Nat := do
  modify (·.push region parent)
  return (← get).size - 1

def updateRegion (id : Nat) (f : Region → Region) : Edit RegionTree Unit := do
  let _ ← Edit.ask (·.region id)
  modify (·.update id f)

def appendChild (id : Nat) (child : RegionChild) : Edit RegionTree Unit := do
  let _ ← Edit.ask (·.scope id)
  modify (·.appendChild id child)

/-- Add a guarded region to a scope; its number and that of its protected scope are given back. -/
def addGuarded (scope : Nat) : Edit RegionTree (Nat × Nat) := do
  let _ ← Edit.ask (·.scope scope)
  let guarded ← push (.guarded unset []) scope
  let protectedScope ← push .emptyScope guarded
  updateRegion guarded (Region.setProtected protectedScope)
  appendChild scope (.region guarded)
  return (guarded, protectedScope)

/-- Add a scope in which a filter decides; other handlers have none. -/
def pushPrologue (kind : ClauseKind) (handler : Nat) : Edit RegionTree (Option Nat) := do
  match kind with
  | .filters _ => return some (← push .emptyScope handler)
  | _ => return none

/-- Add a handler to a guarded region; only a filter has a prologue. -/
def addHandler (guarded : Nat) (kind : ClauseKind) : Edit RegionTree HandlerScopes := do
  let above ← Edit.ask (·.region guarded)
  if !above.isGuarded then throw (.regionNotGuarded guarded)
  let handler ← push (.handler kind none unset none) guarded
  let prologue ← pushPrologue kind handler
  let contents ← push .emptyScope handler
  updateRegion handler (Region.setScopes prologue contents)
  updateRegion guarded (Region.appendHandler handler)
  return ⟨handler, prologue, contents⟩

def addBlock (scope offset : Nat) : Edit RegionTree Unit := do
  if (← get).blocks.contains offset then throw (.blockAlreadyPlaced offset)
  appendChild scope (.block offset)
  modify fun t => { t with blocks := t.blocks.insert offset scope }

/-- Sort what stands in every scope. -/
def sortChildren : Edit RegionTree Unit := modify RegionTree.sortChildren

end RegionTree.InPlace

end CilAnalysis
