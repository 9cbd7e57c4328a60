import CilAnalysis.Region.Tree

/-!
# Walks through region trees

Questions about all that lies below or above a region.  A walk takes at most as many steps in one
direction as there are regions, which bounds the recursion.  A number that belongs to no region
counts as a region without blocks when a walk meets it.
-/

namespace CilAnalysis.RegionTree

/-- The blocks below a region, in the order of the tree. -/
def blocksBelow (t : RegionTree) : Nat → Nat → List Nat
  | 0, _ => []
  | steps + 1, id =>
    match t.regions[id]? with
    | none => []
    | some (.scope children _) =>
      children.flatMap fun
        | .block offset => [offset]
        | .region child => t.blocksBelow steps child
    | some r => r.childRegions.flatMap (t.blocksBelow steps)

/-- The first block below a region. -/
def firstBelow (t : RegionTree) : Nat → Nat → Option Nat
  | 0, _ => none
  | steps + 1, id =>
    match t.regions[id]? with
    | none => none
    | some (.scope children _) =>
      children.findSome? fun
        | .block offset => some offset
        | .region child => t.firstBelow steps child
    | some r => r.childRegions.findSome? (t.firstBelow steps)

/-- The last block below a region.  For a guarded region it is the first block of its last handler
that has one. -/
def lastBelow (t : RegionTree) : Nat → Nat → Option Nat
  | 0, _ => none
  | steps + 1, id =>
    match t.regions[id]? with
    | none => none
    | some (.scope children _) =>
      children.reverse.findSome? fun
        | .block offset => some offset
        | .region child => t.lastBelow steps child
    | some (.guarded protectedScope handlers) =>
      (handlers.reverse.findSome? (t.firstBelow steps)).or (t.lastBelow steps protectedScope)
    | some r => r.childRegions.reverse.findSome? (t.lastBelow steps)

/-- The number of levels of regions from a region down, or nothing for a number without region. -/
def levelsBelow (t : RegionTree) : Nat → Nat → Option Nat
  | 0, _ => none
  | steps + 1, id =>
    match t.regions[id]? with
    | none => none
    | some r => some (1 + ((r.childRegions.filterMap (t.levelsBelow steps)).max?.getD 0))

/-- The number of regions above a region. -/
def heightAbove (t : RegionTree) : Nat → Nat → Except Error Nat
  | 0, _ => .ok 0
  | steps + 1, id => do
    match ← t.parent id with
    | some p => return 1 + (← t.heightAbove steps p)
    | none => return 0

/-- Whether a region is met on the way from another to the root. -/
def meets (t : RegionTree) (ancestor : Nat) : Nat → Nat → Except Error Bool
  | 0, _ => .ok false
  | steps + 1, id => do
    if id = ancestor then return true
    match ← t.parent id with
    | some p => t.meets ancestor steps p
    | none => return false

def blocksOf (t : RegionTree) (id : Nat) : Except Error (List Nat) := do
  let _ ← t.region id
  return t.blocksBelow t.size id

def firstBlock (t : RegionTree) (id : Nat) : Except Error (Option Nat) := do
  let _ ← t.region id
  return t.firstBelow t.size id

def lastBlock (t : RegionTree) (id : Nat) : Except Error (Option Nat) := do
  let _ ← t.region id
  return t.lastBelow t.size id

/-- The number of levels from a region down, its own included. -/
def nesting (t : RegionTree) (id : Nat) : Except Error Nat := do
  let _ ← t.region id
  return (t.levelsBelow t.size id).getD 0

/-- The number of regions a region stands in. -/
def depth (t : RegionTree) (id : Nat) : Except Error Nat := t.heightAbove (t.parents.size + 1) id

/-- Whether a region stands in another, or is it. -/
def contains (t : RegionTree) (ancestor id : Nat) : Except Error Bool :=
  t.meets ancestor (t.parents.size + 1) id

def childrenOf (t : RegionTree) (id : Nat) : Except Error (List Nat) := do
  return (← t.region id).childRegions

/-- The greatest offset there is. -/
def greatestOffset : Nat := 0xffffffff

/-- What the children of a scope are sorted by: the offset of a block, and for a region that of its
first block; regions without blocks come last. -/
def childOffset (t : RegionTree) : RegionChild → Nat
  | .block offset => offset
  | .region id => (t.firstBelow t.size id).getD greatestOffset

/-- Sort what stands in one scope and let control enter at the first. -/
def sortScope (t : RegionTree) (id : Nat) : RegionTree :=
  match t.regions[id]? with
  | some (.scope children _) =>
    let sorted := children.mergeSort fun a b => t.childOffset a ≤ t.childOffset b
    { t with regions := t.regions.setIfInBounds id (.scope sorted sorted.head?) }
  | _ => t

/-- Sort what stands in every scope, in the order of their numbers. -/
def sortChildren (t : RegionTree) : RegionTree := (List.range t.size).foldl sortScope t

end CilAnalysis.RegionTree
