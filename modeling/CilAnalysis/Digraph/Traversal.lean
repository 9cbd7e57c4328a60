import CilAnalysis.Digraph.Basic

/-!
# Traversals

The depth-first search from a root takes the successors of a vertex in ascending order.  It is run
with a stack of vertices still to be entered.  The search ends because every vertex is entered at
most once and only an entered vertex puts others on the stack.
-/

namespace CilAnalysis.Digraph

variable {α β : Type}

/-- The number of vertices that have not been entered. -/
def unvisited (g : Digraph α β) (visited : List Nat) : Nat :=
  g.successors.keys.countP fun v => !visited.contains v

theorem countP_lt_of_mem {p q : Nat → Bool} {l : List Nat} {v : Nat} (hv : v ∈ l)
    (himp : ∀ w, p w = true → q w = true) (hp : p v = false) (hq : q v = true) :
    l.countP p < l.countP q := by
  induction l with
  | nil => simp at hv
  | cons w l ih =>
    have hle : l.countP p ≤ l.countP q := List.countP_mono_left fun x _ => himp x
    rcases List.mem_cons.1 hv with rfl | hmem
    · rw [List.countP_cons_of_neg (by simp [hp]), List.countP_cons_of_pos hq]
      omega
    · have hlt := ih hmem
      by_cases hpw : p w = true
      · rw [List.countP_cons_of_pos hpw, List.countP_cons_of_pos (himp w hpw)]
        omega
      · rw [List.countP_cons_of_neg hpw]
        have hstep : l.countP q ≤ (w :: l).countP q := by
          rw [List.countP_cons]
          omega
        omega

/-- Entering a vertex leaves fewer to be entered. -/
theorem unvisited_lt {g : Digraph α β} {visited : List Nat} {v : Nat} {s : SortedSet Nat}
    (hfresh : v ∉ visited) (hsucc : g.successors.get? v = some s) :
    g.unvisited (v :: visited) < g.unvisited visited := by
  apply countP_lt_of_mem (SortedMap.mem_keys_of_get? hsucc)
  · intro w hw
    simp only [Bool.not_eq_true', List.contains_eq_mem, decide_eq_false_iff_not,
      List.mem_cons, not_or] at hw ⊢
    exact hw.2
  · simp
  · simpa using hfresh

/-- The successors of a vertex that have not been entered. -/
def freshSuccessors (s : SortedSet Nat) (visited : List Nat) : List Nat :=
  s.keys.filter fun v => !visited.contains v

/-- The vertices entered from a stack, in the order in which they are entered. -/
def enter (g : Digraph α β) (visited : List Nat) : List Nat → List Nat
  | [] => []
  | v :: stack =>
    if hv : v ∈ visited then g.enter visited stack
    else
      match hs : g.successors.get? v with
      | none => g.enter visited stack
      | some s =>
        have := unvisited_lt hv hs
        v :: g.enter (v :: visited) (freshSuccessors s (v :: visited) ++ stack)
termination_by stack => (g.unvisited visited, stack.length)

/-- What is left to do at a vertex. -/
inductive Visit where
  /-- Enter the vertex. -/
  | enter (vertex : Nat)
  /-- Leave the vertex, all its successors being done. -/
  | leave (vertex : Nat)
  deriving DecidableEq, Repr

/-- The vertices left while a stack is worked off, in the order in which they are left. -/
def leave (g : Digraph α β) (visited : List Nat) : List Visit → List Nat
  | [] => []
  | .leave v :: stack => v :: g.leave visited stack
  | .enter v :: stack =>
    if hv : v ∈ visited then g.leave visited stack
    else
      match hs : g.successors.get? v with
      | none => g.leave visited stack
      | some s =>
        have := unvisited_lt hv hs
        g.leave (v :: visited)
          ((freshSuccessors s (v :: visited)).map .enter ++ .leave v :: stack)
termination_by stack => (g.unvisited visited, stack.length)

def checkRoot (g : Digraph α β) (root : Nat) : Except Error Unit :=
  if g.hasVertex root then .ok () else .error (.vertexNotFound root)

/-- The vertices reached from a root, in the order in which the search enters them. -/
def preOrder (g : Digraph α β) (root : Nat) : Except Error (List Nat) := do
  g.checkRoot root
  return g.enter [] [root]

/-- The vertices reached from a root, in the order in which the search leaves them. -/
def postOrder (g : Digraph α β) (root : Nat) : Except Error (List Nat) := do
  g.checkRoot root
  return g.leave [] [.enter root]

/-- Add to a set all that can be reached from the vertices of a stack, which are in the set.  Each
round is done with one vertex for good, so that as many rounds as there are vertices suffice. -/
def spread (g : Digraph α β) : Nat → SortedSet Nat → List Nat → SortedSet Nat
  | 0, seen, _ => seen
  | _, seen, [] => seen
  | rounds + 1, seen, v :: stack =>
    let fresh := (((g.successors.get? v).map SortedMap.keys).getD []).filter (!seen.contains ·)
    g.spread rounds (fresh.foldl SortedSet.add seen) (fresh.reverse ++ stack)

/-- The set of the vertices that can be reached from a root. -/
def reachable (g : Digraph α β) (root : Nat) : Except Error (SortedSet Nat) := do
  g.checkRoot root
  return g.spread g.vertices.size (.singleton root) [root]

def unreachable (g : Digraph α β) (root : Nat) : Except Error (List Nat) := do
  let reached ← g.reachable root
  return g.vertices.keys.filter (!reached.contains ·)

end CilAnalysis.Digraph
