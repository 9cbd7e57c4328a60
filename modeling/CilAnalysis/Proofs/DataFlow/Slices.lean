import CilAnalysis.Proofs.Digraph.DepthFirst
import CilAnalysis.Proofs.SortedMap
import CilAnalysis.Slice.Replay

/-!
# Slices as programs for a stack

Following dependencies backwards from a node lists every node after those it depends on.  Where no
value is used twice, the nodes of that list form a tree, and the list is its post-order: if each
node in turn takes the values it depends on from a stack and leaves its own, every node finds just
these values on top (`stackSlice_evaluates`).

## Strategy

The dependencies of a node are successors in the sense of `DepthFirst`, with `adjacency` for the
lists of successors.  Two facts link the function that computes a slice to the theory there.

* A traversal that does not fail is a run that lists nodes as they are left, and the other way round
  (`leaves_of_leave`, `leave_of_leaves`).
* Such a run follows the recursive search (`DepthFirst.Leaves.exists_explores`).  Hence it is a fact
  about searches that a slice has no node twice (`stackSlice_nodup`), only nodes of the graph
  (`stackSlice_exists_node`) and just those that produce something for the root
  (`mem_stackSlice_iff`).

That a tree is evaluated is an induction on the search.  What could go wrong is that the search
passes over a node that it met before.  `Grown` is the invariant that excludes it.  The nodes met so
far and those that still wait to be searched from are all different, and each is the root or
produces something for a node met before.
-/

namespace CilAnalysis

namespace DataFlowGraph

open DepthFirst Relation

/-! ## Traversals that succeed -/

/-- What a node depends on directly, as a search finds it. -/
def adjacency (g : DataFlowGraph) (kinds : DependencyKinds) (v : Nat) : Option (List Nat) :=
  (g.nodes.get? v).map fun n => n.dependencies kinds

variable {g : DataFlowGraph} {kinds : DependencyKinds} {visited order : List Nat}
  {work : List Digraph.Visit}

theorem adjacency_of_get? {v : Nat} {n : DataFlowNode} (h : g.nodes.get? v = some n) :
    g.adjacency kinds v = some (n.dependencies kinds) :=
  congrArg (Option.map _) h

private theorem leaves_of_leave (h : g.leave kinds visited work = .ok order) :
    Leaves (g.adjacency kinds) visited work order := by
  fun_induction leave g kinds visited work generalizing order with
  | case1 visited =>
      obtain rfl := Except.ok.inj h
      exact .done visited
  | case2 visited v work order' _ ih =>
      obtain rfl := Except.ok.inj h
      exact .leave (ih ‹_›)
  | case3 => exact nomatch h
  | case4 visited v work hv ih => exact .pass hv (ih h)
  | case5 => exact nomatch h
  | case6 =>
      rename_i hv n hn _ _ ih
      exact .enter hv (adjacency_of_get? hn) (ih h)

theorem leave_of_leaves (h : Leaves (g.adjacency kinds) visited work order) :
    g.leave kinds visited work = .ok order := by
  induction h with
  | done visited => rw [leave]
  | leave _ ih => rw [leave, ih]
  | pass hv _ ih => rw [leave, dif_pos hv, ih]
  | enter hv hnext _ ih =>
      obtain ⟨n, hn, rfl⟩ := Option.map_eq_some_iff.mp hnext
      rw [leave, dif_neg hv]
      split
      next hnone => exact absurd (hn.symm.trans hnone) (Option.some_ne_none _)
      next n' hn' =>
        obtain rfl := Option.some.inj (hn.symm.trans hn')
        exact ih

/-- The nodes left within a number of visits.  Unlike `leave` this computes in proofs. -/
def leaveWithin (g : DataFlowGraph) (kinds : DependencyKinds) :
    Nat → List Nat → List Digraph.Visit → Option (List Nat)
  | _, _, [] => some []
  | 0, _, _ => none
  | visits + 1, visited, .leave v :: work => do
    return v :: (← g.leaveWithin kinds visits visited work)
  | visits + 1, visited, .enter v :: work =>
    if v ∈ visited then g.leaveWithin kinds visits visited work
    else do
      let n ← g.nodes.get? v
      let fresh := (n.dependencies kinds).filter fun w => !(v :: visited).contains w
      g.leaveWithin kinds visits (v :: visited) (fresh.map .enter ++ .leave v :: work)

theorem leaves_of_leaveWithin {visits : Nat}
    (h : g.leaveWithin kinds visits visited work = some order) :
    Leaves (g.adjacency kinds) visited work order := by
  fun_induction leaveWithin g kinds visits visited work generalizing order with
  | case1 _ visited =>
      obtain rfl := Option.some.inj h
      exact .done visited
  | case2 => exact nomatch h
  | case3 visits visited v work ih =>
      obtain ⟨order', horder, hcons⟩ := Option.bind_eq_some_iff.mp h
      obtain rfl := Option.some.inj hcons
      exact .leave (ih horder)
  | case4 visits visited v work hv ih => exact .pass hv (ih h)
  | case5 visits visited v work hv ih =>
      obtain ⟨n, hn, hrest⟩ := Option.bind_eq_some_iff.mp h
      exact .enter hv (adjacency_of_get? hn) (ih n hrest)

/-! ## Trees -/

/-- The nodes that produce what a node takes from the stack, the deepest slot first. -/
def producers (g : DataFlowGraph) (v : Nat) : List Nat :=
  ((g.nodes.get? v).map fun n => n.dependencies ⟨true, false⟩).getD []

theorem producers_eq_of_adjacency {v : Nat} {ws : List Nat}
    (h : g.adjacency ⟨true, false⟩ v = some ws) : g.producers v = ws :=
  congrArg (Option.getD · []) h

theorem mem_producers {u v : Nat} :
    u ∈ g.producers v ↔ ∃ n, g.nodes.get? v = some n ∧ u ∈ n.dependencies ⟨true, false⟩ := by
  unfold producers
  cases g.nodes.get? v <;> simp

private theorem leads_iff_mem_producers {u v : Nat} :
    Leads (g.adjacency ⟨true, false⟩) v u ↔ u ∈ g.producers v := by
  constructor
  · rintro ⟨ws, hnext, hu⟩
    rwa [producers_eq_of_adjacency hnext]
  · intro hu
    obtain ⟨n, hn, hu⟩ := mem_producers.mp hu
    exact ⟨_, adjacency_of_get? hn, hu⟩

/-- Some nodes of which none produces a value that is used twice, and of which a root produces none
at all. -/
structure IsTree (g : DataFlowGraph) (root : Nat) (nodes : List Nat) : Prop where
  nodup : (nodes.flatMap g.producers).Nodup
  root : root ∉ nodes.flatMap g.producers

instance (g : DataFlowGraph) (root : Nat) (nodes : List Nat) : Decidable (g.IsTree root nodes) :=
  decidable_of_iff (_ ∧ _) ⟨fun ⟨h₁, h₂⟩ => ⟨h₁, h₂⟩, fun h => ⟨h.nodup, h.root⟩⟩

namespace IsTree

variable {root : Nat} {nodes : List Nat}

private theorem nodup_producers (h : g.IsTree root nodes) {v : Nat} (hv : v ∈ nodes) :
    (g.producers v).Nodup :=
  (List.nodup_flatMap.mp h.nodup).1 v hv

/-- A value has one use. -/
theorem eq_of_mem_producers (h : g.IsTree root nodes) {v v' u : Nat} (hv : v ∈ nodes)
    (hv' : v' ∈ nodes) (hu : u ∈ g.producers v) (hu' : u ∈ g.producers v') : v = v' := by
  by_contra hne
  have hsymm : Std.Symm (Function.onFun List.Disjoint g.producers) :=
    ⟨fun _ _ hdisjoint => List.Disjoint.symm hdisjoint⟩
  exact (List.nodup_flatMap.mp h.nodup).2.forall hv hv' hne hu hu'

end IsTree

/-! ## Post-orders -/

/-- Nodes in turn take their producers from a stack, the last one from the top, and leave
themselves. -/
inductive Evaluates (g : DataFlowGraph) : List Nat → List Nat → List Nat → Prop where
  | nil (stack : List Nat) : Evaluates g stack [] stack
  | cons {stack rest order final v} (hstack : stack = (g.producers v).reverse ++ rest)
      (hrest : Evaluates g (v :: rest) order final) : Evaluates g stack (v :: order) final

theorem Evaluates.append {stack middle final order order' : List Nat}
    (h : Evaluates g stack order middle) (h' : Evaluates g middle order' final) :
    Evaluates g stack (order ++ order') final := by
  induction h with
  | nil => exact h'
  | cons hstack _ ih => exact .cons hstack (ih h')

/-- A visit evaluates what its node takes, then the node, and then whatever else is searched from.
-/
theorem Evaluates.visit {v : Nat} {ws vs finished finished' stack : List Nat}
    (hnext : g.adjacency ⟨true, false⟩ v = some ws)
    (hbelow : Evaluates g stack finished (ws.reverse ++ stack))
    (hrest : Evaluates g (v :: stack) finished' (vs.reverse ++ v :: stack)) :
    Evaluates g stack (finished ++ v :: finished') ((v :: vs).reverse ++ stack) := by
  rw [List.reverse_cons, List.append_assoc]
  exact hbelow.append (.cons (by rw [producers_eq_of_adjacency hnext]) hrest)

/-- The nodes that were met and those that wait to be searched from are all different, and each is
the root or produces something for a node that was met. -/
structure Grown (g : DataFlowGraph) (root : Nat) (seen waiting : List Nat) : Prop where
  nodup : (waiting ++ seen).Nodup
  parent : ∀ v ∈ waiting ++ seen, v = root ∨ ∃ u ∈ seen, v ∈ g.producers u

variable {root : Nat} {nodes : List Nat}

/-- In a tree, what a node depends on was not met before the node itself. -/
theorem Grown.enter (h : g.IsTree root nodes) {v : Nat} {seen waiting : List Nat}
    (hgrown : g.Grown root seen (v :: waiting)) (hseen : ∀ u ∈ seen, u ∈ nodes) (hv : v ∈ nodes) :
    g.Grown root (v :: seen) (g.producers v ++ waiting) := by
  have hnodup : (v :: (waiting ++ seen)).Nodup := hgrown.nodup
  have hv' : v ∉ seen := fun hin =>
    (List.nodup_cons.mp hnodup).1 (List.mem_append_right _ hin)
  -- A producer that was there before would be the root or be used by another node.
  have hnew : ∀ u ∈ g.producers v, u ∉ v :: (waiting ++ seen) := by
    intro u hu hin
    rcases hgrown.parent u hin with rfl | ⟨w, hw, huw⟩
    · exact h.root (List.mem_flatMap.mpr ⟨v, hv, hu⟩)
    · rw [h.eq_of_mem_producers hv (hseen w hw) hu huw] at hv'
      exact hv' hw
  have hmoved : (waiting ++ v :: seen).Perm (v :: (waiting ++ seen)) := List.perm_middle
  constructor
  · rw [List.append_assoc, List.nodup_append']
    refine ⟨h.nodup_producers hv, hmoved.nodup_iff.mpr hnodup, ?_⟩
    exact fun u hu hin => hnew u hu (hmoved.mem_iff.mp hin)
  · intro u hu
    rw [List.append_assoc] at hu
    rcases List.mem_append.mp hu with hu | hu
    · exact Or.inr ⟨v, List.mem_cons_self, hu⟩
    · refine (hgrown.parent u (hmoved.mem_iff.mp hu)).imp_right ?_
      rintro ⟨w, hw, huw⟩
      exact ⟨w, List.mem_cons_of_mem v hw, huw⟩

/-- In a tree the order in which nodes are finished is one in which they can be evaluated. -/
theorem evaluates_of_isTree (htree : g.IsTree root nodes)
    {seen vs waiting discovered finished : List Nat}
    (h : Explores (g.adjacency ⟨true, false⟩) seen vs discovered finished)
    (hdiscovered : ∀ v ∈ discovered, v ∈ nodes) (hseen : ∀ v ∈ seen, v ∈ nodes)
    (hgrown : g.Grown root seen (vs ++ waiting)) :
    (∀ stack, g.Evaluates stack finished (vs.reverse ++ stack)) ∧
      g.Grown root (discovered.reverse ++ seen) waiting := by
  induction h generalizing waiting with
  | nil => exact ⟨.nil, hgrown⟩
  | pass hv =>
      exact absurd (List.mem_append_right _ hv) (List.nodup_cons.mp hgrown.nodup).1
  | @visit seen vs ws discovered finished discovered' finished' v _ hnext _ _ ihbelow ihrest =>
      obtain ⟨hfirst, hlater⟩ := List.forall_mem_append.mp hdiscovered
      obtain ⟨hv, hbelow⟩ := List.forall_mem_cons.mp hfirst
      have hseen' : ∀ u ∈ v :: seen, u ∈ nodes := List.forall_mem_cons.mpr ⟨hv, hseen⟩
      -- While the node's producers are searched from, the rest of the list waits with the others.
      have hentered := hgrown.enter htree hseen hv
      rw [producers_eq_of_adjacency hnext] at hentered
      obtain ⟨hoperands, hgrown⟩ := ihbelow hbelow hseen' hentered
      obtain ⟨hothers, hgrown⟩ := ihrest hlater (List.forall_mem_append.mpr
        ⟨fun u hu => hbelow u (List.mem_reverse.mp hu), hseen'⟩) hgrown
      refine ⟨fun stack => (hoperands stack).visit hnext (hothers (v :: stack)), ?_⟩
      simpa using hgrown

/-- What is taken or left was evaluated, or was on the stack before. -/
theorem Evaluates.mem {stack order final : List Nat} (h : Evaluates g stack order final) :
    (∀ u ∈ final, u ∈ stack ++ order) ∧ ∀ v ∈ order, ∀ u ∈ g.producers v, u ∈ stack ++ order := by
  induction h with
  | nil stack =>
      exact ⟨fun u hu => List.mem_append_left _ hu, fun v hv => absurd hv List.not_mem_nil⟩
  | @cons stack rest order final v hstack hrest ih =>
      subst hstack
      have hlater : ∀ u ∈ v :: rest ++ order,
          u ∈ (g.producers v).reverse ++ rest ++ v :: order := by
        intro u hu
        simp only [List.mem_append, List.mem_cons] at hu ⊢
        tauto
      refine ⟨fun u hu => hlater u (ih.1 u hu), List.forall_mem_cons.mpr ⟨?_, ?_⟩⟩
      · intro u hu
        exact List.mem_append_left _ (List.mem_append_left _ (List.mem_reverse.mpr hu))
      · intro w hw u hu
        exact hlater u (ih.2 w hw u hu)

theorem Evaluates.append_singleton {stack order final : List Nat} {v : Nat}
    (h : Evaluates g stack (order ++ [v]) final) :
    ∃ rest, final = v :: rest ∧ Evaluates g stack order ((g.producers v).reverse ++ rest) := by
  induction order generalizing stack with
  | nil =>
      obtain - | ⟨hstack, hnil⟩ := h
      cases hnil with
      | nil => exact ⟨_, rfl, hstack ▸ .nil _⟩
  | cons u order ih =>
      obtain - | ⟨hstack, hrest⟩ := h
      obtain ⟨final', hfinal, hrest'⟩ := ih hrest
      exact ⟨final', hfinal, .cons hstack hrest'⟩

/-! ## Slices -/

/-- A slice followed by its root is what the search from the root finishes. -/
theorem stackSlice_explores {slice : List Nat} (h : g.stackSlice root = .ok slice) :
    ∃ discovered, Explores (g.adjacency ⟨true, false⟩) [] [root] discovered (slice ++ [root]) := by
  unfold stackSlice orderedDependencies node at h
  cases hn : g.nodes.get? root with
  | none =>
      rw [hn] at h
      exact nomatch h
  | some n =>
      cases horder : g.leave ⟨true, false⟩ [] [.enter root] with
      | error e =>
          rw [hn, horder] at h
          exact nomatch h
      | ok order =>
          rw [hn, horder] at h
          obtain rfl : order.dropLast = slice := Except.ok.inj h
          obtain ⟨discovered, hsearch⟩ := (leaves_of_leave horder).exists_explores
          obtain ⟨before, rfl⟩ := hsearch.exists_append_root
          rw [List.dropLast_concat]
          exact ⟨discovered, hsearch⟩

/-- A slice has every node once and not the node it belongs to. -/
theorem stackSlice_nodup {slice : List Nat} (h : g.stackSlice root = .ok slice) :
    (root :: slice).Nodup := by
  obtain ⟨discovered, hsearch⟩ := stackSlice_explores h
  have hperm := hsearch.perm.trans (List.perm_append_singleton root slice)
  exact hperm.nodup_iff.mp hsearch.nodup.1

theorem stackSlice_exists_node {slice : List Nat} (h : g.stackSlice root = .ok slice) :
    ∀ v ∈ root :: slice, ∃ n, g.nodes.get? v = some n := by
  obtain ⟨discovered, hsearch⟩ := stackSlice_explores h
  have hperm := hsearch.perm.trans (List.perm_append_singleton root slice)
  intro v hv
  obtain ⟨ws, hnext⟩ := hsearch.exists_next v (hperm.mem_iff.mpr hv)
  obtain ⟨n, hn, -⟩ := Option.map_eq_some_iff.mp hnext
  exact ⟨n, hn⟩

/-- A slice has whatever produces something for the node it belongs to, directly or through
others. -/
theorem mem_stackSlice_iff {slice : List Nat} (h : g.stackSlice root = .ok slice) {u : Nat} :
    u ∈ slice ↔ u ≠ root ∧ TransGen (fun u v => u ∈ g.producers v) u root := by
  obtain ⟨discovered, hsearch⟩ := stackSlice_explores h
  have hperm := hsearch.perm.trans (List.perm_append_singleton root slice)
  have hroot : root ∉ slice := (List.nodup_cons.mp (stackSlice_nodup h)).1
  have hleads : (fun u v => u ∈ g.producers v) =
      Function.swap (Leads (g.adjacency ⟨true, false⟩)) := by
    funext u v
    exact propext leads_iff_mem_producers.symm
  calc u ∈ slice
    _ ↔ u ≠ root ∧ u ∈ root :: slice := by
        refine ⟨fun hu => ⟨ne_of_mem_of_not_mem hu hroot, List.mem_cons_of_mem root hu⟩, ?_⟩
        exact fun ⟨hne, hu⟩ => (List.mem_cons.mp hu).resolve_left hne
    _ ↔ u ≠ root ∧ ReflTransGen (Leads (g.adjacency ⟨true, false⟩)) root u := by
        rw [← hperm.mem_iff, hsearch.mem_iff]
    _ ↔ u ≠ root ∧ TransGen (Leads (g.adjacency ⟨true, false⟩)) root u := by
        rw [reflTransGen_iff_eq_or_transGen]
        exact and_congr_right fun hne => or_iff_right hne
    _ ↔ u ≠ root ∧ TransGen (fun u v => u ∈ g.producers v) u root := by
        rw [hleads, transGen_swap]

theorem stackSlice_of_leaveWithin {slice : List Nat} {visits : Nat}
    (h : g.leaveWithin ⟨true, false⟩ visits [] [.enter root] = some (slice ++ [root])) :
    g.stackSlice root = .ok slice := by
  have hleaves := leaves_of_leaveWithin h
  unfold stackSlice orderedDependencies node
  rw [leave_of_leaves hleaves]
  cases hleaves with
  | pass hv => exact absurd hv List.not_mem_nil
  | enter _ hnext _ =>
      obtain ⟨n, hn, -⟩ := Option.map_eq_some_iff.mp hnext
      rw [hn]
      exact congrArg Except.ok List.dropLast_concat

/-- The slice of a node that is a tree evaluates to what the node takes. -/
theorem stackSlice_evaluates {slice : List Nat} (h : g.stackSlice root = .ok slice)
    (htree : g.IsTree root (root :: slice)) :
    Evaluates g [] slice (g.producers root).reverse := by
  obtain ⟨discovered, hsearch⟩ := stackSlice_explores h
  have hperm := hsearch.perm.trans (List.perm_append_singleton root slice)
  have hgrown : g.Grown root [] ([root] ++ []) :=
    ⟨List.nodup_singleton root, fun v hv => Or.inl (List.mem_singleton.mp hv)⟩
  obtain ⟨hall, -⟩ := evaluates_of_isTree htree hsearch (fun v hv => hperm.mem_iff.mp hv)
    (fun _ hv => absurd hv List.not_mem_nil) hgrown
  obtain ⟨rest, hfinal, hslice⟩ := (hall []).append_singleton
  obtain rfl : [] = rest := (List.cons.inj hfinal).2
  rwa [List.append_nil] at hslice

end DataFlowGraph

end CilAnalysis
