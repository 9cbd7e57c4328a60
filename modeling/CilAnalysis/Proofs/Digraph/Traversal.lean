import CilAnalysis.Proofs.Digraph.DepthFirst
import CilAnalysis.Proofs.Digraph.Histories

/-!
# Traversals of a graph

The traversals of a graph run a stack of vertices.  In a graph that was made by changing the empty
one they succeed, and what they list belongs together: the orders in which vertices are entered and
left are those of one recursive search, both have exactly the vertices that can be reached, and the
set of reached vertices has them too.  The main result is `Digraph.Made.exists_searched`.

## Strategy

* In a graph whose views agree no vertex comes on the stack that is not one of the graph, so that
  the successors of each one are found, in ascending order (`Consistent.exists_adjacency`).
* For entering and leaving there is the theory of depth-first search.  The search exists and is
  unique, the runs with a stack follow it, and the functions compute what the runs list
  (`enter_of_enters`, `leave_of_leaves`).
* The set of reached vertices is computed otherwise: vertices are marked when they are put on the
  stack and not when they are taken from it.  This run has a relation of its own (`Spreads`), for
  which soundness and completeness are two inductions (`Spreads.reached`, `Spreads.closed`).

As many rounds as there are vertices suffice for that set (`card_unmarked_foldl`,
`Consistent.spreads`).
-/

namespace CilAnalysis.Digraph

open DepthFirst Relation SortedMap SortedSet

variable {α β : Type} {g g' : Digraph α β} {root : Nat}

/-- The successors of a vertex, as a search finds them. -/
def adjacency (g : Digraph α β) (v : Nat) : Option (List Nat) :=
  (g.successors.get? v).map keys

/-- There is an edge from a vertex to another one. -/
def Adjacent (g : Digraph α β) (v w : Nat) : Prop := ⟨v, w⟩ ∈ g.edges

namespace Consistent

/-- The successors of a vertex are found, in ascending order, and none of them is missing. -/
theorem exists_adjacency (hg : g.Consistent) {v : Nat} (hv : v ∈ g.vertices) :
    ∃ ws, g.adjacency v = some ws ∧ ws.Pairwise (· < ·) ∧ (∀ w, w ∈ ws ↔ g.Adjacent v w) ∧
      ∀ w ∈ ws, w ∈ g.vertices := by
  obtain ⟨s, hs⟩ := mem_iff_get?.mp (hg.mem_successors.mpr hv)
  have hmem : ∀ w, w ∈ s.keys ↔ g.Adjacent v w := by
    intro w
    have hlists : Lists g.successors v w ↔ w ∈ s := by simp [Lists, hs]
    exact hlists.symm.trans (hg.successor_iff v w)
  refine ⟨s.keys, by rw [adjacency, hs]; rfl, ?_, hmem, fun w hw => (hg.ends _ ((hmem w).mp hw)).2⟩
  exact List.pairwise_map.mpr (s.sorted.imp fun h => Nat.compare_eq_lt.mp h)

theorem leads_iff (hg : g.Consistent) {v w : Nat} : Leads g.adjacency v w ↔ g.Adjacent v w := by
  constructor
  · rintro ⟨ws, hws, hw⟩
    have hv : v ∈ g.vertices := by
      obtain ⟨s, hs, -⟩ := Option.map_eq_some_iff.mp hws
      exact hg.mem_successors.mp (mem_iff_get?.mpr ⟨s, hs⟩)
    obtain ⟨ws', hws', -, hmem, -⟩ := hg.exists_adjacency hv
    obtain rfl := Option.some.inj (hws.symm.trans hws')
    exact (hmem w).mp hw
  · intro hedge
    obtain ⟨ws, hws, -, hmem, -⟩ := hg.exists_adjacency (hg.ends _ hedge).1
    exact ⟨ws, hws, (hmem w).mpr hedge⟩

theorem leads_eq (hg : g.Consistent) : Leads g.adjacency = g.Adjacent := by
  funext v w
  exact propext hg.leads_iff

theorem setVertex (hg : g.Consistent) {v : Nat} {a : α} (h : g.setVertex v a = .ok g') :
    g'.Consistent := by
  unfold Digraph.setVertex at h
  split at h
  next hv =>
    cases h
    -- The vertex was there before, so that the vertices stay the same.
    have hkeys : (g.vertices.insert v a).keys = g.vertices.keys := by
      refine keys_congr fun w => ?_
      rw [mem_insert, or_iff_right_of_imp]
      rintro rfl
      exact hasVertex_iff.mp hv
    have hmem : ∀ w, w ∈ g.vertices.insert v a ↔ w ∈ g.vertices := by
      intro w
      rw [mem_def, mem_def, hkeys]
    exact {
      hg.toLinked with
      successor_keys := hg.successor_keys.trans hkeys.symm
      predecessor_keys := hg.predecessor_keys.trans hkeys.symm
      ends := fun arc harc =>
        (hg.ends arc harc).imp (hmem _).mpr (hmem _).mpr }
  next => cases h

end Consistent

/-- The graphs that come from the empty one by the operations that change a graph, those that are
refused included. -/
inductive Made : Digraph α β → Prop where
  | empty : Made .empty
  | request {g : Digraph α β} (hg : Made g) (r : Request α β) : Made (r.edit.run g).2
  | setVertex {g g' : Digraph α β} {v : Nat} {a : α} (hg : Made g)
      (h : g.setVertex v a = .ok g') : Made g'

theorem Made.consistent (hg : g.Made) : g.Consistent := by
  induction hg with
  | empty => exact consistent_empty
  | request _ r ih => exact ih.edit r
  | setVertex _ h ih => exact ih.setVertex h

private theorem made_after (requests : List (Request α β)) : (after requests).Made := by
  refine Edit.tryAll_induction .empty fun x hx g hg => ?_
  obtain ⟨r, -, rfl⟩ := List.mem_map.mp hx
  exact hg.request r

/-! ## Entering and leaving -/

private theorem enter_of_enters {visited stack order : List Nat}
    (h : Enters g.adjacency visited stack order) : g.enter visited stack = order := by
  induction h with
  | done => rw [enter]
  | pass hv _ ih => rw [enter, dif_pos hv, ih]
  | enter hv hnext _ ih =>
      obtain ⟨s, hs, rfl⟩ := Option.map_eq_some_iff.mp hnext
      rw [enter, dif_neg hv]
      split
      next hnone => exact absurd (hs.symm.trans hnone) (Option.some_ne_none _)
      next s' hs' =>
        obtain rfl := Option.some.inj (hs.symm.trans hs')
        exact congrArg _ ih

theorem leave_of_leaves {visited order : List Nat} {work : List Visit}
    (h : Leaves g.adjacency visited work order) : g.leave visited work = order := by
  induction h with
  | done => rw [leave]
  | leave _ ih => rw [leave, ih]
  | pass hv _ ih => rw [leave, dif_pos hv, ih]
  | enter hv hnext _ ih =>
      obtain ⟨s, hs, rfl⟩ := Option.map_eq_some_iff.mp hnext
      rw [leave, dif_neg hv]
      split
      next hnone => exact absurd (hs.symm.trans hnone) (Option.some_ne_none _)
      next s' hs' =>
        obtain rfl := Option.some.inj (hs.symm.trans hs')
        exact ih

/-! ## Marking -/

/-- The run that marks vertices when they are put on the stack. -/
inductive Spreads (g : Digraph α β) : SortedSet Nat → List Nat → SortedSet Nat → Prop where
  | done (seen : SortedSet Nat) : Spreads g seen [] seen
  | expand {seen final : SortedSet Nat} {stack ws : List Nat} {v : Nat}
      (hnext : g.adjacency v = some ws)
      (rest : Spreads g ((ws.filter (!seen.contains ·)).foldl add seen)
        ((ws.filter (!seen.contains ·)).reverse ++ stack) final) :
      Spreads g seen (v :: stack) final

private theorem mem_fresh {seen : SortedSet Nat} {ws : List Nat} {w : Nat} :
    w ∈ ws.filter (!seen.contains ·) ↔ w ∈ ws ∧ w ∉ seen := by
  rw [List.mem_filter, Bool.not_eq_true', ← contains_iff, Bool.not_eq_true]

/-- The vertices that are not marked. -/
def unmarked (g : Digraph α β) (seen : SortedSet Nat) : Finset Nat :=
  g.vertices.keys.toFinset.filter fun v => seen.contains v = false

private theorem mem_unmarked {seen : SortedSet Nat} {v : Nat} :
    v ∈ g.unmarked seen ↔ v ∈ g.vertices ∧ v ∉ seen := by
  rw [unmarked, Finset.mem_filter, List.mem_toFinset, ← Bool.not_eq_true, contains_iff]
  rfl

/-- A round marks as many vertices as it puts on the stack. -/
theorem card_unmarked_foldl {seen : SortedSet Nat} {fresh : List Nat} (hnodup : fresh.Nodup)
    (hfresh : ∀ w ∈ fresh, w ∈ g.vertices ∧ w ∉ seen) :
    fresh.length + (g.unmarked (fresh.foldl SortedSet.add seen)).card =
      (g.unmarked seen).card := by
  have hsubset : fresh.toFinset ⊆ g.unmarked seen := by
    intro w hw
    exact mem_unmarked.mpr (hfresh w (List.mem_toFinset.mp hw))
  have hrest : g.unmarked (fresh.foldl add seen) = g.unmarked seen \ fresh.toFinset := by
    ext w
    rw [Finset.mem_sdiff, mem_unmarked, mem_unmarked, mem_foldl_add, List.mem_toFinset]
    tauto
  calc fresh.length + (g.unmarked (fresh.foldl add seen)).card
      = fresh.toFinset.card + (g.unmarked seen \ fresh.toFinset).card := by
        rw [hrest, List.toFinset_card_of_nodup hnodup]
    _ = (g.unmarked seen \ fresh.toFinset).card + fresh.toFinset.card := Nat.add_comm ..
    _ = (g.unmarked seen).card := Finset.card_sdiff_add_card_eq_card hsubset

private theorem Consistent.spreads (hg : g.Consistent) {rounds : Nat} {seen : SortedSet Nat}
    {stack : List Nat} (hstack : ∀ v ∈ stack, v ∈ g.vertices)
    (hrounds : stack.length + (g.unmarked seen).card ≤ rounds) :
    g.Spreads seen stack (g.spread rounds seen stack) := by
  induction rounds generalizing seen stack with
  | zero =>
      obtain rfl : stack = [] := List.eq_nil_of_length_eq_zero (by omega)
      exact .done seen
  | succ rounds ih =>
      cases stack with
      | nil => exact .done seen
      | cons v stack =>
          obtain ⟨hv, hstack⟩ := List.forall_mem_cons.mp hstack
          obtain ⟨ws, hws, hsorted, -, hvertices⟩ := hg.exists_adjacency hv
          have hfresh : ∀ w ∈ ws.filter (!seen.contains ·), w ∈ g.vertices ∧ w ∉ seen := by
            intro w hw
            obtain ⟨hw, hnew⟩ := mem_fresh.mp hw
            exact ⟨hvertices w hw, hnew⟩
          have hnodup : (ws.filter (!seen.contains ·)).Nodup :=
            (hsorted.imp fun h => h.ne).filter _
          have hcount := card_unmarked_foldl hnodup hfresh
          have hround : g.spread (rounds + 1) seen (v :: stack) =
              g.spread rounds ((ws.filter (!seen.contains ·)).foldl add seen)
                ((ws.filter (!seen.contains ·)).reverse ++ stack) := by
            have hkeys : ((g.successors.get? v).map keys).getD [] = ws :=
              congrArg (·.getD []) hws
            rw [spread, hkeys]
          rw [hround]
          refine .expand hws (ih ?_ ?_)
          · intro w hw
            rcases List.mem_append.mp hw with hw | hw
            · exact (hfresh w (List.mem_reverse.mp hw)).1
            · exact hstack w hw
          · rw [List.length_append, List.length_reverse]
            rw [List.length_cons] at hrounds
            omega

namespace Spreads

variable {seen final : SortedSet Nat} {stack : List Nat}

theorem subset (h : g.Spreads seen stack final) : ∀ v ∈ seen, v ∈ final := by
  induction h with
  | done => exact fun v hv => hv
  | expand _ _ ih => exact fun v hv => ih v (mem_foldl_add.mpr (Or.inl hv))

/-- Whatever is marked can be reached, if all was that is marked already or on the stack. -/
theorem reached (h : g.Spreads seen stack final)
    (hseen : ∀ v ∈ seen, ReflTransGen (Leads g.adjacency) root v)
    (hstack : ∀ v ∈ stack, ReflTransGen (Leads g.adjacency) root v) :
    ∀ v ∈ final, ReflTransGen (Leads g.adjacency) root v := by
  induction h with
  | done => exact hseen
  | @expand seen final stack ws v hnext _ ih =>
      obtain ⟨hv, hstack⟩ := List.forall_mem_cons.mp hstack
      have hfresh : ∀ w ∈ ws.filter (!seen.contains ·),
          ReflTransGen (Leads g.adjacency) root w :=
        fun w hw => hv.tail ⟨ws, hnext, (mem_fresh.mp hw).1⟩
      refine ih ?_ ?_
      · intro w hw
        exact (mem_foldl_add.mp hw).elim (hseen w) (hfresh w)
      · intro w hw
        exact (List.mem_append.mp hw).elim (fun hw => hfresh w (List.mem_reverse.mp hw)) (hstack w)

/-- What the vertices on the stack lead to is marked in the end, and so is what a vertex leads to
that is marked later. -/
theorem closed (h : g.Spreads seen stack final) :
    ∀ v ∈ final, v ∈ stack ∨ v ∉ seen → ∀ w, Leads g.adjacency v w → w ∈ final := by
  induction h with
  | done => exact fun v hv hnew => absurd hv (hnew.resolve_left List.not_mem_nil)
  | @expand seen final stack ws v hnext rest ih =>
      intro u hu hnew w hw
      -- The vertex that is taken from the stack is done with in this round, all others later.
      by_cases huv : u = v
      · subst huv
        obtain ⟨ws', hnext', hw⟩ := hw
        obtain rfl := Option.some.inj (hnext.symm.trans hnext')
        refine rest.subset w (mem_foldl_add.mpr ?_)
        by_cases hmarked : w ∈ seen
        · exact Or.inl hmarked
        · exact Or.inr (mem_fresh.mpr ⟨hw, hmarked⟩)
      · refine ih u hu ?_ w hw
        rcases hnew with hstack | hnew
        · exact Or.inl (List.mem_append_right _ ((List.mem_cons.mp hstack).resolve_left huv))
        · by_cases hfresh : u ∈ ws.filter (!seen.contains ·)
          · exact Or.inl (List.mem_append_left _ (List.mem_reverse.mpr hfresh))
          · exact Or.inr fun hmem => (mem_foldl_add.mp hmem).elim hnew hfresh

theorem mem_iff (h : g.Spreads (.singleton root) [root] final) {v : Nat} :
    v ∈ final ↔ ReflTransGen (Leads g.adjacency) root v := by
  constructor
  · intro hv
    refine h.reached ?_ ?_ v hv
    · intro u hu
      obtain rfl := mem_singleton.mp hu
      exact .refl
    · intro u hu
      obtain rfl := List.mem_singleton.mp hu
      exact .refl
  · intro hreach
    induction hreach with
    | refl => exact h.subset root (mem_singleton.mpr rfl)
    | @tail u w _ hstep ih =>
        refine h.closed u ih ?_ w hstep
        rw [List.mem_singleton, mem_singleton]
        exact em _

end Spreads

/-! ## The traversals together -/

/-- What the traversals from a root find in a graph: the vertices as they are entered and as they
are left, the set of those that are reached, and the others. -/
structure Searched (g : Digraph α β) (root : Nat) (entered left : List Nat)
    (reached : SortedSet Nat) (others : List Nat) : Prop where
  /-- Both orders are those of one recursive search. -/
  search : Explores g.adjacency [] [root] entered left
  unique : ∀ entered' left', Explores g.adjacency [] [root] entered' left' →
    entered' = entered ∧ left' = left
  /-- The search takes the tails of the edges of a vertex in ascending order. -/
  ascending : ∀ v ∈ g.vertices, ∃ ws, g.adjacency v = some ws ∧ ws.Pairwise (· < ·) ∧
    ∀ w, w ∈ ws ↔ g.Adjacent v w
  nodup_entered : entered.Nodup
  nodup_left : left.Nodup
  mem_entered : ∀ v, v ∈ entered ↔ v ∈ reached
  mem_left : ∀ v, v ∈ left ↔ v ∈ reached
  mem_reached : ∀ v, v ∈ reached ↔ ReflTransGen g.Adjacent root v
  mem_others : ∀ v, v ∈ others ↔ v ∈ g.vertices ∧ v ∉ reached
  sorted_others : others.Pairwise (· < ·)
  /-- The tail of an edge is left before its head, unless it leads back. -/
  before : ∀ u v, g.Adjacent u v → u ∈ left → v ∈ left →
    [v, u].Sublist left ∨ ReflTransGen g.Adjacent v u
  /-- None of the runs meets a vertex whose successors are missing, and each of them ends. -/
  enters : Enters g.adjacency [] [root] entered
  leaves : Leaves g.adjacency [] [.enter root] left
  spreads : g.Spreads (.singleton root) [root] reached

private theorem Consistent.searched (hg : g.Consistent) (hroot : root ∈ g.vertices) :
    ∃ entered left reached, Explores g.adjacency [] [root] entered left ∧
      g.Spreads (.singleton root) [root] reached ∧ g.preOrder root = .ok entered ∧
      g.postOrder root = .ok left ∧ g.reachable root = .ok reached ∧
      g.unreachable root = .ok (g.vertices.keys.filter (!reached.contains ·)) := by
  have hcheck : g.checkRoot root = .ok () := if_pos (hasVertex_iff.mpr hroot)
  have hvertices : ∀ v ∈ g.vertices.keys.toFinset, ∃ ws, g.adjacency v = some ws ∧
      ∀ w ∈ ws, w ∈ g.vertices.keys.toFinset := by
    intro v hv
    obtain ⟨ws, hws, -, -, hvertices⟩ := hg.exists_adjacency (List.mem_toFinset.mp hv)
    exact ⟨ws, hws, fun w hw => List.mem_toFinset.mpr (hvertices w hw)⟩
  obtain ⟨entered, left, hsearch⟩ := exists_explores hvertices [] [root]
    (List.forall_mem_singleton.mpr (List.mem_toFinset.mpr hroot))
  have hspreads : g.Spreads (.singleton root) [root]
      (g.spread g.vertices.size (.singleton root) [root]) := by
    refine hg.spreads (by simpa using hroot) ?_
    -- At first all vertices but the root are not marked, and the root is on the stack.
    have hcount : [root].length + (g.unmarked ([root].foldl add .empty)).card =
        (g.unmarked .empty).card :=
      card_unmarked_foldl (List.nodup_singleton root) (by simpa using hroot)
    have hall : (g.unmarked .empty).card ≤ g.vertices.size := by
      rw [← card_keys]
      exact Finset.card_filter_le _ _
    exact hcount.le.trans hall
  have hreachable : g.reachable root =
      .ok (g.spread g.vertices.size (.singleton root) [root]) := by
    unfold reachable
    rw [hcheck]
    rfl
  refine ⟨entered, left, _, hsearch, hspreads, ?_, ?_, hreachable, ?_⟩
  · unfold preOrder
    rw [hcheck, enter_of_enters hsearch.enters]
    rfl
  · unfold postOrder
    rw [hcheck, leave_of_leaves hsearch.leaves]
    rfl
  · unfold unreachable
    rw [hreachable]
    rfl

/-- In a graph that was made by changing the empty one, the traversals from a vertex succeed.  The
orders in which they enter and leave vertices are the orders in which one recursive search discovers
and finishes them, both have exactly the vertices that are reached, and no traversal meets a vertex
whose successors are missing. -/
theorem Made.exists_searched (hg : g.Made) (hroot : root ∈ g.vertices) :
    ∃ entered left reached others, g.preOrder root = .ok entered ∧
      g.postOrder root = .ok left ∧ g.reachable root = .ok reached ∧
      g.unreachable root = .ok others ∧ g.Searched root entered left reached others := by
  have hg := hg.consistent
  obtain ⟨entered, left, reached, hsearch, hspreads, hentered, hleft, hreached, hothers⟩ :=
    hg.searched hroot
  refine ⟨entered, left, reached, _, hentered, hleft, hreached, hothers, ?_⟩
  have hmem : ∀ v, v ∈ entered ↔ v ∈ reached := fun v =>
    calc v ∈ entered
        ↔ ReflTransGen (Leads g.adjacency) root v := hsearch.mem_iff
      _ ↔ v ∈ reached := hspreads.mem_iff.symm
  have hnodup := hsearch.nodup.1
  exact {
    search := hsearch
    unique := fun _ _ h => hsearch.unique h
    ascending := fun v hv => by
      obtain ⟨ws, hws, hsorted, hadjacent, -⟩ := hg.exists_adjacency hv
      exact ⟨ws, hws, hsorted, hadjacent⟩
    nodup_entered := hnodup
    nodup_left := hsearch.perm.nodup_iff.mp hnodup
    mem_entered := hmem
    mem_left := fun v => hsearch.perm.mem_iff.symm.trans (hmem v)
    mem_reached := fun v => by
      rw [← hg.leads_eq]
      exact hspreads.mem_iff
    mem_others := fun v => mem_fresh
    sorted_others := by
      refine List.Pairwise.filter _ (List.pairwise_map.mpr ?_)
      exact g.vertices.sorted.imp fun h => Nat.compare_eq_lt.mp h
    before := fun u v hedge hu _ => by
      rw [← hg.leads_eq]
      exact (hsearch.finished_before u hu v (hg.leads_iff.mpr hedge)).resolve_left List.not_mem_nil
    enters := hsearch.enters
    leaves := hsearch.leaves
    spreads := hspreads }

/-- A vertex with two successors, of which the first leads to the second and to a cycle, and a
vertex that nothing leads to. -/
def acrossAndBack : List (Request Unit Unit) :=
  [.insertVertex 0 (), .insertVertex 1 (), .insertVertex 2 (), .insertVertex 3 (),
    .insertVertex 4 (), .insertEdge 0 1 (), .insertEdge 0 2 (), .insertEdge 1 2 (),
    .insertEdge 1 3 (), .insertEdge 3 1 (), .insertEdge 2 0 (), .insertEdge 4 0 ()]

/-- The second successor waits on the stack twice and is left before the first one. -/
theorem Made.exists_searched_acrossAndBack :
    let g := after acrossAndBack
    g.preOrder 0 = .ok [0, 1, 2, 3] ∧ g.postOrder 0 = .ok [2, 3, 1, 0] ∧
      g.unreachable 0 = .ok [4] ∧
      ∃ reached, g.reachable 0 = .ok reached ∧ reached.keys = [0, 1, 2, 3] ∧
        g.Searched 0 [0, 1, 2, 3] [2, 3, 1, 0] reached [4] := by
  intro g
  have hsearch : Explores g.adjacency [] [0] [0, 1, 2, 3] [2, 3, 1, 0] := by
    have htwo : Explores g.adjacency [1, 0] [2, 3] [2, 3] [2, 3] :=
      @Explores.visit _ _ [3] [0] [] [] [3] [3] 2 (by decide) (by decide)
        (.pass (by decide) (.nil _))
        (@Explores.visit _ _ [] [1] [] [] [] [] 3 (by decide) (by decide)
          (.pass (by decide) (.nil _)) (.nil _))
    have hone : Explores g.adjacency [0] [1, 2] [1, 2, 3] [2, 3, 1] :=
      @Explores.visit _ _ [2] [2, 3] [2, 3] [2, 3] [] [] 1 (by decide) (by decide) htwo
        (.pass (by decide) (.nil _))
    exact @Explores.visit _ _ [] [1, 2] [1, 2, 3] [2, 3, 1] [] [] 0 (by decide) (by decide) hone
      (.nil _)
  have hroot : 0 ∈ g.vertices := hasVertex_iff.mp (by decide)
  obtain ⟨entered, left, reached, others, hentered, hleft, hreached, hothers, hsearched⟩ :=
    Made.exists_searched (made_after acrossAndBack) hroot
  obtain ⟨rfl, rfl⟩ := hsearched.unique _ _ hsearch
  have hfound : g.reachable 0 = .ok (g.spread g.vertices.size (.singleton 0) [0]) := rfl
  obtain rfl := Except.ok.inj (hreached.symm.trans hfound)
  obtain rfl : [4] = others := Except.ok.inj (Eq.trans (by decide) hothers)
  exact ⟨hentered, hleft, hothers, _, hreached, by decide, hsearched⟩

end CilAnalysis.Digraph
