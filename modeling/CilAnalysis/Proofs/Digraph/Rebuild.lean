import CilAnalysis.Proofs.Digraph.Consistency

/-!
# Making a graph anew

A consistent graph is determined by its vertices and edges: the neighbours follow from them
(`Digraph.Consistent.sameShape`).  So a graph can be made anew by adding its vertices, with other
values or the same, and then its edges.  No edge is refused on the way, and a vertex only if there
is no value for it (`Digraph.insertVertices_eq_error`).

## Strategy

Vertices are added in ascending order, and none of them is there before, so that an addition can
fail for one reason only: there is no value for the vertex.  The additions then fail where the
values alone would, and the error is that of the least vertex without a value.

Edges are distinct and go between vertices that are there.  By induction all of them are added, and
what is stored in the end is what was stored before and the new edges (`Digraph.insertEdges_total`).
The induction needs that the edges still to come are distinct from the one that was just added.
-/

namespace CilAnalysis.Digraph

open SortedMap

variable {α β γ : Type}

/-! ## Neighbours follow from the edges -/

/-- Maps to sets with the same keys are equal if they list the same. -/
theorem eq_of_lists {m n : SortedMap Nat (SortedSet Nat)} (hkeys : m.keys = n.keys)
    (hlists : ∀ k x, Lists m k x ↔ Lists n k x) : m = n := by
  refine ext_get? fun k => ?_
  have hmem : k ∈ m ↔ k ∈ n := by rw [mem_def, mem_def, hkeys]
  cases hm : m.get? k with
  | none =>
      have hn : k ∉ n := mt hmem.mpr (notMem_iff_get?.mpr hm)
      exact (notMem_iff_get?.mp hn).symm
  | some s =>
      obtain ⟨t, hn⟩ := mem_iff_get?.mp (hmem.mp (mem_iff_get?.mpr ⟨s, hm⟩))
      have hst : s = t := SortedSet.ext_mem fun x => by simpa [Lists, hm, hn] using hlists k x
      rw [hn, hst]

theorem Consistent.sameShape {g : Digraph α β} {h : Digraph γ β} (hg : g.Consistent)
    (hh : h.Consistent) (hkeys : g.vertices.keys = h.vertices.keys) (hedges : g.edges = h.edges) :
    g.SameShape h where
  keys := hkeys
  edges := hedges
  successors := by
    refine eq_of_lists ?_ fun head tail => ?_
    · rw [hg.successor_keys, hh.successor_keys, hkeys]
    · rw [hg.successor_iff, hh.successor_iff, hedges]
  predecessors := by
    refine eq_of_lists ?_ fun tail head => ?_
    · rw [hg.predecessor_keys, hh.predecessor_keys, hkeys]
    · rw [hg.predecessor_iff, hh.predecessor_iff, hedges]

/-! ## Adding vertices -/

section Vertices

variable {g g' : Digraph α β} {ι : Type} {index : ι → Nat} {value : ι → Except Error α} {l : List ι}

private theorem exists_insertVertex {v : Nat} (hv : v ∉ g.vertices) (a : α) :
    ∃ g', g.insertVertex v a = .ok g' := by
  unfold insertVertex
  rw [if_neg fun hmem => hv (hasVertex_iff.mp hmem)]
  exact ⟨_, rfl⟩

theorem Consistent.insertVertices (hg : g.Consistent)
    (h : g.insertVertices index value l = .ok g') : g'.Consistent := by
  refine foldlM_induction (P := Consistent) ?_ hg h
  intro x _ g₁ g₂ hg₁ hstep
  obtain ⟨a, -, hadd⟩ := bind_eq_ok hstep
  exact hg₁.insertVertex hadd

/-- New vertices in ascending order are refused only for want of a value, and then for want of the
first. -/
theorem insertVertices_eq_error (hsorted : l.Pairwise fun x y => index x < index y)
    (hnew : ∀ x ∈ l, index x ∉ g.vertices) {e : Error} :
    g.insertVertices index value l = .error e ↔
      ∃ x ∈ l, value x = .error e ∧ ∀ y ∈ l, index y < index x → ∃ a, value y = .ok a := by
  have hok : ∀ x, (value x).map (fun _ => ()) = .ok () ↔ ∃ a, value x = .ok a := by
    intro x
    cases value x <;> simp [Except.map]
  have herror : ∀ x, (value x).map (fun _ => ()) = .error e ↔ value x = .error e := by
    intro x
    cases value x <;> simp [Except.map]
  -- The additions fail where the values alone would.
  have hchecks : g.insertVertices index value l = .error e ↔
      (l.forM fun x => (value x).map fun _ => ()) = .error e := by
    unfold insertVertices
    induction l generalizing g with
    | nil => simp [pure, Except.pure]
    | cons x rest ih =>
        obtain ⟨hfirst, hrest⟩ := List.pairwise_cons.mp hsorted
        rw [List.foldlM_cons, List.forM_eq_forM, List.forM_cons, ← List.forM_eq_forM]
        cases hx : value x with
        | error e' => simp [bind, Except.bind, Except.map]
        | ok a =>
            obtain ⟨g₁, hadd⟩ := exists_insertVertex (hnew x List.mem_cons_self) a
            have hlater : ∀ y ∈ rest, index y ∉ g₁.vertices := by
              intro y hy
              rw [(insertVertex_eq_ok hadd).2.1, mem_insert, not_or]
              exact ⟨(hfirst y hy).ne', hnew y (List.mem_cons_of_mem x hy)⟩
            have hstep : (Except.ok a >>= fun a => g.insertVertex (index x) a) = .ok g₁ := hadd
            rw [hstep]
            exact ih hrest hlater
  rw [hchecks, forM_eq_error_iff hsorted]
  simp only [hok, herror]

theorem insertVertices_total (hsorted : l.Pairwise fun x y => index x < index y)
    (hnew : ∀ x ∈ l, index x ∉ g.vertices) (hvalue : ∀ x ∈ l, ∃ a, value x = .ok a) :
    ∃ g', g.insertVertices index value l = .ok g' := by
  cases hrun : g.insertVertices index value l with
  | ok g' => exact ⟨g', rfl⟩
  | error e =>
      obtain ⟨x, hx, hfail, -⟩ := (insertVertices_eq_error hsorted hnew).mp hrun
      obtain ⟨a, ha⟩ := hvalue x hx
      cases hfail.symm.trans ha

end Vertices

/-! ## Adding edges -/

section Edges

variable {g g' : Digraph α β} {edges : List (Arc × β)}

theorem exists_insertEdge {arc : Arc} (harc : arc ∉ g.edges) (hhead : arc.head ∈ g.vertices)
    (htail : arc.tail ∈ g.vertices) (b : β) : ∃ g', g.insertEdge arc.head arc.tail b = .ok g' := by
  unfold insertEdge
  rw [if_neg fun hmem => harc (hasEdge_iff.mp hmem), hasVertex_iff.mpr hhead,
    hasVertex_iff.mpr htail]
  exact ⟨_, rfl⟩

theorem Consistent.insertEdges (hg : g.Consistent) (h : g.insertEdges edges = .ok g') :
    g'.Consistent :=
  foldlM_induction (P := Consistent) (fun _ _ _ _ hg₁ hadd => hg₁.insertEdge hadd) hg h

/-- Distinct new edges between vertices are all added. -/
theorem insertEdges_total (hnodup : (edges.map Prod.fst).Nodup) (hnew : ∀ e ∈ edges, e.1 ∉ g.edges)
    (hends : ∀ e ∈ edges, e.1.head ∈ g.vertices ∧ e.1.tail ∈ g.vertices) :
    ∃ g', g.insertEdges edges = .ok g' ∧ g'.vertices = g.vertices ∧
      ∀ arc b, g'.edges.get? arc = some b ↔ g.edges.get? arc = some b ∨ (arc, b) ∈ edges := by
  unfold insertEdges
  induction edges generalizing g with
  | nil => exact ⟨g, rfl, rfl, by simp⟩
  | cons e rest ih =>
      obtain ⟨hfirst, hrest⟩ := List.nodup_cons.mp hnodup
      -- The first edge is accepted, and leaves a graph that accepts the others.
      obtain ⟨hhead, htail⟩ := hends e List.mem_cons_self
      have harc := hnew e List.mem_cons_self
      obtain ⟨g₁, hadd⟩ := exists_insertEdge harc hhead htail e.2
      obtain ⟨-, -, hvertices, hedges⟩ := insertEdge_eq_ok hadd
      have hlater : ∀ e' ∈ rest, e'.1 ∉ g₁.edges := by
        intro e' he'
        rw [hedges, mem_insert, not_or]
        refine ⟨fun heq => hfirst ?_, hnew e' (List.mem_cons_of_mem e he')⟩
        exact List.mem_map.mpr ⟨e', he', heq⟩
      obtain ⟨g', hrun, hsame, hfound⟩ := ih hrest hlater fun e' he' =>
        hvertices ▸ hends e' (List.mem_cons_of_mem e he')
      refine ⟨g', ?_, hsame.trans hvertices, fun arc b => ?_⟩
      · rw [List.foldlM_cons, hadd]
        exact hrun
      · rw [hfound, hedges, get?_insert, List.mem_cons]
        by_cases heq : arc = e.1
        · subst heq
          have hnone : g.edges.get? e.1 = none := notMem_iff_get?.mp harc
          simp [hnone, Prod.ext_iff, eq_comm]
        · simp [heq, Prod.ext_iff]

end Edges

end CilAnalysis.Digraph
