import CilAnalysis.Digraph.Basic
import CilAnalysis.Proofs.Result
import CilAnalysis.Proofs.SortedMap

/-!
# Making graphs

What is found in a graph after a vertex or an edge was added.  The lemmas on single additions say of
a success which vertices and edges there are, and what must have been there before; those on lists
of vertices say the same for all of them together (`Digraph.insertVertices_eq_ok`).

Whether something can be added depends on the vertices and edges that there are and not on what
stands at the vertices: two graphs of the same shape accept the same additions, and have the same
shape again (`Digraph.SameShape.insertVertex`, `Digraph.SameShape.insertEdge`).  The graphs may have
values of different types, and an addition may put different values in them.

That the successors and predecessors which a graph keeps agree with its edges is another matter,
which is dealt with in the modules that build on this one.
-/

namespace CilAnalysis

open SortedMap

instance : Std.LawfulEqOrd Arc where
  compare_self := Std.ReflCmp.compare_self
  eq_of_compare := by
    rintro ⟨head, tail⟩ ⟨head', tail'⟩ h
    simp only [compare, compareLex, compareOn, Ordering.then_eq_eq] at h
    obtain rfl : head = head' := Std.LawfulEqOrd.eq_of_compare h.1
    obtain rfl : tail = tail' := Std.LawfulEqOrd.eq_of_compare h.2
    rfl

namespace Digraph

variable {α β γ : Type} {g g' : Digraph α β}

theorem hasVertex_iff {v : Nat} : g.hasVertex v = true ↔ v ∈ g.vertices := SortedMap.contains_iff

theorem hasEdge_iff {head tail : Nat} : g.hasEdge head tail = true ↔ ⟨head, tail⟩ ∈ g.edges :=
  contains_iff

theorem vertex_eq_ok {v : Nat} {a : α} : g.vertex v = .ok a ↔ g.vertices.get? v = some a := by
  unfold vertex
  cases g.vertices.get? v <;> simp

theorem edge_eq_ok {head tail : Nat} {b : β} :
    g.edge head tail = .ok b ↔ g.edges.get? ⟨head, tail⟩ = some b := by
  unfold edge
  cases g.edges.get? ⟨head, tail⟩ <;> simp

theorem insertVertex_eq_ok {v : Nat} {a : α} (h : g.insertVertex v a = .ok g') :
    v ∉ g.vertices ∧ g'.vertices = g.vertices.insert v a ∧ g'.edges = g.edges := by
  unfold insertVertex at h
  split at h
  next => cases h
  next hnew =>
    cases h
    exact ⟨fun hmem => hnew (hasVertex_iff.mpr hmem), rfl, rfl⟩

theorem insertEdge_eq_ok {head tail : Nat} {b : β} (h : g.insertEdge head tail b = .ok g') :
    head ∈ g.vertices ∧ tail ∈ g.vertices ∧ g'.vertices = g.vertices ∧
      g'.edges = g.edges.insert ⟨head, tail⟩ b := by
  unfold insertEdge at h
  split at h
  next => cases h
  next =>
    split at h
    next => cases h
    next hhead =>
      split at h
      next => cases h
      next htail =>
        cases h
        rw [Bool.not_eq_true, Bool.not_eq_false'] at hhead htail
        exact ⟨hasVertex_iff.mp hhead, hasVertex_iff.mp htail, rfl, rfl⟩

/-- After vertices were added one by one, those found are the ones from before and the new ones. -/
theorem insertVertices_eq_ok {ι : Type} {index : ι → Nat} {value : ι → Except Error α} {l : List ι}
    (h : g.insertVertices index value l = .ok g') :
    g'.edges = g.edges ∧ ∀ v a, g'.vertices.get? v = some a ↔
      g.vertices.get? v = some a ∨ ∃ x ∈ l, index x = v ∧ value x = .ok a := by
  unfold insertVertices at h
  induction l generalizing g with
  | nil =>
      cases h
      simp
  | cons x rest ih =>
      rw [List.foldlM_cons] at h
      obtain ⟨g₁, hstep, h⟩ := bind_eq_ok h
      obtain ⟨c, hvalue, hg₁⟩ := bind_eq_ok hstep
      obtain ⟨hnew, hvertices, hedges⟩ := insertVertex_eq_ok hg₁
      obtain ⟨ihedges, ihvertices⟩ := ih h
      refine ⟨ihedges.trans hedges, fun v a => ?_⟩
      rw [notMem_iff_get?] at hnew
      have hhead : g₁.vertices.get? v = some a ↔
          g.vertices.get? v = some a ∨ index x = v ∧ value x = .ok a := by
        rw [hvertices, get?_insert, hvalue]
        by_cases hv : v = index x
        · subst hv
          simp [hnew]
        · simp [hv, Ne.symm hv]
      calc g'.vertices.get? v = some a
          ↔ g₁.vertices.get? v = some a ∨ ∃ y ∈ rest, index y = v ∧ value y = .ok a :=
            ihvertices v a
        _ ↔ (g.vertices.get? v = some a ∨ index x = v ∧ value x = .ok a) ∨
              ∃ y ∈ rest, index y = v ∧ value y = .ok a := or_congr_left hhead
        _ ↔ g.vertices.get? v = some a ∨ ∃ y ∈ x :: rest, index y = v ∧ value y = .ok a := by
            rw [or_assoc, List.exists_mem_cons_iff]

theorem exists_value_of_insertVertices {ι : Type} {index : ι → Nat} {value : ι → Except Error α}
    {l : List ι} (h : g.insertVertices index value l = .ok g') {x : ι} (hx : x ∈ l) :
    ∃ a, value x = .ok a := by
  obtain ⟨_, _, hstep⟩ := exists_step_of_foldlM h hx
  obtain ⟨a, ha, -⟩ := bind_eq_ok hstep
  exact ⟨a, ha⟩

/-- Two graphs that differ at most in what stands at their vertices. -/
structure SameShape (g : Digraph α β) (h : Digraph γ β) : Prop where
  keys : g.vertices.keys = h.vertices.keys
  edges : g.edges = h.edges
  successors : g.successors = h.successors
  predecessors : g.predecessors = h.predecessors

namespace SameShape

variable {g : Digraph α β} {h : Digraph γ β}

theorem hasVertex (hgh : g.SameShape h) (v : Nat) : g.hasVertex v = h.hasVertex v := by
  rw [Bool.eq_iff_iff, hasVertex_iff, hasVertex_iff, mem_def, mem_def, hgh.keys]

theorem insertVertex (hgh : g.SameShape h) (v : Nat) (a : α) (c : γ) :
    SameOutcome SameShape (g.insertVertex v a) (h.insertVertex v c) := by
  unfold Digraph.insertVertex
  rw [hgh.hasVertex]
  split
  next => exact .error _
  next =>
    refine .ok ⟨keys_congr fun w => ?_, hgh.edges, ?_, ?_⟩
    · rw [mem_insert, mem_insert, mem_def, mem_def,
        hgh.keys]
    · exact congrArg (·.insert v .empty) hgh.successors
    · exact congrArg (·.insert v .empty) hgh.predecessors

theorem insertEdge (hgh : g.SameShape h) (head tail : Nat) (b : β) :
    SameOutcome SameShape (g.insertEdge head tail b) (h.insertEdge head tail b) := by
  unfold Digraph.insertEdge Digraph.hasEdge
  rw [hgh.hasVertex, hgh.hasVertex, hgh.edges, hgh.successors, hgh.predecessors]
  split
  next => exact .error _
  next =>
    split
    next => exact .error _
    next =>
      split
      next => exact .error _
      next => exact .ok ⟨hgh.keys, rfl, rfl, rfl⟩

end SameShape

end Digraph

end CilAnalysis
