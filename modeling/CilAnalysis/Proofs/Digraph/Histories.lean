import CilAnalysis.Proofs.Digraph.Consistency

/-!
# Histories of a graph

The graphs that any requests make of the empty one, those among them that are refused included.
Their views agree, because each request keeps them in agreement, and so the questions about a vertex
are answered from the stored edges alone.  The main result is `Digraph.after_wellBehaved`.

## Strategy

* A request is carried out in place.  On a graph whose views agree it comes to the same as making
  the new graph first (`Digraph.Request.run_edit`), so that it is granted in full or refused with
  nothing changed.  When it is granted and what it leaves is said in terms of vertices and edges
  only (`Digraph.Request.Granted`, `Digraph.Request.Leaves`).
* Every request keeps the views in agreement (`Digraph.Consistent.edit`), and by induction they
  agree after any requests.
* The questions about a vertex are answered from the sets of neighbours.  Such a set has the far
  ends of the edges in ascending order, and that is the order in which the edges are stored: among
  arcs with one end in common the order is that of the other ends (`Digraph.keys_eq_farEnds`).  So
  the answers are lists of stored edges, with nothing missing and nothing out of place.
-/

namespace CilAnalysis

open SortedMap

private theorem Arc.compare_of_head_eq {a b : Arc} (h : a.head = b.head) :
    compare a b = compare a.tail b.tail := by
  have hself : compare b.head b.head = .eq := Std.ReflCmp.compare_self
  change (compare a.head b.head).then (compare a.tail b.tail) = _
  rw [h, hself, Ordering.eq_then]

private theorem Arc.compare_of_tail_eq {a b : Arc} (h : a.tail = b.tail) :
    compare a b = compare a.head b.head := by
  have hself : compare b.tail b.tail = .eq := Std.ReflCmp.compare_self
  change (compare a.head b.head).then (compare a.tail b.tail) = _
  rw [h, hself, Ordering.then_eq]

namespace Digraph

variable {α β : Type} {g g' : Digraph α β}

/-! ## Requests -/

/-- A request to change a graph. -/
inductive Request (α β : Type) where
  | insertVertex (index : Nat) (a : α)
  | insertEdge (head tail : Nat) (b : β)
  | removeEdge (head tail : Nat)
  | removeVertex (index : Nat)

namespace Request

/-- The change that a request asks for. -/
def edit : Request α β → Edit (Digraph α β) Unit
  | .insertVertex index a => InPlace.insertVertex index a
  | .insertEdge head tail b => InPlace.insertEdge head tail b
  | .removeEdge head tail => do let _ ← InPlace.removeEdge head tail
  | .removeVertex index => do let _ ← InPlace.removeVertex index

/-- When a request is granted. -/
def Granted (g : Digraph α β) : Request α β → Prop
  | .insertVertex index _ => index ∉ g.vertices
  | .insertEdge head tail _ => ⟨head, tail⟩ ∉ g.edges ∧ head ∈ g.vertices ∧ tail ∈ g.vertices
  | .removeEdge head tail => ⟨head, tail⟩ ∈ g.edges
  | .removeVertex index => index ∈ g.vertices

/-- The vertices that a granted request leaves. -/
def vertices (g : Digraph α β) : Request α β → SortedMap Nat α
  | .insertVertex index a => g.vertices.insert index a
  | .removeVertex index => g.vertices.erase index
  | .insertEdge _ _ _ | .removeEdge _ _ => g.vertices

/-- What a granted request leaves at an arc. -/
def edge? (g : Digraph α β) (arc : Arc) : Request α β → Option β
  | .insertVertex _ _ => g.edges.get? arc
  | .insertEdge head tail b => if arc = ⟨head, tail⟩ then some b else g.edges.get? arc
  | .removeEdge head tail => if arc = ⟨head, tail⟩ then none else g.edges.get? arc
  | .removeVertex index =>
    if arc.head = index ∨ arc.tail = index then none else g.edges.get? arc

/-- A graph has the vertices and edges that a granted request leaves. -/
structure Leaves (r : Request α β) (g g' : Digraph α β) : Prop where
  vertices : g'.vertices = r.vertices g
  edges : ∀ arc, g'.edges.get? arc = r.edge? g arc

/-- The graph that a request makes of one whose views agree. -/
def result (g : Digraph α β) : Request α β → Except Error (Digraph α β)
  | .insertVertex index a => g.insertVertex index a
  | .insertEdge head tail b => g.insertEdge head tail b
  | .removeEdge head tail => (g.edge head tail).map fun _ => g.eraseEdge ⟨head, tail⟩
  | .removeVertex index => (g.vertex index).map fun _ => g.withoutVertex index

theorem run_edit (hg : g.Linked) (r : Request α β) :
    r.edit.run g = Edit.settle g ((r.result g).map ((), ·)) := by
  cases r with
  | insertVertex v a => exact InPlace.run_insertVertex g v a
  | insertEdge head tail b => exact InPlace.run_insertEdge g head tail b
  | removeEdge head tail =>
      simp only [edit, result, Edit.run_bind, InPlace.run_removeEdge]
      cases g.edge head tail <;> rfl
  | removeVertex v =>
      simp only [edit, result, Edit.run_bind, InPlace.run_removeVertex hg]
      cases g.vertex v <;> rfl

theorem exists_result_iff (g : Digraph α β) (r : Request α β) :
    (∃ g', r.result g = .ok g') ↔ r.Granted g := by
  cases r with
  | insertVertex v a =>
      simp only [result, Granted, Digraph.insertVertex, ← hasVertex_iff]
      split <;> simp_all
  | insertEdge head tail b =>
      simp only [result, Granted, Digraph.insertEdge, ← hasVertex_iff, ← hasEdge_iff]
      split
      next => simp_all
      next =>
        split
        next => simp_all
        next => split <;> simp_all
  | removeEdge head tail =>
      simp only [result, Granted, mem_iff_get?, ← edge_eq_ok]
      cases g.edge head tail <;> simp [Except.map]
  | removeVertex v =>
      simp only [result, Granted, mem_iff_get?, ← vertex_eq_ok]
      cases g.vertex v <;> simp [Except.map]

private theorem result_leaves (hg : g.Linked) {r : Request α β} (h : r.result g = .ok g') :
    r.Leaves g g' := by
  cases r with
  | insertVertex v a =>
      obtain ⟨-, hvertices, hedges⟩ := insertVertex_eq_ok h
      exact ⟨hvertices, fun arc => congrArg (·.get? arc) hedges⟩
  | insertEdge head tail b =>
      obtain ⟨-, -, hvertices, hedges⟩ := insertEdge_eq_ok h
      refine ⟨hvertices, fun arc => ?_⟩
      rw [hedges, get?_insert]
      rfl
  | removeEdge head tail =>
      obtain ⟨b, -, rfl⟩ := exists_of_map_eq_ok h
      exact ⟨rfl, fun arc => get?_erase _ _ _⟩
  | removeVertex v =>
      obtain ⟨a, -, rfl⟩ := exists_of_map_eq_ok h
      exact ⟨vertices_withoutVertex g v, edges_withoutVertex hg v⟩

end Request

theorem Consistent.result (hg : g.Consistent) {r : Request α β} (h : r.result g = .ok g') :
    g'.Consistent := by
  cases r with
  | insertVertex v a => exact hg.insertVertex h
  | insertEdge head tail b => exact hg.insertEdge h
  | removeEdge head tail =>
      obtain ⟨b, -, rfl⟩ := exists_of_map_eq_ok h
      exact hg.eraseEdge _
  | removeVertex v =>
      obtain ⟨a, -, rfl⟩ := exists_of_map_eq_ok h
      exact hg.withoutVertex v

/-- A request keeps the views in agreement, whether it is granted or not. -/
theorem Consistent.edit (hg : g.Consistent) (r : Request α β) :
    (r.edit.run g).2.Consistent := by
  rw [Request.run_edit hg.toLinked]
  exact Edit.settle_induction hg fun g' h => hg.result h

theorem Consistent.outcome (hg : g.Consistent) (r : Request α β) :
    Edit.Outcome (r.Granted g) (r.Leaves g) g (r.edit.run g) := by
  rw [Request.run_edit hg.toLinked]
  exact Edit.outcome_settle (r.exists_result_iff g) fun g' h => Request.result_leaves hg.toLinked h

/-- The graph after requests were made of the empty one. -/
def after (requests : List (Request α β)) : Digraph α β :=
  Edit.tryAll empty (requests.map Request.edit)

private theorem consistent_after (requests : List (Request α β)) : (after requests).Consistent := by
  refine Edit.tryAll_induction consistent_empty fun x hx g hg => ?_
  obtain ⟨r, -, rfl⟩ := List.mem_map.mp hx
  exact hg.edit r

/-! ## Questions -/

/-- The edges whose arcs are accepted, in ascending order. -/
def edgesWith (g : Digraph α β) (p : Arc → Bool) : List (Arc × β) :=
  g.edges.entries.filter fun e => p e.1

private theorem mem_edgesWith {p : Arc → Bool} {e : Arc × β} :
    e ∈ g.edgesWith p ↔ g.edges.get? e.1 = some e.2 ∧ p e.1 = true := by
  rw [edgesWith, List.mem_filter, get?_eq_some_iff]

/-- The answers to the questions about a vertex. -/
structure Answers (g : Digraph α β) (v : Nat) : Prop where
  edgesOut : g.edgesOut v = .ok (g.edgesWith (·.head == v))
  edgesIn : g.edgesIn v = .ok (g.edgesWith (·.tail == v))
  successorsOf : g.successorsOf v = .ok ((g.edgesWith (·.head == v)).map (·.1.tail))
  predecessorsOf : g.predecessorsOf v = .ok ((g.edgesWith (·.tail == v)).map (·.1.head))

/-- A set that has the far ends of the accepted edges has them in the order of these edges. -/
theorem keys_eq_farEnds {s : SortedSet Nat} {p : Arc → Bool} {far : Arc → Nat}
    (hcompare : ∀ a b, p a → p b → compare a b = compare (far a) (far b))
    (hmem : ∀ x, x ∈ s ↔ ∃ arc ∈ g.edges, p arc ∧ far arc = x) :
    s.keys = (g.edgesWith p).map fun e => far e.1 := by
  refine eq_of_ascending (f := id) (List.pairwise_map.mpr s.sorted) ?_ fun x => ?_
  · refine List.pairwise_map.mpr ((g.edges.sorted.filter _).imp_of_mem fun he he' hlt => ?_)
    exact (hcompare _ _ (mem_edgesWith.mp he).2 (mem_edgesWith.mp he').2).symm.trans hlt
  · refine (hmem x).trans ?_
    simp only [mem_iff_get?, List.mem_map, mem_edgesWith, Prod.exists]
    grind

/-- Where every edge can be made of its far end, the edges are made of their far ends. -/
theorem mapM_farEnds {edges : List (Arc × β)} (far : Arc → Nat) {f : Nat → Except Error (Arc × β)}
    (h : ∀ e ∈ edges, f (far e.1) = .ok e) : (edges.map fun e => far e.1).mapM f = .ok edges := by
  induction edges with
  | nil => rfl
  | cons e rest ih =>
      rw [List.map_cons, List.mapM_cons, h e List.mem_cons_self,
        ih fun e' he' => h e' (List.mem_cons_of_mem e he')]
      rfl

namespace Consistent

theorem successorsOf (hg : g.Consistent) {v : Nat} (hv : v ∈ g.vertices) :
    g.successorsOf v = .ok ((g.edgesWith (·.head == v)).map (·.1.tail)) := by
  obtain ⟨s, hs⟩ := mem_iff_get?.mp (hg.mem_successors.mpr hv)
  unfold Digraph.successorsOf
  rw [hs]
  refine congrArg _ (keys_eq_farEnds (fun a b ha hb => ?_) fun tail => ?_)
  · exact Arc.compare_of_head_eq ((beq_iff_eq.mp ha).trans (beq_iff_eq.mp hb).symm)
  · have hlists : Lists g.successors v tail ↔ tail ∈ s := by simp [Lists, hs]
    rw [← hlists, hg.successor_iff]
    refine ⟨fun h => ⟨_, h, beq_self_eq_true v, rfl⟩, ?_⟩
    rintro ⟨⟨head, _⟩, harc, hhead, rfl⟩
    exact beq_iff_eq.mp hhead ▸ harc

theorem predecessorsOf (hg : g.Consistent) {v : Nat} (hv : v ∈ g.vertices) :
    g.predecessorsOf v = .ok ((g.edgesWith (·.tail == v)).map (·.1.head)) := by
  obtain ⟨s, hs⟩ := mem_iff_get?.mp (hg.mem_predecessors.mpr hv)
  unfold Digraph.predecessorsOf
  rw [hs]
  refine congrArg _ (keys_eq_farEnds (fun a b ha hb => ?_) fun head => ?_)
  · exact Arc.compare_of_tail_eq ((beq_iff_eq.mp ha).trans (beq_iff_eq.mp hb).symm)
  · have hlists : Lists g.predecessors v head ↔ head ∈ s := by simp [Lists, hs]
    rw [← hlists, hg.predecessor_iff]
    refine ⟨fun h => ⟨_, h, beq_self_eq_true v, rfl⟩, ?_⟩
    rintro ⟨⟨_, tail⟩, harc, htail, rfl⟩
    exact beq_iff_eq.mp htail ▸ harc

/-- Each question about a vertex that exists is answered, and from the edges alone. -/
theorem answers (hg : g.Consistent) {v : Nat} (hv : v ∈ g.vertices) : g.Answers v where
  successorsOf := hg.successorsOf hv
  predecessorsOf := hg.predecessorsOf hv
  edgesOut := by
    unfold edgesOut
    rw [hg.successorsOf hv]
    refine mapM_farEnds Arc.tail fun e he => ?_
    obtain ⟨⟨head, tail⟩, b⟩ := e
    obtain ⟨hb, hhead⟩ := mem_edgesWith.mp he
    obtain rfl : head = v := beq_iff_eq.mp hhead
    rw [edge_eq_ok.mpr hb]
    rfl
  edgesIn := by
    unfold edgesIn
    rw [hg.predecessorsOf hv]
    refine mapM_farEnds Arc.head fun e he => ?_
    obtain ⟨⟨head, tail⟩, b⟩ := e
    obtain ⟨hb, htail⟩ := mem_edgesWith.mp he
    obtain rfl : tail = v := beq_iff_eq.mp htail
    rw [edge_eq_ok.mpr hb]
    rfl

end Consistent

/-- After any requests the views of a graph agree, and the next request, whatever it is, either does
what it asks for or leaves the graph as it is.  To remove a vertex that exists succeeds and takes
away this vertex and the edges that leave or enter it.  The questions about a vertex that exists are
answered with all its edges, in ascending order. -/
theorem after_wellBehaved (requests : List (Request α β)) :
    (after requests).Consistent ∧
      (∀ r : Request α β, Edit.Outcome (r.Granted (after requests)) (r.Leaves (after requests))
        (after requests) (r.edit.run (after requests))) ∧
      (∀ v a, (after requests).vertices.get? v = some a →
        ∃ g', (InPlace.removeVertex v).run (after requests) = (.ok a, g') ∧
          g'.vertices = (after requests).vertices.erase v ∧
          ∀ arc, g'.edges.get? arc =
            if arc.head = v ∨ arc.tail = v then none else (after requests).edges.get? arc) ∧
      ∀ v ∈ (after requests).vertices, (after requests).Answers v := by
  have hg := consistent_after requests
  refine ⟨hg, hg.outcome, fun v a ha => ⟨(after requests).withoutVertex v, ?_, ?_, ?_⟩,
    fun v hv => hg.answers hv⟩
  · rw [InPlace.run_removeVertex hg.toLinked, vertex_eq_ok.mpr ha]
    rfl
  · exact vertices_withoutVertex _ v
  · exact edges_withoutVertex hg.toLinked v

/-- Three vertices with edges both ways between the first two, a loop at the first and an edge from
the second to the third, and two requests that are refused. -/
def loopAndBack : List (Request Char Nat) :=
  [.insertVertex 1 'a', .insertVertex 2 'b', .insertEdge 1 2 12, .insertEdge 2 3 13,
    .insertEdge 2 1 21, .insertEdge 1 1 11, .insertVertex 2 'c', .insertVertex 3 'd',
    .insertEdge 2 3 23]

theorem after_wellBehaved_loopAndBack :
    (after loopAndBack).edgesOut 1 = .ok [(⟨1, 1⟩, 11), (⟨1, 2⟩, 12)] ∧
      (after loopAndBack).predecessorsOf 1 = .ok [1, 2] ∧
      ∃ g', (InPlace.removeVertex 1).run (after loopAndBack) = (.ok 'a', g') ∧
        g'.vertices.entries = [(2, 'b'), (3, 'd')] ∧
        g'.edges.get? ⟨1, 1⟩ = none ∧ g'.edges.get? ⟨2, 3⟩ = some 23 := by
  obtain ⟨-, -, hremove, hanswers⟩ := after_wellBehaved loopAndBack
  have hone : (after loopAndBack).vertices.get? 1 = some 'a' := by decide
  have hanswer := hanswers 1 (mem_iff_get?.mpr ⟨'a', hone⟩)
  obtain ⟨g', hrun, hvertices, hedges⟩ := hremove 1 'a' hone
  refine ⟨hanswer.edgesOut.trans (by decide), hanswer.predecessorsOf.trans (by decide), g', hrun,
    ?_, (hedges _).trans (by decide), (hedges _).trans (by decide)⟩
  rw [hvertices]
  decide

end Digraph

end CilAnalysis
