import CilAnalysis.Proofs.Digraph
import CilAnalysis.Proofs.Edit

/-!
# The views of a graph agree

A graph says three times which edges there are: in its edges, in the successors of their heads and
in the predecessors of their tails.  A change brings these up to date one after the other, and the
removal of a vertex takes its edges away one by one.  After any changes, accepted or refused, the
three agree again (`Digraph.Consistent`).

## Strategy

The neighbours are seen through `Digraph.Lists`: whether one number stands in the set of another.
One lemma for each change of such a map says what it lists afterwards, and the changes of a graph
are put together from these.

* The removal of an edge keeps successors and predecessors in agreement with the edges whether or
  not its ends are still vertices.  This part of consistency has a name of its own
  (`Digraph.Linked`), because in the middle of the removal of a vertex it is all there is: the
  vertex is already gone, but its edges are not.
* The removal of a vertex goes through the arcs that leave or enter it.  These are distinct
  (`Digraph.nodup_incidentArcs`; a loop counts among those that leave), and each is still stored
  when its turn comes.  This is why the removal does not fail half-way
  (`Digraph.InPlace.run_forM_removeEdge`).
-/

namespace CilAnalysis.Digraph

open SortedMap

variable {α β : Type} {g g' : Digraph α β}

/-! ## Neighbours -/

/-- Whether `x` stands in the set of `k`. -/
def Lists (m : SortedMap Nat (SortedSet Nat)) (k x : Nat) : Prop := ∃ s, m.get? k = some s ∧ x ∈ s

section Lists

variable {m : SortedMap Nat (SortedSet Nat)} {k k' x y : Nat}

private theorem lists_insert_empty (hk : k ∉ m) :
    Lists (m.insert k .empty) k' x ↔ Lists m k' x := by
  unfold Lists
  rw [get?_insert]
  split
  next heq =>
    subst heq
    simp [notMem_iff_get?.mp hk]
  next => rfl

private theorem lists_erase : Lists (m.erase k) k' x ↔ k' ≠ k ∧ Lists m k' x := by
  unfold Lists
  rw [get?_erase]
  split <;> simp_all

private theorem lists_modify_add (hk : k ∈ m) :
    Lists (m.modify k (SortedSet.add · y)) k' x ↔ (k' = k ∧ x = y) ∨ Lists m k' x := by
  obtain ⟨s, hs⟩ := mem_iff_get?.mp hk
  unfold Lists
  rw [get?_modify]
  split
  next heq =>
    subst heq
    simp [hs]
  next hne => simp [hne]

private theorem lists_modify_erase :
    Lists (m.modify k (SortedMap.erase · y)) k' x ↔ ¬ (k' = k ∧ x = y) ∧ Lists m k' x := by
  unfold Lists
  rw [get?_modify]
  split
  next heq =>
    subst heq
    cases m.get? k' <;> simp [mem_erase]
  next hne => simp [hne]

end Lists

/-- The successors and the predecessors are those of the stored edges. -/
structure Linked (g : Digraph α β) : Prop where
  successor_iff : ∀ head tail, Lists g.successors head tail ↔ ⟨head, tail⟩ ∈ g.edges
  predecessor_iff : ∀ head tail, Lists g.predecessors tail head ↔ ⟨head, tail⟩ ∈ g.edges

/-- A graph whose vertices, edges and neighbours agree. -/
structure Consistent (g : Digraph α β) : Prop extends Linked g where
  successor_keys : g.successors.keys = g.vertices.keys
  predecessor_keys : g.predecessors.keys = g.vertices.keys
  ends : ∀ arc ∈ g.edges, arc.head ∈ g.vertices ∧ arc.tail ∈ g.vertices

theorem consistent_empty : (empty : Digraph α β).Consistent where
  successor_iff := by simp [empty, Lists]
  predecessor_iff := by simp [empty, Lists]
  successor_keys := rfl
  predecessor_keys := rfl
  ends := by simp [empty]

namespace Consistent

theorem mem_successors (hg : g.Consistent) {v : Nat} : v ∈ g.successors ↔ v ∈ g.vertices := by
  rw [mem_def, mem_def, hg.successor_keys]

theorem mem_predecessors (hg : g.Consistent) {v : Nat} : v ∈ g.predecessors ↔ v ∈ g.vertices := by
  rw [mem_def, mem_def, hg.predecessor_keys]

end Consistent

/-! ## Additions -/

theorem Consistent.insertVertex (hg : g.Consistent) {v : Nat} {a : α}
    (h : g.insertVertex v a = .ok g') : g'.Consistent := by
  have hnew := (insertVertex_eq_ok h).1
  unfold Digraph.insertVertex at h
  split at h
  next => cases h
  next =>
    cases h
    have hsucc : v ∉ g.successors := fun hmem => hnew (hg.mem_successors.mp hmem)
    have hpred : v ∉ g.predecessors := fun hmem => hnew (hg.mem_predecessors.mp hmem)
    exact {
      successor_iff := fun head tail =>
        (lists_insert_empty hsucc).trans (hg.successor_iff head tail)
      predecessor_iff := fun head tail =>
        (lists_insert_empty hpred).trans (hg.predecessor_iff head tail)
      successor_keys := keys_congr fun w => by
        rw [mem_insert, mem_insert, hg.mem_successors]
      predecessor_keys := keys_congr fun w => by
        rw [mem_insert, mem_insert, hg.mem_predecessors]
      ends := fun arc harc =>
        (hg.ends arc harc).imp (fun h => mem_insert.mpr (.inr h))
          fun h => mem_insert.mpr (.inr h) }

theorem Consistent.insertEdge (hg : g.Consistent) {head tail : Nat} {b : β}
    (h : g.insertEdge head tail b = .ok g') : g'.Consistent := by
  obtain ⟨hhead, htail, -, -⟩ := insertEdge_eq_ok h
  unfold Digraph.insertEdge at h
  split at h
  next => cases h
  next =>
    split at h
    next => cases h
    next =>
      split at h
      next => cases h
      next =>
        cases h
        refine ⟨⟨fun head' tail' => ?_, fun head' tail' => ?_⟩, ?_, ?_, fun arc harc => ?_⟩
        · rw [lists_modify_add (hg.mem_successors.mpr hhead), hg.successor_iff,
            mem_insert, Arc.mk.injEq]
        · rw [lists_modify_add (hg.mem_predecessors.mpr htail), hg.predecessor_iff,
            mem_insert, Arc.mk.injEq, and_comm]
        · exact (keys_modify _ _ _).trans hg.successor_keys
        · exact (keys_modify _ _ _).trans hg.predecessor_keys
        · rcases mem_insert.mp harc with rfl | hold
          · exact ⟨hhead, htail⟩
          · exact hg.ends arc hold

/-! ## Removals -/

theorem Linked.eraseEdge (hg : g.Linked) (arc : Arc) : (g.eraseEdge arc).Linked := by
  obtain ⟨head, tail⟩ := arc
  refine ⟨fun head' tail' => ?_, fun head' tail' => ?_⟩
  · unfold Digraph.eraseEdge
    rw [lists_modify_erase, hg.successor_iff, mem_erase, ne_eq, Arc.mk.injEq]
  · unfold Digraph.eraseEdge
    rw [lists_modify_erase, hg.predecessor_iff, mem_erase, ne_eq, Arc.mk.injEq,
      and_comm (a := tail' = tail)]

/-- Without one of its edges a graph still has the ends of the others. -/
theorem Consistent.eraseEdge (hg : g.Consistent) (arc : Arc) : (g.eraseEdge arc).Consistent where
  toLinked := hg.toLinked.eraseEdge arc
  successor_keys := (keys_modify _ _ _).trans hg.successor_keys
  predecessor_keys := (keys_modify _ _ _).trans hg.predecessor_keys
  ends := fun _ hother => hg.ends _ (mem_erase.mp hother).2

/-- What is left when edges are taken away one after the other. -/
theorem foldl_eraseEdge (arcs : List Arc) (g : Digraph α β) :
    (arcs.foldl eraseEdge g).vertices = g.vertices ∧
      (arcs.foldl eraseEdge g).successors.keys = g.successors.keys ∧
      (arcs.foldl eraseEdge g).predecessors.keys = g.predecessors.keys ∧
      ∀ arc, (arcs.foldl eraseEdge g).edges.get? arc =
        if arc ∈ arcs then none else g.edges.get? arc := by
  induction arcs generalizing g with
  | nil => simp
  | cons first rest ih =>
      obtain ⟨hvertices, hsucc, hpred, hedges⟩ := ih (g.eraseEdge first)
      refine ⟨hvertices, hsucc.trans (keys_modify _ _ _),
        hpred.trans (keys_modify _ _ _), fun arc => ?_⟩
      rw [List.foldl_cons, hedges, eraseEdge, get?_erase]
      by_cases hfirst : arc = first <;> simp [hfirst]

private theorem mem_incidentArcs (hg : g.Linked) (v : Nat) (arc : Arc) :
    arc ∈ g.incidentArcs v ↔ (arc.head = v ∨ arc.tail = v) ∧ arc ∈ g.edges := by
  have hlist : ∀ (m : SortedMap Nat (SortedSet Nat)) (x : Nat),
      x ∈ ((m.get? v).map keys).getD [] ↔ Lists m v x := by
    intro m x
    unfold Lists
    cases m.get? v <;> simp [mem_def]
  obtain ⟨head, tail⟩ := arc
  simp only [incidentArcs, List.mem_append, List.mem_map, List.mem_filter, hlist, Arc.mk.injEq,
    decide_eq_true_eq]
  constructor
  · rintro (⟨_, htail, rfl, rfl⟩ | ⟨_, ⟨hhead, -⟩, rfl, rfl⟩)
    · exact ⟨.inl rfl, (hg.successor_iff _ _).mp htail⟩
    · exact ⟨.inr rfl, (hg.predecessor_iff _ _).mp hhead⟩
  · rintro ⟨hv, hmem⟩
    -- A loop at `v` is among the arcs that leave it, and only there.
    by_cases hhead : head = v
    · subst hhead
      exact .inl ⟨tail, (hg.successor_iff _ _).mpr hmem, rfl, rfl⟩
    · obtain rfl := hv.resolve_left hhead
      exact .inr ⟨head, ⟨(hg.predecessor_iff _ _).mpr hmem, hhead⟩, rfl, rfl⟩

private theorem nodup_incidentArcs (g : Digraph α β) (v : Nat) : (g.incidentArcs v).Nodup := by
  have hkeys : ∀ m : SortedMap Nat (SortedSet Nat),
      (((m.get? v).map keys).getD []).Nodup := by
    intro m
    cases m.get? v with
    | none => exact List.nodup_nil
    | some s => exact s.nodup_keys
  refine List.nodup_append'.mpr ⟨?_, ?_, ?_⟩
  · exact (hkeys _).map fun _ _ heq => (Arc.mk.inj heq).2
  · exact ((hkeys _).filter _).map fun _ _ heq => (Arc.mk.inj heq).1
  · intro arc hout hin
    obtain ⟨tail, -, rfl⟩ := List.mem_map.mp hout
    obtain ⟨head, hhead, heq⟩ := List.mem_map.mp hin
    exact of_decide_eq_true (List.mem_filter.mp hhead).2 (Arc.mk.inj heq).1

/-- The graph without a vertex and the arcs that leave or enter it. -/
def withoutVertex (g : Digraph α β) (v : Nat) : Digraph α β :=
  let bare := (g.incidentArcs v).foldl eraseEdge { g with vertices := g.vertices.erase v }
  { bare with
    successors := bare.successors.erase v
    predecessors := bare.predecessors.erase v }

@[simp] theorem vertices_withoutVertex (g : Digraph α β) (v : Nat) :
    (g.withoutVertex v).vertices = g.vertices.erase v := (foldl_eraseEdge _ _).1

theorem edges_withoutVertex (hg : g.Linked) (v : Nat) (arc : Arc) :
    (g.withoutVertex v).edges.get? arc =
      if arc.head = v ∨ arc.tail = v then none else g.edges.get? arc := by
  obtain ⟨-, -, -, hedges⟩ :=
    foldl_eraseEdge (g.incidentArcs v) { g with vertices := g.vertices.erase v }
  refine (hedges arc).trans ?_
  by_cases hv : arc.head = v ∨ arc.tail = v
  · rw [if_pos hv, ite_eq_left_iff, mem_incidentArcs hg]
    exact fun hnot => notMem_iff_get?.mp fun hmem => hnot ⟨hv, hmem⟩
  · rw [if_neg hv, if_neg fun hmem => hv ((mem_incidentArcs hg v arc).mp hmem).1]

private theorem Linked.foldl_eraseEdge (hg : g.Linked) (arcs : List Arc) :
    (arcs.foldl Digraph.eraseEdge g).Linked :=
  List.foldlRecOn arcs _ hg fun _ h arc _ => h.eraseEdge arc

theorem Consistent.withoutVertex (hg : g.Consistent) (v : Nat) :
    (g.withoutVertex v).Consistent := by
  have hlinked : ({ g with vertices := g.vertices.erase v } : Digraph α β).Linked :=
    ⟨hg.successor_iff, hg.predecessor_iff⟩
  have hbare := hlinked.foldl_eraseEdge (g.incidentArcs v)
  obtain ⟨-, hsucc, hpred, -⟩ :=
    Digraph.foldl_eraseEdge (g.incidentArcs v) { g with vertices := g.vertices.erase v }
  -- The arcs that are left have neither end at the vertex.
  have hkept : ∀ arc ∈ (g.withoutVertex v).edges, arc.head ≠ v ∧ arc.tail ≠ v ∧ arc ∈ g.edges := by
    intro arc harc
    obtain ⟨b, hb⟩ := mem_iff_get?.mp harc
    rw [edges_withoutVertex hg.toLinked] at hb
    split at hb
    next => cases hb
    next hends =>
      rw [not_or] at hends
      exact ⟨hends.1, hends.2, mem_iff_get?.mpr ⟨b, hb⟩⟩
  refine ⟨⟨fun head tail => ?_, fun head tail => ?_⟩, ?_, ?_, fun arc harc => ?_⟩
  · calc Lists (g.withoutVertex v).successors head tail
        ↔ head ≠ v ∧ Lists _ head tail := lists_erase
      _ ↔ head ≠ v ∧ ⟨head, tail⟩ ∈ (g.withoutVertex v).edges :=
          and_congr_right fun _ => hbare.successor_iff head tail
      _ ↔ ⟨head, tail⟩ ∈ (g.withoutVertex v).edges :=
          and_iff_right_of_imp fun harc => (hkept ⟨head, tail⟩ harc).1
  · calc Lists (g.withoutVertex v).predecessors tail head
        ↔ tail ≠ v ∧ Lists _ tail head := lists_erase
      _ ↔ tail ≠ v ∧ ⟨head, tail⟩ ∈ (g.withoutVertex v).edges :=
          and_congr_right fun _ => hbare.predecessor_iff head tail
      _ ↔ ⟨head, tail⟩ ∈ (g.withoutVertex v).edges :=
          and_iff_right_of_imp fun harc => (hkept ⟨head, tail⟩ harc).2.1
  · refine keys_congr fun w => ?_
    rw [vertices_withoutVertex, Digraph.withoutVertex, mem_erase, mem_erase,
      mem_def, hsucc, ← mem_def, hg.mem_successors]
  · refine keys_congr fun w => ?_
    rw [vertices_withoutVertex, Digraph.withoutVertex, mem_erase, mem_erase,
      mem_def, hpred, ← mem_def, hg.mem_predecessors]
  · obtain ⟨hhead, htail, hmem⟩ := hkept arc harc
    rw [vertices_withoutVertex, mem_erase, mem_erase]
    exact (hg.ends arc hmem).imp (.intro hhead) (.intro htail)

/-! ## Changes in place -/

namespace InPlace

theorem run_insertVertex (g : Digraph α β) (v : Nat) (a : α) :
    (insertVertex v a).run g = Edit.settle g ((g.insertVertex v a).map ((), ·)) := by
  unfold insertVertex Digraph.insertVertex
  by_cases hv : g.hasVertex v <;> simp [Edit.run_bind, hv, Edit.settle, Except.map]

theorem run_insertEdge (g : Digraph α β) (head tail : Nat) (b : β) :
    (insertEdge head tail b).run g = Edit.settle g ((g.insertEdge head tail b).map ((), ·)) := by
  unfold insertEdge Digraph.insertEdge
  by_cases hedge : g.hasEdge head tail <;> by_cases hhead : g.hasVertex head <;>
    by_cases htail : g.hasVertex tail <;>
    simp [Edit.run_bind, hedge, hhead, htail, Edit.settle, Except.map]

theorem run_removeEdge (g : Digraph α β) (head tail : Nat) :
    (removeEdge head tail).run g =
      Edit.settle g ((g.edge head tail).map (·, g.eraseEdge ⟨head, tail⟩)) := by
  unfold removeEdge
  rw [Edit.run_bind, Edit.run_ask]
  cases g.edge head tail <;> rfl

/-- Distinct arcs that are stored are all removed. -/
theorem run_forM_removeEdge {arcs : List Arc} (hnodup : arcs.Nodup)
    (hmem : ∀ arc ∈ arcs, arc ∈ g.edges) :
    (arcs.forM fun arc => do
      let _ ← removeEdge (α := α) (β := β) arc.head arc.tail).run g =
        (.ok (), arcs.foldl eraseEdge g) := by
  induction arcs generalizing g with
  | nil => rfl
  | cons first rest ih =>
      obtain ⟨hfirst, hrest⟩ := List.nodup_cons.mp hnodup
      obtain ⟨b, hb⟩ := mem_iff_get?.mp (hmem first List.mem_cons_self)
      have hstep : (removeEdge first.head first.tail).run g = (.ok b, g.eraseEdge first) := by
        rw [run_removeEdge, edge_eq_ok.mpr hb]
        rfl
      -- The other arcs are distinct from the first and so still stored.
      have hlater : ∀ arc ∈ rest, arc ∈ (g.eraseEdge first).edges := fun arc harc =>
        mem_erase.mpr
          ⟨fun heq => hfirst (heq ▸ harc), hmem arc (List.mem_cons_of_mem first harc)⟩
      rw [List.forM_eq_forM, List.forM_cons, bind_assoc, Edit.run_bind_ok hstep, pure_bind,
        ← List.forM_eq_forM, ih hrest hlater, List.foldl_cons]

/-- A vertex that exists is removed, whatever edges it has. -/
theorem run_removeVertex (hg : g.Linked) (v : Nat) :
    (removeVertex v).run g = Edit.settle g ((g.vertex v).map (·, g.withoutVertex v)) := by
  unfold removeVertex
  cases ha : g.vertex v with
  | error e =>
      have hask : (Edit.ask (·.vertex v)).run g = (.error e, g) := by rw [Edit.run_ask, ha]
      rw [Edit.run_bind_error hask]
      rfl
  | ok a =>
      have hask : (Edit.ask (·.vertex v)).run g = (.ok a, g) := by rw [Edit.run_ask, ha]
      have hloop := run_forM_removeEdge (g := { g with vertices := g.vertices.erase v })
        (nodup_incidentArcs _ v) fun arc harc => ((mem_incidentArcs hg v arc).mp harc).2
      rw [Edit.run_bind_ok hask, Edit.run_bind_ok (Edit.run_modify _ _),
        Edit.run_bind_ok (Edit.run_get _)]
      exact (Edit.run_bind_ok hloop _).trans rfl

end InPlace

end CilAnalysis.Digraph
