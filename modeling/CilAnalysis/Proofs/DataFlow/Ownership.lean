import CilAnalysis.Proofs.DataFlow.Dependencies
import CilAnalysis.Proofs.Edit

/-!
# Ownership of stack dependencies

A dependency carries the node that owns it, and a collection takes only a dependency that carries
none.  Nothing else keeps a dependency from being in two collections at once, so that all five
changes of a collection have to set, check and clear the owner in the same way.

`StackDependencies.after_owned` says that they do.

## Strategy

What a change does is said position by position (`Request.slot?`), and what can be said against it
is one of three reasons (`Request.Objection`):

```text
request           brings a dependency   names a position   gives one back
push              yes                   no                 no
insert            yes                   yes, or the end    no
remove            no                    yes                yes
set               yes                   yes                yes
resize            no                    no                 no
```

Each change ends as these two tell (`ends_edit`, one lemma for each of the five), and all else
follows from that: the dependencies of a node are its own (`Request.Leaves.owned`), and one that is
given back can go to any node of the same graph (`Request.Leaves.accepts`).

A request works on one collection of a family and leaves the others alone (`Edit.within`), so that
an invariant of each collection is one of all of them, and the run lemma (`keeps_after`) is an
induction on the requests.
-/

namespace CilAnalysis

open Edit

namespace StackDependencies

variable {c c' : StackDependencies} {d : StackDependency}

/-- A dependency that a node may make its own: it is nobody's, and its sources are of the graph. -/
structure Accepts (c : StackDependencies) (d : StackDependency) : Prop where
  unowned : d.owner = none
  sources : ∀ source ∈ d.sources, source.graph = c.graph

/-! ## Requests -/

/-- A request to change the dependencies of a node. -/
inductive Request where
  | push (d : StackDependency)
  | insert (index : Nat) (d : StackDependency)
  | remove (index : Nat)
  | set (index : Nat) (d : StackDependency)
  | resize (count : Nat)

namespace Request

/-- The change that a request asks for.  It gives back the dependency that loses its place. -/
def edit : Request → Edit StackDependencies (Option StackDependency)
  | .push d => do
    InPlace.push d
    return none
  | .insert index d => do
    InPlace.insert index d
    return none
  | .remove index => do return some (← InPlace.remove index)
  | .set index d => do return some (← InPlace.set index d)
  | .resize count => do
    InPlace.resize count
    return none

/-- The dependency that a request brings. -/
def brought? : Request → Option StackDependency
  | .push d | .insert _ d | .set _ d => some d
  | .remove _ | .resize _ => none

/-- The position that a request names, and the number of positions that it could name. -/
def position? (c : StackDependencies) : Request → Option (Nat × Nat)
  | .insert index _ => some (index, c.items.length + 1)
  | .remove index | .set index _ => some (index, c.items.length)
  | .push _ | .resize _ => none

/-- The dependency that a request puts out of its place. -/
def displaced? (c : StackDependencies) : Request → Option StackDependency
  | .remove index | .set index _ => c.items[index]?
  | .push _ | .insert _ _ | .resize _ => none

/-- What a request that is granted leaves in a position. -/
def slot? (c : StackDependencies) (k : Nat) : Request → Option StackDependency
  | .push d => if k = c.items.length then some { d with owner := some c.owner } else c.items[k]?
  | .insert index d =>
    if k < index then c.items[k]?
    else if k = index then some { d with owner := some c.owner }
    else c.items[k - 1]?
  | .remove index => if k < index then c.items[k]? else c.items[k + 1]?
  | .set index d => if k = index then some { d with owner := some c.owner } else c.items[k]?
  | .resize count =>
    if count ≤ k then none
    else if k < c.items.length then c.items[k]?
    else some { sources := .empty, owner := some c.owner }

/-- A reason to refuse a request. -/
inductive Objection (c : StackDependencies) (r : Request) : Error → Prop
  | owned {d : StackDependency} (hd : d ∈ r.brought?) (howner : d.owner ≠ none) :
      Objection c r .dependencyAlreadyOwned
  | foreign {d : StackDependency} {source : DataSource} (hd : d ∈ r.brought?)
      (hsource : source ∈ d.sources) (hgraph : source.graph ≠ c.graph) :
      Objection c r .foreignDataSource
  | outOfRange {index count : Nat} (hposition : (index, count) ∈ r.position? c)
      (hindex : count ≤ index) : Objection c r (.dependencyIndexOutOfRange index)

/-- A request that nothing speaks against. -/
structure Granted (r : Request) (c : StackDependencies) : Prop where
  accepts : ∀ d ∈ r.brought?, c.Accepts d
  inRange : ∀ p ∈ r.position? c, p.1 < p.2

private theorem Granted.not_objection {r : Request} (h : r.Granted c) (e : Error) :
    ¬ r.Objection c e := by
  intro hobjection
  cases hobjection with
  | owned hd howner => exact howner (h.accepts _ hd).unowned
  | foreign hd hsource hgraph => exact hgraph ((h.accepts _ hd).sources _ hsource)
  | outOfRange hposition hindex => exact absurd (h.inRange _ hposition) (Nat.not_lt.mpr hindex)

/-- What a granted request makes of a collection, and what it gives back. -/
structure Leaves (r : Request) (c : StackDependencies) (back : Option StackDependency)
    (c' : StackDependencies) : Prop where
  graph : c'.graph = c.graph
  owner : c'.owner = c.owner
  slots : ∀ k, c'.items[k]? = r.slot? c k
  back : back = (r.displaced? c).map fun d => { d with owner := none }

/-- How a request ends. -/
inductive Ends (r : Request) (c : StackDependencies) :
    Except Error (Option StackDependency) × StackDependencies → Prop
  | granted {back : Option StackDependency} {c' : StackDependencies} (h : r.Granted c)
      (hleaves : r.Leaves c back c') : Ends r c (.ok back, c')
  | refused {e : Error} (h : r.Objection c e) : Ends r c (.error e, c)

end Request

/-! ## Adoption -/

private theorem adopt_eq_ok {d' : StackDependency} (h : c.adopt d = .ok d') :
    c.Accepts d ∧ d' = { d with owner := some c.owner } := by
  unfold adopt at h
  split at h
  next => cases h
  next hunowned =>
    split at h
    next => cases h
    next hsources =>
      cases h
      refine ⟨⟨Option.not_isSome_iff_eq_none.mp hunowned, fun source hsource => ?_⟩, rfl⟩
      by_contra hgraph
      exact hsources (List.any_eq_true.mpr ⟨source, hsource, decide_eq_true hgraph⟩)

private theorem objection_of_adopt {e : Error} {r : Request} (hd : d ∈ r.brought?)
    (h : c.adopt d = .error e) : r.Objection c e := by
  unfold adopt at h
  split at h
  next howned =>
    cases h
    exact .owned hd (Option.isSome_iff_ne_none.mp howned)
  next =>
    split at h
    next hforeign =>
      cases h
      obtain ⟨source, hsource, hgraph⟩ := List.any_eq_true.mp hforeign
      exact .foreign hd hsource (of_decide_eq_true hgraph)
    next => cases h

/-! ## What each request does -/

namespace Request

private theorem granted_of_adopt {d' : StackDependency} {r : Request} (hr : r.brought? = some d)
    (hadopt : c.adopt d = .ok d') (hinRange : ∀ p ∈ r.position? c, p.1 < p.2) : r.Granted c := by
  refine ⟨?_, hinRange⟩
  rw [hr]
  rintro _ ⟨⟩
  exact (adopt_eq_ok hadopt).1

private theorem ends_push (c : StackDependencies) (d : StackDependency) :
    (push d).Ends c ((push d).edit.run c) := by
  cases hadopt : c.adopt d with
  | error e =>
      have hrun : (push d).edit.run c = (.error e, c) := by
        simp only [edit, InPlace.push, run_bind, run_ask, hadopt]
      rw [hrun]
      exact .refused (objection_of_adopt rfl hadopt)
  | ok d' =>
      have hrun : (push d).edit.run c = (.ok none, { c with items := c.items ++ [d'] }) := by
        simp only [edit, InPlace.push, run_bind, run_ask, hadopt, run_modify,
          run_pure]
      rw [hrun]
      refine .granted (granted_of_adopt rfl hadopt ?_) ⟨rfl, rfl, fun k => ?_, rfl⟩
      · rintro p ⟨⟩
      · obtain rfl := (adopt_eq_ok hadopt).2
        simp only [slot?]
        grind

private theorem ends_insert (c : StackDependencies) (index : Nat) (d : StackDependency) :
    (insert index d).Ends c ((insert index d).edit.run c) := by
  -- Here the position is looked at before the dependency.
  by_cases hindex : c.items.length < index
  · have hrun : (insert index d).edit.run c = (.error (.dependencyIndexOutOfRange index), c) := by
      simp only [edit, InPlace.insert, run_bind, run_get, if_pos hindex, run_throw]
    rw [hrun]
    exact .refused (.outOfRange rfl hindex)
  · cases hadopt : c.adopt d with
    | error e =>
        have hrun : (insert index d).edit.run c = (.error e, c) := by
          simp only [edit, InPlace.insert, run_bind, run_get, if_neg hindex,
            run_ask, hadopt]
        rw [hrun]
        exact .refused (objection_of_adopt rfl hadopt)
    | ok d' =>
        have hrun : (insert index d).edit.run c =
            (.ok none, { c with items := c.items.insertIdx index d' }) := by
          simp only [edit, InPlace.insert, run_bind, run_get, if_neg hindex,
            run_ask, hadopt, run_modify, run_pure]
        rw [hrun]
        refine .granted (granted_of_adopt rfl hadopt ?_) ⟨rfl, rfl, fun k => ?_, rfl⟩
        · rintro p ⟨⟩
          exact Nat.lt_succ_of_le (Nat.le_of_not_lt hindex)
        · obtain rfl := (adopt_eq_ok hadopt).2
          simp only [slot?]
          rw [List.getElem?_insertIdx]
          grind

private theorem ends_remove (c : StackDependencies) (index : Nat) :
    (remove index).Ends c ((remove index).edit.run c) := by
  cases hitem : c.items[index]? with
  | none =>
      have hrun : (remove index).edit.run c = (.error (.dependencyIndexOutOfRange index), c) := by
        simp only [edit, InPlace.remove, InPlace.item, run_bind, run_ask, hitem]
      rw [hrun]
      exact .refused (.outOfRange rfl (List.getElem?_eq_none_iff.mp hitem))
  | some old =>
      have hrun : (remove index).edit.run c =
          (.ok (some { old with owner := none }), { c with items := c.items.eraseIdx index }) := by
        simp only [edit, InPlace.remove, InPlace.item, run_bind, run_ask, hitem,
          run_modify, run_pure]
      rw [hrun]
      refine .granted ⟨?_, ?_⟩ ⟨rfl, rfl, fun k => List.getElem?_eraseIdx .., ?_⟩
      · rintro d ⟨⟩
      · rintro p ⟨⟩
        exact (List.getElem?_eq_some_iff.mp hitem).1
      · rw [displaced?, hitem]
        rfl

private theorem ends_set (c : StackDependencies) (index : Nat) (d : StackDependency) :
    (set index d).Ends c ((set index d).edit.run c) := by
  -- Here the dependency is looked at before the position, other than in an insertion.
  cases hadopt : c.adopt d with
  | error e =>
      have hrun : (set index d).edit.run c = (.error e, c) := by
        simp only [edit, InPlace.set, run_bind, run_ask, hadopt]
      rw [hrun]
      exact .refused (objection_of_adopt rfl hadopt)
  | ok d' =>
      cases hitem : c.items[index]? with
      | none =>
          have hrun :
              (set index d).edit.run c = (.error (.dependencyIndexOutOfRange index), c) := by
            simp only [edit, InPlace.set, InPlace.item, run_bind, run_ask, hadopt, hitem]
          rw [hrun]
          exact .refused (.outOfRange rfl (List.getElem?_eq_none_iff.mp hitem))
      | some old =>
          have hindex := (List.getElem?_eq_some_iff.mp hitem).1
          have hrun : (set index d).edit.run c = (.ok (some { old with owner := none }),
              { c with items := c.items.set index d' }) := by
            simp only [edit, InPlace.set, InPlace.item, run_bind, run_ask, hadopt, hitem,
              run_modify, run_pure]
          rw [hrun]
          refine .granted (granted_of_adopt rfl hadopt ?_) ⟨rfl, rfl, fun k => ?_, ?_⟩
          · rintro p ⟨⟩
            exact hindex
          · obtain rfl := (adopt_eq_ok hadopt).2
            simp only [slot?]
            rw [List.getElem?_set]
            grind
          · rw [displaced?, hitem]
            rfl

private theorem ends_resize (c : StackDependencies) (count : Nat) :
    (resize count).Ends c ((resize count).edit.run c) := by
  have hrun : (resize count).edit.run c = (.ok none, { c with
      items := c.items.take count ++
        List.replicate (count - (c.items.take count).length) { owner := some c.owner } }) := by
    simp only [edit, InPlace.resize, run_bind, run_modify, run_pure]
  rw [hrun]
  refine .granted ⟨?_, ?_⟩ ⟨rfl, rfl, fun k => ?_, rfl⟩
  · rintro d ⟨⟩
  · rintro p ⟨⟩
  · simp only [slot?]
    rw [List.getElem?_append, List.getElem?_take, List.getElem?_replicate, List.length_take]
    grind

private theorem ends_edit (r : Request) (c : StackDependencies) : r.Ends c (r.edit.run c) := by
  cases r with
  | push d => exact ends_push c d
  | insert index d => exact ends_insert c index d
  | remove index => exact ends_remove c index
  | set index d => exact ends_set c index d
  | resize count => exact ends_resize c count

private theorem exists_run_of_granted {r : Request} (h : r.Granted c) :
    ∃ back c', r.edit.run c = (.ok back, c') := by
  have hends := r.ends_edit c
  generalize r.edit.run c = new at hends ⊢
  cases hends with
  | granted => exact ⟨_, _, rfl⟩
  | refused hobjection => exact absurd hobjection (h.not_objection _)

end Request

/-! ## Ownership -/

/-- The dependencies of a node are its own, and their sources are of its graph. -/
structure Owned (c : StackDependencies) : Prop where
  owner : ∀ d ∈ c.items, d.owner = some c.owner
  sources : ∀ d ∈ c.items, ∀ source ∈ d.sources, source.graph = c.graph

/-- A collection is still that of the same node, which owns what is in it. -/
structure Keeps (c c' : StackDependencies) : Prop where
  graph : c'.graph = c.graph
  owner : c'.owner = c.owner
  owned : c'.Owned

theorem Keeps.trans {c'' : StackDependencies} (h : c.Keeps c') (h' : c'.Keeps c'') :
    c.Keeps c'' :=
  ⟨h'.graph.trans h.graph, h'.owner.trans h.owner, h'.owned⟩

namespace Request

variable {r : Request} {back : Option StackDependency}

/-- What stands in a position afterwards stood in the collection before, or is the dependency that
was brought, or has no sources. -/
theorem slot?_cases {k : Nat} (h : r.slot? c k = some d) :
    d ∈ c.items ∨ (∃ d₀ ∈ r.brought?, d = { d₀ with owner := some c.owner }) ∨
      d = { sources := .empty, owner := some c.owner } := by
  have hold : ∀ {k' : Nat}, c.items[k']? = some d → d ∈ c.items := List.mem_of_getElem?
  cases r with
  | push d₀ =>
      simp only [slot?] at h
      split at h
      next => exact Or.inr (Or.inl ⟨d₀, rfl, (Option.some.inj h).symm⟩)
      next => exact Or.inl (hold h)
  | insert index d₀ =>
      simp only [slot?] at h
      split at h
      next => exact Or.inl (hold h)
      next =>
        split at h
        next => exact Or.inr (Or.inl ⟨d₀, rfl, (Option.some.inj h).symm⟩)
        next => exact Or.inl (hold h)
  | remove index =>
      simp only [slot?] at h
      split at h <;> exact Or.inl (hold h)
  | set index d₀ =>
      simp only [slot?] at h
      split at h
      next => exact Or.inr (Or.inl ⟨d₀, rfl, (Option.some.inj h).symm⟩)
      next => exact Or.inl (hold h)
  | resize count =>
      simp only [slot?] at h
      split at h
      next => cases h
      next =>
        split at h
        next => exact Or.inl (hold h)
        next => exact Or.inr (Or.inr (Option.some.inj h).symm)

theorem Leaves.owned (h : r.Leaves c back c') (hgranted : r.Granted c) (hc : c.Owned) :
    c'.Owned := by
  have hitem : ∀ d ∈ c'.items,
      d.owner = some c.owner ∧ ∀ source ∈ d.sources, source.graph = c.graph := by
    intro d hd
    obtain ⟨k, hk⟩ := List.mem_iff_getElem?.mp hd
    rw [h.slots] at hk
    rcases slot?_cases hk with hold | ⟨d₀, hd₀, rfl⟩ | rfl
    · exact ⟨hc.owner d hold, hc.sources d hold⟩
    · exact ⟨rfl, (hgranted.accepts d₀ hd₀).sources⟩
    · exact ⟨rfl, fun source hsource => absurd hsource (SortedMap.notMem_empty source)⟩
  rw [← h.owner, ← h.graph] at hitem
  exact ⟨fun d hd => (hitem d hd).1, fun d hd => (hitem d hd).2⟩

theorem Ends.keeps {new : Except Error (Option StackDependency) × StackDependencies}
    (h : r.Ends c new) (hc : c.Owned) : c.Keeps new.2 := by
  cases h with
  | granted hgranted hleaves => exact ⟨hleaves.graph, hleaves.owner, hleaves.owned hgranted hc⟩
  | refused => exact ⟨rfl, rfl, hc⟩

/-- What is given back is nobody's, and any collection of the graph may take it. -/
theorem Leaves.accepts (h : r.Leaves c back c') (hc : c.Owned) {c₂ : StackDependencies}
    (hgraph : c₂.graph = c.graph) : ∀ d ∈ back, c₂.Accepts d := by
  intro d hd
  rw [h.back] at hd
  obtain ⟨old, hold, rfl⟩ := Option.map_eq_some_iff.mp hd
  have hmem : old ∈ c.items := by
    cases r with
    | remove index | set index d₀ => exact List.mem_of_getElem? hold
    | push d₀ | insert index d₀ | resize count => cases hold
  exact ⟨rfl, hgraph ▸ hc.sources old hmem⟩

end Request

private theorem edgeCount_eq_sum (c : StackDependencies) :
    c.edgeCount = (c.items.map fun d => d.sources.keys.toFinset.card).sum := by
  unfold edgeCount
  induction c.items with
  | nil => rfl
  | cons d rest ih => rw [List.foldr_cons, ih, List.map_cons, List.sum_cons, SortedMap.card_keys]

end StackDependencies

/-! ## The nodes of a method -/

/-- The node at each offset was made of an instruction there, in some state. -/
def FlowProgress.Recorded (graph : Nat) (x : FlowProgress) : Prop :=
  ∀ offset n, x.nodes.get? offset = some n →
    ∃ (i : Instruction) (pops : Nat) (s : FlowState), i.offset = offset ∧
      n = i.flowNode graph pops s

theorem FlowProgress.Recorded.visit {p : FlowProblem} {x y : FlowProgress} {place : Nat}
    (hx : x.Recorded p.graph) (hrun : p.visit x place = .ok y) : y.Recorded p.graph := by
  intro offset n hn
  rcases FlowProblem.visit_nodes hrun with hnodes | ⟨i, before, targets, -, -, hnodes⟩
  · rw [hnodes] at hn
    exact hx offset n hn
  · rw [hnodes, SortedMap.get?_insert] at hn
    split at hn
    next hoffset =>
      cases hn
      exact ⟨i, _, before, hoffset.symm, rfl⟩
    next => exact hx offset n hn

private theorem FlowProblem.start_nodes {p : FlowProblem} {x : FlowProgress} (h : p.start = .ok x) :
    x.nodes = .empty := by
  refine start_induction (P := fun _ z => z.nodes = .empty) rfl ?_ h
  intro _ c z places hz _
  exact (foldl_enterAt_nodes places _ z).trans hz

private theorem DataFlowGraph.ofBody_recorded {b : MethodBody} {id : Nat} {g : DataFlowGraph}
    (hg : ofBody b id = .ok g) {offset : Nat} {n : DataFlowNode}
    (hn : g.nodes.get? offset = some n) :
    ∃ (i : Instruction) (pops : Nat) (s : FlowState), i.offset = offset ∧
      n = i.flowNode g.id pops s := by
  unfold ofBody at hg
  split at hg
  next => cases hg
  next =>
    obtain ⟨x₀, hstart, hg⟩ := bind_eq_ok hg
    obtain ⟨x, hx, hg⟩ := bind_eq_ok hg
    cases hg
    have hstart : x₀.Recorded id := by
      intro offset n hn
      rw [FlowProblem.start_nodes hstart] at hn
      cases hn
    have hend : x.Recorded id := by
      refine FlowProblem.visitAll_induction (fun x y place hx hrun => ?_) hstart hx
      have hdequeued : (x.dequeue place).Recorded id := hx
      exact hdequeued.visit hrun
    exact hend offset n hn

namespace StackDependencies

private theorem owned_ofBody {b : MethodBody} {id : Nat} {g : DataFlowGraph}
    (hg : DataFlowGraph.ofBody b id = .ok g) {offset : Nat} {n : DataFlowNode}
    (hn : g.nodes.get? offset = some n) : n.stack.Owned := by
  have hsourced := DataFlowGraph.ofBody_sourced hg offset n hn
  obtain ⟨i, pops, s, -, rfl⟩ := DataFlowGraph.ofBody_recorded hg hn
  constructor
  · intro d hd
    obtain ⟨sources, -, rfl⟩ := List.mem_map.mp hd
    rfl
  · intro d hd source hsource
    exact (hsourced.stack d hd source hsource).graph

/-! ## Histories -/

/-- How a collection comes about: for a node that has no dependencies yet, with the graph of a
method, or by a request to one that has come about. -/
inductive Made : StackDependencies → Prop
  | empty (graph owner : Nat) : Made (empty graph owner)
  | node {b : MethodBody} {id : Nat} {g : DataFlowGraph} {offset : Nat} {n : DataFlowNode}
      (hg : DataFlowGraph.ofBody b id = .ok g) (hn : g.nodes.get? offset = some n) : Made n.stack
  | request {c : StackDependencies} (h : Made c) (r : Request) : Made (r.edit.run c).2

theorem Made.owned {c : StackDependencies} (h : c.Made) : c.Owned := by
  induction h with
  | empty graph owner =>
      constructor
      · exact fun d hd => absurd hd List.not_mem_nil
      · exact fun d hd => absurd hd List.not_mem_nil
  | node hg hn => exact owned_ofBody hg hn
  | request _ r ih => exact ((r.ends_edit _).keeps ih).owned

variable {ι : Type} [DecidableEq ι] {start : ι → StackDependencies}

/-- Several collections after requests to them, those that are refused included. -/
def after (start : ι → StackDependencies) (requests : List (ι × Request)) :
    ι → StackDependencies :=
  tryAll start (requests.map fun q => do let _ ← within q.1 q.2.edit)

private theorem keeps_after (hstart : ∀ i, (start i).Owned) (requests : List (ι × Request)) :
    ∀ i, (start i).Keeps (after start requests i) := by
  -- A request that is refused leaves its collection as it is, and one that is granted keeps it
  -- owned.
  refine tryAll_induction (P := fun cs : ι → StackDependencies =>
    ∀ i, (start i).Keeps (cs i)) (fun i => ⟨rfl, rfl, hstart i⟩) ?_
  intro x hx cs hcs
  obtain ⟨⟨i, r⟩, -, rfl⟩ := List.mem_map.mp hx
  rw [snd_run_bind_pure]
  refine within_induction (P := fun j c => (start j).Keeps c) hcs ?_
  exact (hcs i).trans ((r.ends_edit (cs i)).keeps (hcs i).owned)

/-- A dependency can be attached to one among several collections, in every position there is. -/
def Attachable (cs : ι → StackDependencies) (i : ι) (d : StackDependency) : Prop :=
  ∀ r : Request, r.brought? = some d → (∀ p ∈ r.position? (cs i), p.1 < p.2) →
    ∃ back cs', (within i r.edit).run cs = (.ok back, cs')

/-- How a request to one among several collections ends.  It is refused exactly if there is an
objection, and then everything stays as it is. -/
inductive Outcome (cs : ι → StackDependencies) (i : ι) (r : Request) :
    Except Error (Option StackDependency) × (ι → StackDependencies) → Prop
  | granted {back : Option StackDependency} {cs' : ι → StackDependencies}
      (hnone : ∀ e, ¬ r.Objection (cs i) e) (hleaves : r.Leaves (cs i) back (cs' i))
      (hothers : ∀ j, j ≠ i → cs' j = cs j)
      (hback : ∀ d ∈ back, ∀ j, (cs' j).graph = (cs i).graph → Attachable cs' j d) :
      Outcome cs i r (.ok back, cs')
  | refused {e : Error} (h : r.Objection (cs i) e) : Outcome cs i r (.error e, cs)

section Outcomes

variable {cs : ι → StackDependencies} {i : ι}

private theorem Accepts.attachable {d : StackDependency} (h : (cs i).Accepts d) :
    Attachable cs i d := by
  intro r hr hinRange
  have haccepts : ∀ d ∈ r.brought?, (cs i).Accepts d := by
    rw [hr]
    rintro _ ⟨⟩
    exact h
  obtain ⟨back, c', hrun⟩ := Request.exists_run_of_granted ⟨haccepts, hinRange⟩
  exact ⟨back, Function.update cs i c', by rw [run_within, hrun]⟩

theorem Owned.outcome (hc : (cs i).Owned) (r : Request) :
    Outcome cs i r ((Edit.within i r.edit).run cs) := by
  have hends := r.ends_edit (cs i)
  rw [run_within]
  generalize r.edit.run (cs i) = new at hends ⊢
  cases hends with
  | @granted back c' hgranted hleaves =>
      refine .granted hgranted.not_objection ?_ (fun j hj => Function.update_of_ne hj c' cs) ?_
      · rw [Function.update_self]
        exact hleaves
      · intro d hd j hgraph
        exact (hleaves.accepts hc hgraph d hd).attachable
  | refused hobjection =>
      rw [Function.update_eq_self]
      exact .refused hobjection

end Outcomes

/-- After any requests to several collections, in any order and with any dependencies, each of them
is that of its node still: the node owns every dependency in it, and all sources are of its graph.
The next request to it is refused exactly if its dependency is owned, has a source of another graph
or would come to a position that does not exist, and a request that is refused changes nothing.  One
that is granted keeps the other dependencies in their order, and what it puts out of its place is
nobody's, has the sources that it had, and can go to any collection of the same graph.  The number
of edges is that of the sources of all positions. -/
theorem after_owned (hstart : ∀ i, (start i).Made) (requests : List (ι × Request)) (i : ι) :
    let cs := after start requests
    (cs i).graph = (start i).graph ∧ (cs i).owner = (start i).owner ∧
      (∀ d ∈ (cs i).items, d.owner = some (cs i).owner ∧
        ∀ source ∈ d.sources, source.graph = (cs i).graph) ∧
      (∀ r : Request, Outcome cs i r ((Edit.within i r.edit).run cs)) ∧
      (cs i).edgeCount = ((cs i).items.map fun d => d.sources.keys.toFinset.card).sum := by
  intro cs
  obtain ⟨hgraph, howner, howned⟩ := keeps_after (fun i => (hstart i).owned) requests i
  exact ⟨hgraph, howner, fun d hd => ⟨howned.owner d hd, howned.sources d hd⟩, howned.outcome,
    (cs i).edgeCount_eq_sum⟩

/-- The dependencies of the difference that a loop takes, and those of a node that has none yet. -/
def differenceAndOther : Bool → StackDependencies
  | true => ⟨0, 4, [⟨.singleton ⟨0, 2, 0⟩, some 4⟩, ⟨.singleton ⟨0, 3, 0⟩, some 4⟩]⟩
  | false => .empty 0 9

/-- Two slots for the other node, and two requests that are refused: a dependency with a source of
another graph, and one that is owned already. -/
def refusedTwice : List (Bool × Request) :=
  [(false, .resize 2), (true, .push { sources := .singleton ⟨7, 0, 0⟩ }),
    (false, .set 0 { sources := .singleton ⟨0, 2, 0⟩, owner := some 4 })]

private theorem made_differenceAndOther (i : Bool) : (differenceAndOther i).Made := by
  cases i with
  | false => exact .empty 0 9
  | true =>
      obtain ⟨g, hg, hstack⟩ := exists_of_map_eq_ok
        (r := DataFlowGraph.ofBody DataFlowGraph.countsDown)
        (f := fun g => (g.nodes.get? 4).map DataFlowNode.stack)
        (y := some (differenceAndOther true)) (by decide +kernel)
      obtain ⟨n, hn, hstack⟩ := Option.map_eq_some_iff.mp hstack
      exact hstack ▸ .node hg hn

/-- The dependency on the minuend goes from the difference to the other node. -/
theorem after_owned_moved :
    let cs := after differenceAndOther refusedTwice
    let minuend : StackDependency := { sources := .singleton ⟨0, 2, 0⟩ }
    (∀ i, (differenceAndOther i).Made) ∧
      ∃ cs' back cs'',
        (Edit.within true (Request.remove 0).edit).run cs = (.ok (some minuend), cs') ∧
        (cs' true).items[0]? = some ⟨.singleton ⟨0, 3, 0⟩, some 4⟩ ∧
        (cs' false).items = [{ owner := some 9 }, { owner := some 9 }] ∧
        (Edit.within false (Request.set 1 minuend).edit).run cs' = (.ok back, cs'') := by
  intro cs minuend
  obtain ⟨-, -, -, houtcome, -⟩ := after_owned made_differenceAndOther refusedTwice true
  have hremove : (within true (Request.remove 0).edit).run cs = (.ok (some minuend),
      Function.update cs true ⟨0, 4, [⟨.singleton ⟨0, 3, 0⟩, some 4⟩]⟩) := by
    rw [run_within]
    rfl
  have hnext := houtcome (.remove 0)
  rw [hremove] at hnext
  cases hnext with
  | granted _ hleaves hothers hback =>
      have hother := hothers false Bool.false_ne_true
      have hitems : (cs false).items = [{ owner := some 9 }, { owner := some 9 }] := by rfl
      have hinRange : ∀ p ∈ (Request.set 1 minuend).position? (cs false), p.1 < p.2 := by
        rintro p ⟨⟩
        rw [hitems]
        decide
      obtain ⟨back, cs'', hset⟩ := hback minuend rfl false (by rw [hother]; rfl) (.set 1 minuend)
        rfl (by rw [hother]; exact hinRange)
      refine ⟨made_differenceAndOther, _, back, cs'', hremove, ?_, ?_, hset⟩
      · exact (hleaves.slots 0).trans rfl
      · rw [hother, hitems]

end StackDependencies

end CilAnalysis
