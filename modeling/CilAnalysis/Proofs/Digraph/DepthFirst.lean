import CilAnalysis.Digraph.Traversal
import Mathlib

/-!
# Depth-first search

The recursive search takes the vertices of a list in turn.  It passes over one that was discovered
before; otherwise it discovers the vertex, searches from all that it leads to, and then is finished
with it.  `Explores` is this search, with the order in which vertices are discovered and the order
in which they are finished.  What can be said about these orders is said here, for any graph of
which only the lists of successors are known.

The search is run with a stack.  `Enters` and `Leaves` are the runs that list the vertices as they
are entered and as they are left.

## Strategy

* There is exactly one search from a list of vertices in a finite graph (`exists_explores`,
  `Explores.unique`).
* All properties of the orders are proved by induction on the search: the search from a vertex
  discovers what can be reached from it (`Explores.mem_iff`), and a vertex is finished after those
  it leads to, except for those that lead back to it (`Explores.finished_before`).
* The runs with a stack follow the search (`Explores.enters`, `Explores.leaves`): what was put on
  the stack for one vertex is worked off before anything below.
* Conversely, a run that ends was the search (`Leaves.exists_explores`).  Here the induction is on
  the run, and what it says of the stack in between is that each vertex on it is worked off by a
  search (`Searches`).
-/

namespace CilAnalysis.DepthFirst

open Relation

/-- A vertex leads to another one. -/
def Leads (next : Nat → Option (List Nat)) (v w : Nat) : Prop := ∃ ws, next v = some ws ∧ w ∈ ws

/-- The recursive search from the vertices of a list, some vertices being discovered already.  The
last two lists are the vertices that it discovers and those that it finishes, in this order. -/
inductive Explores (next : Nat → Option (List Nat)) :
    List Nat → List Nat → List Nat → List Nat → Prop where
  | nil (seen : List Nat) : Explores next seen [] [] []
  | pass {seen vs discovered finished : List Nat} {v : Nat} (hv : v ∈ seen)
      (rest : Explores next seen vs discovered finished) :
      Explores next seen (v :: vs) discovered finished
  | visit {seen vs ws discovered finished discovered' finished' : List Nat} {v : Nat}
      (hv : v ∉ seen) (hnext : next v = some ws)
      (below : Explores next (v :: seen) ws discovered finished)
      (rest : Explores next (discovered.reverse ++ v :: seen) vs discovered' finished') :
      Explores next seen (v :: vs) (v :: discovered ++ discovered') (finished ++ v :: finished')

/-- The run that lists vertices as they are entered. -/
inductive Enters (next : Nat → Option (List Nat)) : List Nat → List Nat → List Nat → Prop where
  | done (visited : List Nat) : Enters next visited [] []
  | pass {visited stack order : List Nat} {v : Nat} (hv : v ∈ visited)
      (rest : Enters next visited stack order) : Enters next visited (v :: stack) order
  | enter {visited stack ws order : List Nat} {v : Nat} (hv : v ∉ visited)
      (hnext : next v = some ws)
      (rest : Enters next (v :: visited)
        (ws.filter (fun w => !(v :: visited).contains w) ++ stack) order) :
      Enters next visited (v :: stack) (v :: order)

/-- The run that lists vertices as they are left. -/
inductive Leaves (next : Nat → Option (List Nat)) :
    List Nat → List Digraph.Visit → List Nat → Prop where
  | done (visited : List Nat) : Leaves next visited [] []
  | leave {visited order : List Nat} {work : List Digraph.Visit} {v : Nat}
      (rest : Leaves next visited work order) : Leaves next visited (.leave v :: work) (v :: order)
  | pass {visited order : List Nat} {work : List Digraph.Visit} {v : Nat} (hv : v ∈ visited)
      (rest : Leaves next visited work order) : Leaves next visited (.enter v :: work) order
  | enter {visited ws order : List Nat} {work : List Digraph.Visit} {v : Nat} (hv : v ∉ visited)
      (hnext : next v = some ws)
      (rest : Leaves next (v :: visited)
        ((ws.filter fun w => !(v :: visited).contains w).map .enter ++ .leave v :: work) order) :
      Leaves next visited (.enter v :: work) order

variable {next : Nat → Option (List Nat)} {seen vs discovered finished : List Nat} {root : Nat}

/-! ## There is one search -/

/-- From vertices of a finite set that no list of successors leads out of, the search ends. -/
theorem exists_explores {U : Finset Nat}
    (hU : ∀ v ∈ U, ∃ ws, next v = some ws ∧ ∀ w ∈ ws, w ∈ U) (seen vs : List Nat)
    (hvs : ∀ v ∈ vs, v ∈ U) : ∃ discovered finished, Explores next seen vs discovered finished := by
  -- Each vertex that is discovered leaves fewer for the searches after it.
  induction hcount : (U.filter (· ∉ seen)).card using Nat.strong_induction_on
    generalizing seen vs with
  | _ count ih =>
      subst hcount
      induction vs with
      | nil => exact ⟨[], [], .nil seen⟩
      | cons v vs ihvs =>
          obtain ⟨hvU, hvsU⟩ := List.forall_mem_cons.mp hvs
          by_cases hv : v ∈ seen
          · obtain ⟨discovered, finished, hrest⟩ := ihvs hvsU
            exact ⟨discovered, finished, .pass hv hrest⟩
          · obtain ⟨ws, hnext, hws⟩ := hU v hvU
            have hfewer : ∀ discovered : List Nat,
                (U.filter (· ∉ discovered ++ v :: seen)).card < (U.filter (· ∉ seen)).card := by
              intro discovered
              refine Finset.card_lt_card (Finset.ssubset_iff_of_subset ?_ |>.mpr
                ⟨v, Finset.mem_filter.mpr ⟨hvU, hv⟩, ?_⟩)
              · intro u hu
                obtain ⟨huU, hu⟩ := Finset.mem_filter.mp hu
                refine Finset.mem_filter.mpr ⟨huU, fun hseen => hu ?_⟩
                exact List.mem_append_right _ (List.mem_cons_of_mem v hseen)
              · intro hmem
                exact (Finset.mem_filter.mp hmem).2 (List.mem_append_right _ List.mem_cons_self)
            obtain ⟨discovered, finished, hbelow⟩ := ih _ (hfewer []) (v :: seen) ws hws rfl
            obtain ⟨discovered', finished', hrest⟩ :=
              ih _ (hfewer discovered.reverse) _ vs hvsU rfl
            exact ⟨_, _, .visit hv hnext hbelow hrest⟩

theorem Explores.unique (h : Explores next seen vs discovered finished)
    {discovered' finished' : List Nat} (h' : Explores next seen vs discovered' finished') :
    discovered' = discovered ∧ finished' = finished := by
  induction h generalizing discovered' finished' with
  | nil seen =>
      cases h'
      exact ⟨rfl, rfl⟩
  | pass hv _ ih =>
      cases h' with
      | pass _ rest => exact ih rest
      | visit hv' => exact absurd hv hv'
  | visit hv hnext _ _ ihbelow ihrest =>
      cases h' with
      | pass hv' => exact absurd hv' hv
      | visit _ hnext' below rest =>
          obtain rfl := Option.some.inj (hnext.symm.trans hnext')
          obtain ⟨rfl, rfl⟩ := ihbelow below
          obtain ⟨rfl, rfl⟩ := ihrest rest
          exact ⟨rfl, rfl⟩

/-! ## The vertices of a search -/

namespace Explores

/-- What is discovered is finished. -/
theorem perm (h : Explores next seen vs discovered finished) : discovered.Perm finished := by
  induction h with
  | nil => exact .nil
  | pass _ _ ih => exact ih
  | visit _ _ _ _ ihbelow ihrest =>
      exact ((ihbelow.append ihrest).cons _).trans List.perm_middle.symm

/-- A vertex is discovered once, and not if it was before. -/
theorem nodup (h : Explores next seen vs discovered finished) :
    discovered.Nodup ∧ ∀ v ∈ discovered, v ∉ seen := by
  induction h with
  | nil => exact ⟨List.nodup_nil, fun v hv => absurd hv List.not_mem_nil⟩
  | pass _ _ ih => exact ih
  | @visit seen vs ws discovered finished discovered' finished' v hv _ _ _ ihbelow ihrest =>
      obtain ⟨hnodup, hfresh⟩ := ihbelow
      obtain ⟨hnodup', hfresh'⟩ := ihrest
      -- What is discovered after the visit was not discovered up to then.
      have hlater : ∀ u ∈ discovered', u ∉ discovered ∧ u ≠ v ∧ u ∉ seen := by
        intro u hu
        have hout := hfresh' u hu
        simp only [List.mem_append, List.mem_reverse, List.mem_cons, not_or] at hout
        exact hout
      constructor
      · refine List.nodup_append'.mpr ⟨List.nodup_cons.mpr ⟨?_, hnodup⟩, hnodup', ?_⟩
        · exact fun hmem => hfresh v hmem List.mem_cons_self
        · intro u hu hu'
          rcases List.mem_cons.mp hu with rfl | hu
          · exact (hlater u hu').2.1 rfl
          · exact (hlater u hu').1 hu
      · intro u hu
        rcases List.mem_append.mp hu with hu | hu
        · rcases List.mem_cons.mp hu with rfl | hu
          · exact hv
          · exact fun hseen => hfresh u hu (List.mem_cons_of_mem v hseen)
        · exact (hlater u hu).2.2

/-- The vertices of the list are discovered, if they were not before. -/
theorem covers (h : Explores next seen vs discovered finished) :
    ∀ v ∈ vs, v ∈ seen ∨ v ∈ discovered := by
  induction h with
  | nil => exact fun v hv => absurd hv List.not_mem_nil
  | pass hv _ ih => exact List.forall_mem_cons.mpr ⟨Or.inl hv, ih⟩
  | visit _ _ _ _ _ ihrest =>
      refine List.forall_mem_cons.mpr ⟨Or.inr List.mem_cons_self, ?_⟩
      intro u hu
      have hu := ihrest u hu
      simp only [List.mem_append, List.mem_reverse, List.mem_cons] at hu ⊢
      tauto

/-- A vertex that is discovered has a list of successors. -/
theorem exists_next (h : Explores next seen vs discovered finished) :
    ∀ v ∈ discovered, ∃ ws, next v = some ws := by
  induction h with
  | nil => exact fun v hv => absurd hv List.not_mem_nil
  | pass _ _ ih => exact ih
  | visit _ hnext _ _ ihbelow ihrest =>
      exact List.forall_mem_append.mpr ⟨List.forall_mem_cons.mpr ⟨⟨_, hnext⟩, ihbelow⟩, ihrest⟩

/-- Whatever a discovered vertex leads to is discovered, if it was not before. -/
theorem closed (h : Explores next seen vs discovered finished) :
    ∀ u ∈ discovered, ∀ w, Leads next u w → w ∈ seen ∨ w ∈ discovered := by
  induction h with
  | nil => exact fun u hu => absurd hu List.not_mem_nil
  | pass _ _ ih => exact ih
  | @visit seen vs ws discovered finished discovered' finished' v _ hnext below _ ihbelow
      ihrest =>
      intro u hu w hw
      have hfound : (w ∈ v :: seen ∨ w ∈ discovered) ∨
          w ∈ discovered.reverse ++ v :: seen ∨ w ∈ discovered' := by
        rcases List.mem_append.mp hu with hu | hu
        · rcases List.mem_cons.mp hu with rfl | hu
          · obtain ⟨ws', hnext', hw⟩ := hw
            obtain rfl := Option.some.inj (hnext.symm.trans hnext')
            exact Or.inl (below.covers w hw)
          · exact Or.inl (ihbelow u hu w hw)
        · exact Or.inr (ihrest u hu w hw)
      simp only [List.mem_append, List.mem_reverse, List.mem_cons] at hfound ⊢
      tauto

/-- A discovered vertex can be reached from the list. -/
theorem reached (h : Explores next seen vs discovered finished) :
    ∀ u ∈ discovered, ∃ v ∈ vs, ReflTransGen (Leads next) v u := by
  induction h with
  | nil => exact fun u hu => absurd hu List.not_mem_nil
  | pass _ _ ih =>
      intro u hu
      obtain ⟨v, hv, hreach⟩ := ih u hu
      exact ⟨v, List.mem_cons_of_mem _ hv, hreach⟩
  | @visit seen vs ws discovered finished discovered' finished' v _ hnext _ _ ihbelow ihrest =>
      intro u hu
      rcases List.mem_append.mp hu with hu | hu
      · rcases List.mem_cons.mp hu with rfl | hu
        · exact ⟨u, List.mem_cons_self, .refl⟩
        · obtain ⟨w, hw, hreach⟩ := ihbelow u hu
          exact ⟨v, List.mem_cons_self, .head ⟨ws, hnext, hw⟩ hreach⟩
      · obtain ⟨w, hw, hreach⟩ := ihrest u hu
        exact ⟨w, List.mem_cons_of_mem v hw, hreach⟩

/-- A vertex is finished after those it leads to, except for those that were discovered before the
search and those that lead back to it. -/
theorem finished_before (h : Explores next seen vs discovered finished) :
    ∀ u ∈ finished, ∀ w, Leads next u w →
      w ∈ seen ∨ [w, u].Sublist finished ∨ ReflTransGen (Leads next) w u := by
  induction h with
  | nil => exact fun u hu => absurd hu List.not_mem_nil
  | pass _ _ ih => exact ih
  | @visit seen vs ws discovered finished discovered' finished' v _ hnext below rest ihbelow
      ihrest =>
      intro u hu w hw
      rcases List.mem_append.mp hu with hinside | hu
      · rcases ihbelow u hinside w hw with hseen | hbefore | hback
        · rcases List.mem_cons.mp hseen with rfl | hseen
          · -- What is finished inside the visit of a vertex was reached from it.
            obtain ⟨v', hv', hreach⟩ := below.reached u (below.perm.mem_iff.mpr hinside)
            exact Or.inr (Or.inr (.head ⟨ws, hnext, hv'⟩ hreach))
          · exact Or.inl hseen
        · exact Or.inr (Or.inl (hbefore.trans (List.sublist_append_left _ _)))
        · exact Or.inr (Or.inr hback)
      · -- Everything that was finished up to here comes before what is finished from here on.
        have hearlier : ∀ {u w}, w ∈ finished → u ∈ v :: finished' →
            [w, u].Sublist (finished ++ v :: finished') := fun hw hu =>
          (List.singleton_sublist.mpr hw).append (List.singleton_sublist.mpr hu)
        rcases List.mem_cons.mp hu with rfl | hu'
        · obtain ⟨ws', hnext', hw⟩ := hw
          obtain rfl := Option.some.inj (hnext.symm.trans hnext')
          rcases below.covers w hw with hseen | hfound
          · rcases List.mem_cons.mp hseen with rfl | hseen
            · exact Or.inr (Or.inr .refl)
            · exact Or.inl hseen
          · exact Or.inr (Or.inl (hearlier (below.perm.mem_iff.mp hfound) hu))
        · rcases ihrest u hu' w hw with hseen | hbefore | hback
          · rcases List.mem_append.mp hseen with hfound | hseen
            · have hfound := below.perm.mem_iff.mp (List.mem_reverse.mp hfound)
              exact Or.inr (Or.inl (hearlier hfound hu))
            · rcases List.mem_cons.mp hseen with rfl | hseen
              · refine Or.inr (Or.inl (List.Sublist.trans ?_ (List.sublist_append_right _ _)))
                exact (List.singleton_sublist.mpr hu').cons_cons w
              · exact Or.inl hseen
          · refine Or.inr (Or.inl (hbefore.trans ?_))
            exact (List.sublist_cons_self v finished').trans (List.sublist_append_right _ _)
          · exact Or.inr (Or.inr hback)

/-! ## Searches from one vertex -/

/-- The search from one vertex discovers what can be reached from it. -/
theorem mem_iff (h : Explores next [] [root] discovered finished) {v : Nat} :
    v ∈ discovered ↔ ReflTransGen (Leads next) root v := by
  constructor
  · intro hv
    obtain ⟨u, hu, hreach⟩ := h.reached v hv
    exact List.mem_singleton.mp hu ▸ hreach
  · intro hreach
    induction hreach with
    | refl => exact (h.covers root List.mem_cons_self).resolve_left List.not_mem_nil
    | tail _ hstep ih => exact (h.closed _ ih _ hstep).resolve_left List.not_mem_nil

/-- The vertex from which the search starts is finished last. -/
theorem exists_append_root (h : Explores next [] [root] discovered finished) :
    ∃ before, finished = before ++ [root] := by
  cases h with
  | pass hv => exact absurd hv List.not_mem_nil
  | visit _ _ _ rest =>
      cases rest with
      | nil => exact ⟨_, rfl⟩

end Explores

/-! ## Searches that finish in ascending order -/

/-- All that is reached from a vertex, itself included, lies above another one. -/
def LiesAbove (next : Nat → Option (List Nat)) (u w : Nat) : Prop :=
  ∀ x, ReflTransGen (Leads next) w x → u < x

/-- What is reached from a vertex of a list lies above the vertices that come before it in the list,
and likewise for the successors of all that is reached, which themselves lie below their vertex. -/
structure Nested (next : Nat → Option (List Nat)) (vs : List Nat) : Prop where
  apart : vs.Pairwise (LiesAbove next)
  successors : ∀ v ∈ vs, ∀ x, ReflTransGen (Leads next) v x → ∀ ws, next x = some ws →
    ws.Pairwise (LiesAbove next) ∧ ∀ w ∈ ws, w < x

namespace Nested

variable {v x : Nat} {ws : List Nat}

theorem tail (h : Nested next (v :: vs)) : Nested next vs where
  apart := (List.pairwise_cons.mp h.apart).2
  successors := fun u hu => h.successors u (List.mem_cons_of_mem v hu)

theorem inside (h : Nested next vs) (hv : v ∈ vs) (hnext : next v = some ws) : Nested next ws where
  apart := (h.successors v hv v .refl ws hnext).1
  successors := fun _ hw x hx => h.successors v hv x (.head ⟨ws, hnext, hw⟩ hx)

theorem le (h : Nested next vs) (hv : v ∈ vs) (hx : ReflTransGen (Leads next) v x) : x ≤ v := by
  induction hx with
  | refl => exact le_rfl
  | tail hreach hstep ih =>
      obtain ⟨ws, hnext, hw⟩ := hstep
      exact ((h.successors v hv _ hreach ws hnext).2 _ hw).le.trans ih

theorem lt (h : Nested next vs) (hv : v ∈ vs) (hnext : next v = some ws) {w : Nat} (hw : w ∈ ws)
    (hx : ReflTransGen (Leads next) w x) : x < v :=
  ((h.inside hv hnext).le hw hx).trans_lt ((h.successors v hv v .refl ws hnext).2 w hw)

end Nested

namespace Explores

/-- What is finished inside the visit of a vertex lies below it, and what is finished later lies
above it. -/
theorem ascending (h : Explores next seen vs discovered finished) (hvs : Nested next vs) :
    finished.Pairwise (· < ·) := by
  induction h with
  | nil => exact .nil
  | pass _ _ ih => exact ih hvs.tail
  | @visit seen vs ws discovered finished discovered' finished' v _ hnext below rest ihbelow
      ihrest =>
      have hinside : ∀ u ∈ finished, u < v := by
        intro u hu
        obtain ⟨w, hw, hreach⟩ := below.reached u (below.perm.mem_iff.mpr hu)
        exact hvs.lt List.mem_cons_self hnext hw hreach
      have hlater : ∀ u ∈ finished', v < u := by
        intro u hu
        obtain ⟨w, hw, hreach⟩ := rest.reached u (rest.perm.mem_iff.mpr hu)
        exact (List.pairwise_cons.mp hvs.apart).1 w hw u hreach
      refine List.pairwise_append.mpr ⟨ihbelow (hvs.inside List.mem_cons_self hnext),
        List.pairwise_cons.mpr ⟨hlater, ihrest hvs.tail⟩, ?_⟩
      intro u hu
      refine List.forall_mem_cons.mpr ⟨hinside u hu, ?_⟩
      exact fun w hw => (hinside u hu).trans (hlater w hw)

/-! ## Runs with a stack -/

private theorem mem_of_not_fresh {visited : List Nat} {v : Nat}
    (h : (!visited.contains v) = false) : v ∈ visited := by
  simpa using h

/-- The run that lists vertices as they are entered follows the search.  Of the vertices to be
searched from, some that were discovered before need not be on the stack. -/
theorem enters_filter (h : Explores next seen vs discovered finished) {p : Nat → Bool}
    (hp : ∀ v, p v = false → v ∈ seen) {stack order : List Nat}
    (hrest : Enters next (discovered.reverse ++ seen) stack order) :
    Enters next seen (vs.filter p ++ stack) (discovered ++ order) := by
  induction h generalizing p stack order with
  | nil => exact hrest
  | @pass seen vs discovered finished v hv _ ih =>
      rw [List.filter_cons]
      split
      next => exact .pass hv (ih hp hrest)
      next => exact ih hp hrest
  | @visit seen vs ws discovered finished discovered' finished' v hv hnext _ _ ihbelow ihrest =>
      have hkept : p v = true := by
        by_contra hdropped
        exact hv (hp v (Bool.not_eq_true _ ▸ hdropped))
      rw [List.filter_cons_of_pos hkept]
      have hlater : Enters next (discovered.reverse ++ v :: seen) (vs.filter p ++ stack)
          (discovered' ++ order) := by
        refine ihrest ?_ (by simpa using hrest)
        exact fun w hw => List.mem_append_right _ (List.mem_cons_of_mem v (hp w hw))
      have hrun := Enters.enter hv hnext (ihbelow (fun _ => mem_of_not_fresh) hlater)
      rwa [← List.append_assoc] at hrun

/-- The run that lists vertices as they are left follows the search in the same way. -/
theorem leaves_filter (h : Explores next seen vs discovered finished) {p : Nat → Bool}
    (hp : ∀ v, p v = false → v ∈ seen) {work : List Digraph.Visit} {order : List Nat}
    (hrest : Leaves next (discovered.reverse ++ seen) work order) :
    Leaves next seen ((vs.filter p).map .enter ++ work) (finished ++ order) := by
  induction h generalizing p work order with
  | nil => exact hrest
  | @pass seen vs discovered finished v hv _ ih =>
      rw [List.filter_cons]
      split
      next => exact .pass hv (ih hp hrest)
      next => exact ih hp hrest
  | @visit seen vs ws discovered finished discovered' finished' v hv hnext _ _ ihbelow ihrest =>
      have hkept : p v = true := by
        by_contra hdropped
        exact hv (hp v (Bool.not_eq_true _ ▸ hdropped))
      rw [List.filter_cons_of_pos hkept]
      have hlater : Leaves next (discovered.reverse ++ v :: seen)
          ((vs.filter p).map .enter ++ work) (finished' ++ order) := by
        refine ihrest ?_ (by simpa using hrest)
        exact fun w hw => List.mem_append_right _ (List.mem_cons_of_mem v (hp w hw))
      rw [List.append_assoc]
      exact .enter hv hnext (ihbelow (fun _ => mem_of_not_fresh) (.leave hlater))

theorem enters (h : Explores next [] [root] discovered finished) :
    Enters next [] [root] discovered := by
  have hrun := h.enters_filter (p := fun _ => true)
    (fun _ hv => absurd hv.symm Bool.false_ne_true) (.done _)
  simpa using hrun

theorem leaves (h : Explores next [] [root] discovered finished) :
    Leaves next [] [.enter root] finished := by
  have hrun := h.leaves_filter (p := fun _ => true)
    (fun _ hv => absurd hv.symm Bool.false_ne_true) (.done _)
  simpa using hrun

/-! ## The search that a run follows -/

theorem append (h : Explores next seen vs discovered finished)
    {vs' discovered' finished' : List Nat}
    (h' : Explores next (discovered.reverse ++ seen) vs' discovered' finished') :
    Explores next seen (vs ++ vs') (discovered ++ discovered') (finished ++ finished') := by
  induction h with
  | nil => exact h'
  | pass hv _ ih => exact .pass hv (ih h')
  | visit hv hnext below _ _ ihrest =>
      have hrest := Explores.visit hv hnext below (ihrest (by simpa using h'))
      simpa using hrest

/-- Vertices that were discovered before may be left out of the list. -/
theorem of_filter {p : Nat → Bool} (h : Explores next seen (vs.filter p) discovered finished)
    (hp : ∀ v, p v = false → v ∈ seen) : Explores next seen vs discovered finished := by
  induction vs generalizing seen discovered finished with
  | nil => exact h
  | cons v vs ih =>
      cases hkept : p v with
      | false =>
          rw [List.filter_cons_of_neg (Bool.eq_false_iff.mp hkept)] at h
          exact .pass (hp v hkept) (ih h hp)
      | true =>
          rw [List.filter_cons_of_pos hkept] at h
          cases h with
          | pass hv rest => exact .pass hv (ih rest hp)
          | visit hv hnext below rest =>
              refine .visit hv hnext below (ih rest fun w hw => ?_)
              exact List.mem_append_right _ (List.mem_cons_of_mem v (hp w hw))

end Explores

/-- A stack of visits is worked off by searches: one from every vertex that is to be entered. -/
def Searches (next : Nat → Option (List Nat)) :
    List Nat → List Digraph.Visit → List Nat → Prop
  | _, [], order => order = []
  | visited, .leave v :: work, order => ∃ rest, order = v :: rest ∧ Searches next visited work rest
  | visited, .enter v :: work, order =>
    ∃ discovered finished rest, Explores next visited [v] discovered finished ∧
      order = finished ++ rest ∧ Searches next (discovered.reverse ++ visited) work rest

theorem Searches.exists_explores {visited order : List Nat} {work : List Digraph.Visit}
    (h : Searches next visited (vs.map .enter ++ work) order) :
    ∃ discovered finished rest, Explores next visited vs discovered finished ∧
      order = finished ++ rest ∧ Searches next (discovered.reverse ++ visited) work rest := by
  induction vs generalizing visited order with
  | nil => exact ⟨[], [], order, .nil visited, rfl, h⟩
  | cons v vs ih =>
      obtain ⟨discovered, finished, rest, hfirst, rfl, h⟩ := h
      obtain ⟨discovered', finished', rest', hlater, rfl, h⟩ := ih h
      refine ⟨_, _, rest', hfirst.append hlater, (List.append_assoc _ _ _).symm, ?_⟩
      rwa [List.reverse_append, List.append_assoc]

/-- What is put on the stack for a vertex is worked off by the search from its successors, and the
vertex is left when that search is over. -/
theorem Leaves.searches {visited order : List Nat} {work : List Digraph.Visit}
    (h : Leaves next visited work order) : Searches next visited work order := by
  induction h with
  | done => exact rfl
  | leave _ ih => exact ⟨_, rfl, ih⟩
  | pass hv _ ih => exact ⟨[], [], _, .pass hv (.nil _), rfl, ih⟩
  | @enter visited ws order work v hv hnext _ ih =>
      -- The searches from the successors come first, then the vertex is left, and then the rest.
      obtain ⟨discovered, finished, _, hbelow, rfl, rest, rfl, hrest⟩ := ih.exists_explores
      have hsearch := hbelow.of_filter fun _ => Explores.mem_of_not_fresh
      refine ⟨_, _, rest, .visit hv hnext hsearch (.nil _), ?_, ?_⟩
      · simp
      · simpa using hrest

/-- The order in which a run from one vertex leaves the vertices is the order in which the search
finishes them. -/
theorem Leaves.exists_explores {order : List Nat} (h : Leaves next [] [.enter root] order) :
    ∃ discovered, Explores next [] [root] discovered order := by
  obtain ⟨discovered, finished, rest, hsearch, rfl, hrest⟩ := h.searches
  obtain rfl : rest = [] := hrest
  exact ⟨discovered, (List.append_nil finished).symm ▸ hsearch⟩

end CilAnalysis.DepthFirst
