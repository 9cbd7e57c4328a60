import CilAnalysis.Proofs.Region.Extension

/-!
# The shape of region trees

Which regions stand in which: guarded regions in scopes, handlers and a protected scope in guarded
regions, a prologue and contents in handlers.  A region only says what stands in it, so the law is
stated downwards, one condition for each kind of region (`Region.Fits`).

## Strategy

Because regions keep their kind while a tree grows, a region that fits goes on to fit
(`RegionTree.Extends.fits`), and a change has to be looked at only where it is made.

* Hanging a region below another touches three kinds of places (`RegionTree.Shaped.hang`): the
  region above, which gets a child of the right kind; the new region, which has its own scopes; and
  these scopes, which are empty.
* A block is no region and fits in any scope.
* Sorting leaves the children of a scope what they are, and the entry is the first of them
  (`RegionTree.sortScope_eq_some`).

From the condition on the region above, the place of a region is read off as a view with one case
for each way to stand in another (`Region.Holds`, `Region.Fits.holds`).
-/

namespace CilAnalysis

/-- The tree has a region of a kind under a number. -/
def RegionTree.Has (t : RegionTree) (kind : Region → Bool) (id : Nat) : Prop :=
  ∃ r, t.regions[id]? = some r ∧ kind r = true

/-- The number of scopes that a handler is made with. -/
def ClauseKind.scopeCount : ClauseKind → Nat
  | filters _ => 2
  | _ => 1

namespace Region

/-- The scopes that a region was made with. -/
def ownScopes : Region → List Nat
  | scope _ _ => []
  | guarded protectedScope _ => [protectedScope]
  | handler _ prologue contents _ => prologue.toList ++ [contents]

/-- A region has the right regions below it, and control enters a scope at one of its children. -/
def Fits (t : RegionTree) : Region → Prop
  | scope children entry =>
    (∀ id, .region id ∈ children → t.Has isGuarded id) ∧ ∀ e ∈ entry, e ∈ children
  | guarded protectedScope handlers =>
    t.Has isScope protectedScope ∧ ∀ id ∈ handlers, t.Has isHandler id
  | handler _ prologue contents epilogue =>
    (∀ id ∈ prologue, t.Has isScope id) ∧ t.Has isScope contents ∧ epilogue = none

/-- The place that the region with a number has in the region above it. -/
inductive Holds : Region → Nat → Region → Prop
  | guarded {children : List RegionChild} {entry : Option RegionChild} {id p : Nat}
      {handlers : List Nat} : Holds (.scope children entry) id (.guarded p handlers)
  | protectedScope {id : Nat} {handlers : List Nat} {children : List RegionChild}
      {entry : Option RegionChild} : Holds (.guarded id handlers) id (.scope children entry)
  | handler {p id contents : Nat} {handlers : List Nat} {kind : ClauseKind}
      {prologue epilogue : Option Nat} (h : id ∈ handlers) :
      Holds (.guarded p handlers) id (.handler kind prologue contents epilogue)
  | prologue {kind : ClauseKind} {id contents : Nat} {epilogue : Option Nat}
      {children : List RegionChild} {entry : Option RegionChild} :
      Holds (.handler kind (some id) contents epilogue) id (.scope children entry)
  | contents {kind : ClauseKind} {prologue : Option Nat} {id : Nat} {epilogue : Option Nat}
      {children : List RegionChild} {entry : Option RegionChild} :
      Holds (.handler kind prologue id epilogue) id (.scope children entry)

end Region

namespace RegionTree

variable {t t' : RegionTree}

/-! ## Kinds stay -/

namespace Extends

variable {id : Nat}

theorem has (h : t.Extends t') {kind : Region → Bool}
    (hkind : ∀ {r r' : Region}, r.Becomes r' → kind r' = kind r) (hid : t.Has kind id) :
    t'.Has kind id := by
  obtain ⟨r, hr, hkindr⟩ := hid
  obtain ⟨r', hr', hbecomes⟩ := h.region id r hr
  exact ⟨r', hr', (hkind hbecomes).trans hkindr⟩

theorem fits (h : t.Extends t') {r : Region} (hr : r.Fits t) : r.Fits t' := by
  cases r with
  | scope children entry => exact hr.imp_left fun hids id hid => h.has (·.isGuarded) (hids id hid)
  | guarded p handlers =>
      exact hr.imp (h.has (·.isScope)) fun hids id hid => h.has (·.isHandler) (hids id hid)
  | handler kind prologue contents epilogue =>
      exact hr.imp (fun hids id hid => h.has (·.isScope) (hids id hid))
        (.imp_left (h.has (·.isScope)))

end Extends

/-- Every region fits. -/
def Shaped (t : RegionTree) : Prop :=
  ∀ (id : Nat) (r : Region), t.regions[id]? = some r → r.Fits t

private theorem fits_emptyScope (t : RegionTree) : Region.emptyScope.Fits t := ⟨by simp, by simp⟩

theorem shaped_empty : empty.Shaped := by
  intro id r hr
  cases id with
  | zero =>
      cases hr
      exact fits_emptyScope empty
  | succ id => cases hr

end RegionTree

namespace Region.Fits

variable {t : RegionTree} {r : Region}

theorem appendChild (hr : r.Fits t) {child : RegionChild}
    (hchild : ∀ id, child = .region id → t.Has isGuarded id) : (r.appendChild child).Fits t := by
  cases r with
  | scope children entry =>
      refine ⟨fun id hid => ?_, fun e he => List.mem_append_left _ (hr.2 e he)⟩
      rcases List.mem_append.mp hid with hold | hnew
      · exact hr.1 id hold
      · exact hchild id (List.mem_singleton.mp hnew).symm
  | guarded => exact hr
  | handler => exact hr

theorem appendHandler (hr : r.Fits t) {handler : Nat} (hhandler : t.Has isHandler handler) :
    (r.appendHandler handler).Fits t := by
  cases r with
  | guarded p handlers =>
      refine ⟨hr.1, fun id hid => ?_⟩
      rcases List.mem_append.mp hid with hold | hnew
      · exact hr.2 id hold
      · rwa [List.mem_singleton.mp hnew]
  | scope => exact hr
  | handler => exact hr

theorem ownScopes (hr : r.Fits t) : ∀ id ∈ r.ownScopes, t.Has isScope id := by
  intro id hid
  cases r with
  | scope => cases hid
  | guarded p handlers =>
      obtain rfl := List.mem_singleton.mp hid
      exact hr.1
  | handler kind prologue contents epilogue =>
      rcases List.mem_append.mp hid with hprologue | hcontents
      · exact hr.1 id (Option.mem_toList.mp hprologue)
      · obtain rfl := List.mem_singleton.mp hcontents
        exact hr.2.1

/-- A region that stands in one that fits has its place there. -/
theorem holds (hr : r.Fits t) {id : Nat} (hid : id ∈ r.childRegions) :
    ∃ s, t.regions[id]? = some s ∧ r.Holds id s := by
  have hscope : ∀ {id}, t.Has isScope id →
      ∃ children entry, t.regions[id]? = some (.scope children entry) := by
    rintro id ⟨s, hs, hkind⟩
    cases s with
    | scope children entry => exact ⟨children, entry, hs⟩
    | guarded => cases hkind
    | handler => cases hkind
  cases r with
  | scope children entry =>
      obtain ⟨child, hchild, hregion⟩ := List.mem_filterMap.mp hid
      cases child with
      | block => cases hregion
      | region id' =>
          cases hregion
          obtain ⟨s, hs, hkind⟩ := hr.1 id hchild
          cases s with
          | guarded => exact ⟨_, hs, .guarded⟩
          | scope => cases hkind
          | handler => cases hkind
  | guarded p handlers =>
      rcases List.mem_cons.mp hid with rfl | hhandler
      · obtain ⟨children, entry, hs⟩ := hscope hr.1
        exact ⟨_, hs, .protectedScope⟩
      · obtain ⟨s, hs, hkind⟩ := hr.2 id hhandler
        cases s with
        | handler => exact ⟨_, hs, .handler hhandler⟩
        | scope => cases hkind
        | guarded => cases hkind
  | handler kind prologue contents epilogue =>
      obtain ⟨hprologue, hcontents, rfl⟩ := hr
      rcases List.mem_append.mp hid with hid | hid
      · rw [Option.mem_toList] at hid
        obtain ⟨children, entry, hs⟩ := hscope (hprologue id hid)
        obtain rfl : prologue = some id := hid
        exact ⟨_, hs, .prologue⟩
      · obtain rfl : id = contents := by simpa using hid
        obtain ⟨children, entry, hs⟩ := hscope hcontents
        exact ⟨_, hs, .contents⟩

end Region.Fits

namespace RegionTree

variable {t t' : RegionTree}

/-! ## Every change keeps the shape -/

private theorem addGuarded_eq_hang {scope : Nat} {ids : Nat × Nat}
    (h : t.addGuarded scope = .ok (ids, t')) :
    t' = t.hang (.guarded (t.size + 1) []) scope 1 (Region.appendChild (.region t.size)) := by
  obtain ⟨contents, -, h⟩ := bind_eq_ok h
  cases h
  rfl

theorem addHandler_eq_hang {guarded : Nat} {kind : ClauseKind} {ids : HandlerScopes}
    (h : t.addHandler guarded kind = .ok (ids, t')) :
    t' = t.hang (.handler kind ids.prologue ids.contents none) guarded kind.scopeCount
        (Region.appendHandler t.size) ∧
      (Region.handler kind ids.prologue ids.contents none).ownScopes =
        List.range' (t.size + 1) kind.scopeCount := by
  obtain ⟨r, -, h⟩ := bind_eq_ok h
  cases hguarded : r.isGuarded with
  | false =>
      rw [hguarded] at h
      cases h
  | true =>
      rw [hguarded] at h
      cases kind with
      | filters | catches | finalizes | faults =>
          cases h
          exact ⟨rfl, rfl⟩

/-- A sorted scope has the children it had, and control enters it at the first of them. -/
theorem sortScope_eq_some {scope id : Nat} {r : Region}
    (h : (t.sortScope scope).regions[id]? = some r) :
    t.regions[id]? = some r ∨ ∃ children entry sorted,
      t.regions[id]? = some (.scope children entry) ∧ sorted.Perm children ∧
        r = .scope sorted sorted.head? := by
  unfold RegionTree.sortScope at h
  split at h
  next children entry hscope =>
    by_cases hid : scope = id
    · subst hid
      dsimp only at h
      rw [Array.getElem?_setIfInBounds_self_of_lt (lt_size_of_getElem? hscope),
        Option.some.injEq] at h
      exact .inr ⟨children, entry, _, hscope, List.mergeSort_perm .., h.symm⟩
    · exact .inl ((Array.getElem?_setIfInBounds_ne hid).symm.trans h)
  next => exact .inl h

namespace Shaped

/-- A region is hung below another: the new region and the one above it have to fit. -/
theorem hang (ht : t.Shaped) {r : Region} {under scopes : Nat} {tell : Region → Region}
    (hunder : under < t.size) (hextends : t.Extends (t.hang r under scopes tell))
    (htold : ∀ above : Region, above.Fits (t.hang r under scopes tell) →
      (tell above).Fits (t.hang r under scopes tell))
    (hr : r.Fits (t.hang r under scopes tell)) : (t.hang r under scopes tell).Shaped := by
  intro id s hs
  rw [regions_hang r scopes tell hunder] at hs
  split at hs
  next =>
    obtain ⟨above, habove, rfl⟩ := Option.map_eq_some_iff.mp hs
    exact htold above (hextends.fits (ht id above habove))
  next =>
    split at hs
    next =>
      cases hs
      exact hr
    next =>
      split at hs
      next =>
        cases hs
        exact fits_emptyScope _
      next => exact hextends.fits (ht id s hs)

theorem addGuarded (ht : t.Shaped) (hsound : t.Sound) {scope : Nat} {ids : Nat × Nat}
    (h : t.addGuarded scope = .ok (ids, t')) : t'.Shaped := by
  have hunder := (addGuarded_hangs h).under_lt
  obtain ⟨-, hgains⟩ := addGuarded_gains hsound h
  obtain rfl := addGuarded_eq_hang h
  refine ht.hang hunder hgains.toExtends (fun above habove => habove.appendChild ?_) ⟨?_, by simp⟩
  · intro id hid
    cases hid
    exact ⟨_, hgains.added, rfl⟩
  · exact ⟨_, (hgains.scope 1 one_pos le_rfl).1, rfl⟩

theorem addHandler (ht : t.Shaped) (hsound : t.Sound) {guarded : Nat} {kind : ClauseKind}
    {ids : HandlerScopes} (h : t.addHandler guarded kind = .ok (ids, t')) : t'.Shaped := by
  obtain ⟨scopes, hhangs⟩ := addHandler_hangs h
  obtain ⟨scopes, hgains, -⟩ := addHandler_gains hsound h
  obtain ⟨rfl, hscopes⟩ := addHandler_eq_hang h
  have hown : ∀ id ∈ List.range' (t.size + 1) kind.scopeCount, (t.hang
      (.handler kind ids.prologue ids.contents none) guarded kind.scopeCount
      (Region.appendHandler t.size)).Has Region.isScope id := by
    intro id hid
    have hrange := List.mem_range'_1.mp hid
    have hlt := hhangs.under_lt
    refine ⟨.emptyScope, ?_, rfl⟩
    rw [regions_hang _ _ _ hlt, if_neg (by omega), if_neg (by omega), if_pos (by omega)]
  rw [← hscopes] at hown
  refine ht.hang hhangs.under_lt hgains.toExtends
    (fun above habove => habove.appendHandler ⟨_, hgains.added, rfl⟩) ⟨fun id hid => ?_, ?_, rfl⟩
  · exact hown id (List.mem_append_left _ (Option.mem_toList.mpr hid))
  · exact hown _ (List.mem_append_right _ List.mem_cons_self)

theorem addBlock (ht : t.Shaped) {scope offset : Nat} (h : t.addBlock scope offset = .ok t') :
    t'.Shaped := by
  have hextends := addBlock_extends h
  unfold RegionTree.addBlock at h
  split at h
  next => cases h
  next =>
    obtain ⟨contents, -, h⟩ := bind_eq_ok h
    cases h
    intro id r hr
    have hr : (t.regions.modify scope (Region.appendChild (.block offset)))[id]? = some r := hr
    rw [Array.getElem?_modify] at hr
    split at hr
    next =>
      obtain ⟨s, hs, rfl⟩ := Option.map_eq_some_iff.mp hr
      exact (hextends.fits (ht id s hs)).appendChild fun id hid => by cases hid
    next => exact hextends.fits (ht id r hr)

theorem sortScope (ht : t.Shaped) (scope : Nat) : (t.sortScope scope).Shaped := by
  have hextends := sortScope_extends t scope
  intro id r hr
  rcases sortScope_eq_some hr with hold | ⟨children, entry, sorted, hold, hperm, rfl⟩
  · exact hextends.fits (ht id r hold)
  · refine ⟨fun id' hid' => ?_, fun e he => List.mem_of_mem_head? he⟩
    exact hextends.has (·.isGuarded) ((ht id _ hold).1 id' (hperm.mem_iff.mp hid'))

theorem sortChildren (ht : t.Shaped) : t.sortChildren.Shaped :=
  List.foldlRecOn _ _ ht fun _ ht id _ => ht.sortScope id

end Shaped

end RegionTree

end CilAnalysis
