import CilAnalysis.Proofs.Region.Histories

/-!
# Sorted region trees

Scopes are sorted one after the other, outer ones first, by the first blocks of what stands in them.
One call need not put a tree in order, because the first blocks that it leaves can be others than
those it sorted by.  The main result, `RegionTree.after_sortChildren`, says what one call does
leave, when that is enough, and how many calls always are.

## Strategy

* What a nested region is sorted by is its first block, and the scopes in which that is found have
  greater numbers, so that they are not sorted yet.  Hence one call sorts all scopes at once by the
  first blocks that were there before it (`RegionTree.regions_sortChildren`).
* Where calls no longer change anything below the children of a scope, one more call settles the
  scope itself: it is sorted twice by the same first blocks
  (`RegionTree.regions_sortChildren_sortChildren`).  What is settled stays so.  By induction each
  call settles one more level of scopes (`RegionTree.settled_iterate`).
* Scopes are sorted by numbers, in which a region without blocks counts as one with the greatest
  offset.  If no block has that offset, this is the order of the first blocks with regions without
  blocks last (`RegionTree.childOffset_le_iff`).
* One call is enough exactly if no two children of a scope change places when they are compared by
  their first blocks (`RegionTree.inOrder_sortChildren_iff`).
-/

namespace CilAnalysis

/-! ## One scope -/

namespace Region

/-- A scope with what stands in it sorted by a key.  Other regions are as they were. -/
def sortedBy (key : RegionChild → Nat) : Region → Region
  | scope children _ =>
    let sorted := children.mergeSort fun a b => key a ≤ key b
    scope sorted sorted.head?
  | r => r

variable {key key' : RegionChild → Nat} {r : Region} {children : List RegionChild}
  {entry : Option RegionChild}

private theorem pairwise_mergeSort_key (key : RegionChild → Nat) (children : List RegionChild) :
    (children.mergeSort fun a b => key a ≤ key b).Pairwise fun a b => key a ≤ key b := by
  have hsorted : (children.mergeSort fun a b => key a ≤ key b).Pairwise fun a b =>
      decide (key a ≤ key b) = true :=
    List.pairwise_mergeSort (by simpa using fun a b c => Nat.le_trans)
      (by simpa using fun a b => Nat.le_total _ _) children
  simpa using hsorted

private theorem sortedBy_congr
    (hkey : ∀ children entry, r = .scope children entry → ∀ a ∈ children, key a = key' a) :
    r.sortedBy key = r.sortedBy key' := by
  cases r with
  | scope children entry =>
      have hsame := hkey children entry rfl
      have hsorted := List.map_mergeSort (r := fun a b => decide (key a ≤ key b))
        (s := fun a b => decide (key' a ≤ key' b)) (f := id) (l := children) fun a ha b hb => by
          rw [hsame a ha, hsame b hb]
          rfl
      rw [List.map_id, List.map_id] at hsorted
      simp only [sortedBy, hsorted]
  | guarded => rfl
  | handler => rfl

/-- A region that is a scope once sorted was one before, with the same children. -/
theorem perm_of_sortedBy_eq (h : r.sortedBy key = .scope children entry) :
    ∃ before entry', r = .scope before entry' ∧ children.Perm before := by
  cases r with
  | scope before entry' =>
      simp only [sortedBy, scope.injEq] at h
      exact ⟨before, entry', rfl, h.1 ▸ List.mergeSort_perm ..⟩
  | guarded => cases h
  | handler => cases h

private theorem sortedBy_eq_self_iff :
    (scope children entry).sortedBy key = scope children entry ↔
      entry = children.head? ∧ children.Pairwise fun a b => key a ≤ key b := by
  have hpairwise := pairwise_mergeSort_key key children
  simp only [sortedBy, scope.injEq]
  constructor
  · rintro ⟨hsorted, hentry⟩
    rw [hsorted] at hpairwise hentry
    exact ⟨hentry.symm, hpairwise⟩
  · rintro ⟨rfl, hchildren⟩
    have hsorted : (children.mergeSort fun a b => key a ≤ key b) = children :=
      List.mergeSort_of_pairwise (by simpa using hchildren)
    exact ⟨hsorted, by rw [hsorted]⟩

private theorem sortedBy_sortedBy (key : RegionChild → Nat) (r : Region) :
    (r.sortedBy key).sortedBy key = r.sortedBy key := by
  cases r with
  | scope children entry =>
      exact sortedBy_eq_self_iff.mpr ⟨rfl, pairwise_mergeSort_key key children⟩
  | guarded => rfl
  | handler => rfl

end Region

namespace RegionTree

variable {t t' : RegionTree} {id : Nat} {children : List RegionChild} {entry : Option RegionChild}

/-! ## First blocks -/

theorem firstBelow_eq_head? (t : RegionTree) (steps id : Nat) :
    t.firstBelow steps id = (t.blocksBelow steps id).head? := by
  induction steps generalizing id with
  | zero => rfl
  | succ steps ih =>
      rw [firstBelow, blocksBelow]
      cases t.regions[id]? with
      | none => rfl
      | some r =>
          have hregions (ids : List Nat) : ids.findSome? (t.firstBelow steps) =
              (ids.flatMap (t.blocksBelow steps)).head? := by
            rw [List.head?_flatMap]
            congr 1
            funext id
            exact ih id
          cases r with
          | scope children entry =>
              dsimp only
              rw [List.head?_flatMap]
              congr 1
              funext child
              cases child with
              | block offset => rfl
              | region id => exact ih id
          | guarded => exact hregions _
          | handler => exact hregions _

theorem Within.congr (hparents : t'.parents = t.parents) {a d : Nat} (h : t.Within a d) :
    t'.Within a d := by
  induction h with
  | refl => exact .refl
  | step hparent _ ih => exact .step (hparents ▸ hparent) ih

theorem mem_regionsIn_of_child (hscope : t.regions[id]? = some (.scope children entry)) {c : Nat}
    (hc : .region c ∈ children) : c ∈ t.regionsIn id := by
  rw [regionsIn, held_of_getElem? hscope]
  exact List.mem_filterMap.mpr ⟨_, hc, rfl⟩

/-- What is below a region depends on the region and on what is below those directly below it. -/
theorem blocksBelow_succ_congr {steps steps' : Nat} (hsame : t'.regions[id]? = t.regions[id]?)
    (hbelow : ∀ c ∈ t.regionsIn id, t'.blocksBelow steps' c = t.blocksBelow steps c) :
    t'.blocksBelow (steps' + 1) id = t.blocksBelow (steps + 1) id := by
  rw [blocksBelow, blocksBelow, hsame]
  cases hr : t.regions[id]? with
  | none => rfl
  | some r =>
      cases r with
      | scope children entry =>
          refine List.flatMap_congr fun child hchild => ?_
          cases child with
          | block offset => rfl
          | region c => exact hbelow c (mem_regionsIn_of_child hr hchild)
      | guarded | handler =>
          rw [regionsIn, held_of_getElem? hr] at hbelow
          exact List.flatMap_congr hbelow

/-- What is below a region depends on the regions within it only. -/
theorem blocksBelow_congr (ht : t.Sound) {steps : Nat}
    (hsame : ∀ d, t.Within id d → t'.regions[d]? = t.regions[d]?) :
    t'.blocksBelow steps id = t.blocksBelow steps id := by
  induction steps generalizing id with
  | zero => rfl
  | succ steps ih =>
      refine blocksBelow_succ_congr (hsame id .refl) fun c hc => ?_
      refine ih fun d hd => hsame d ?_
      exact hd.of_child (ht.mem_regionsIn.mp hc)

private theorem childOffset_congr (ht : t.Sound) (hsize : t'.size = t.size)
    (hscope : t.regions[id]? = some (.scope children entry))
    (hsame : ∀ c ∈ t.regionsIn id, ∀ d, t.Within c d → t'.regions[d]? = t.regions[d]?)
    {a : RegionChild} (ha : a ∈ children) : t'.childOffset a = t.childOffset a := by
  cases a with
  | block offset => rfl
  | region c =>
      have hc : c ∈ t.regionsIn id := mem_regionsIn_of_child hscope ha
      rw [childOffset, childOffset, firstBelow_eq_head?, firstBelow_eq_head?, hsize,
        blocksBelow_congr ht (hsame c hc)]

/-! ## All scopes -/

private theorem regions_sortScope (t : RegionTree) (id d : Nat) :
    (t.sortScope id).regions[d]? =
      if d = id then (t.regions[d]?).map (Region.sortedBy t.childOffset) else t.regions[d]? := by
  unfold sortScope
  split
  next children entry hscope =>
    dsimp only
    by_cases hd : d = id
    · subst hd
      rw [if_pos rfl, Array.getElem?_setIfInBounds_self_of_lt (lt_size_of_getElem? hscope), hscope]
      rfl
    · rw [if_neg hd, Array.getElem?_setIfInBounds_ne (Ne.symm hd)]
  next hother =>
    by_cases hd : d = id
    · subst hd
      rw [if_pos rfl]
      cases hr : t.regions[d]? with
      | none => rfl
      | some r =>
          cases r with
          | scope children entry => exact absurd hr (hother children entry)
          | guarded => rfl
          | handler => rfl
    · rw [if_neg hd]

/-- The first scopes are sorted by the first blocks of the tree before, because those are found in
scopes with greater numbers. -/
theorem regions_foldl_sortScope (ht : t.Sound) (n d : Nat) :
    ((List.range n).foldl sortScope t).regions[d]? =
      if d < n then (t.regions[d]?).map (Region.sortedBy t.childOffset) else t.regions[d]? := by
  induction n generalizing d with
  | zero => rfl
  | succ n ih =>
      rw [List.range_succ, List.foldl_append, List.foldl_cons, List.foldl_nil, regions_sortScope]
      by_cases hd : d = n
      · subst hd
        rw [if_pos rfl, if_pos (Nat.lt_succ_self d), ih, if_neg (Nat.lt_irrefl d)]
        refine Option.map_congr fun r hr => Region.sortedBy_congr ?_
        rintro children entry rfl a ha
        have hsize : ((List.range d).foldl sortScope t).size = t.size :=
          List.foldlRecOn (motive := fun t' => t'.size = t.size) _ _ rfl fun t' ht' id _ =>
            (size_sortScope t' id).trans ht'
        -- What is within the children has greater numbers and is not sorted yet.
        refine childOffset_congr ht hsize hr (fun c hc d' hd' => ?_) ha
        have hlt := ht.parent_lt (ht.mem_regionsIn.mp hc)
        have hle := hd'.le ht
        rw [ih, if_neg (by omega)]
      · rw [if_neg hd, ih]
        by_cases hlt : d < n
        · rw [if_pos hlt, if_pos (by omega)]
        · rw [if_neg hlt, if_neg (by omega)]

/-- One call sorts all scopes by the first blocks that were there before it. -/
theorem regions_sortChildren (ht : t.Sound) (d : Nat) :
    t.sortChildren.regions[d]? = (t.regions[d]?).map (Region.sortedBy t.childOffset) := by
  rw [sortChildren, regions_foldl_sortScope ht]
  split
  next => rfl
  next hd =>
    rw [Array.getElem?_eq_none (Nat.le_of_not_lt hd)]
    rfl

private theorem parents_sortChildren (t : RegionTree) : t.sortChildren.parents = t.parents :=
  List.foldlRecOn (motive := fun t' => t'.parents = t.parents) _ _ rfl fun t' ht' id _ =>
    (parents_sortScope t' id).trans ht'

private theorem eq_of_fields (hregions : t'.regions = t.regions) (hparents : t'.parents = t.parents)
    (hblocks : t'.blocks = t.blocks) : t' = t := by
  cases t
  cases t'
  rw [mk.injEq]
  exact ⟨hregions, hparents, hblocks⟩

/-- `t'` is `t` but for the order in which things stand in scopes, and for where control enters. -/
structure Reorders (t t' : RegionTree) : Prop where
  parents : t'.parents = t.parents
  blocks : t'.blocks = t.blocks
  scope : ∀ (id : Nat) (children : List RegionChild) (entry : Option RegionChild),
    t.regions[id]? = some (.scope children entry) →
    ∃ children' entry', t'.regions[id]? = some (.scope children' entry') ∧ children'.Perm children
  other : ∀ id : Nat, ¬ t.Has Region.isScope id → t'.regions[id]? = t.regions[id]?

theorem Reorders.refl (t : RegionTree) : t.Reorders t :=
  ⟨rfl, rfl, fun _ children entry hscope => ⟨children, entry, hscope, .refl _⟩, fun _ _ => rfl⟩

theorem Reorders.trans {t'' : RegionTree} (h : t.Reorders t') (h' : t'.Reorders t'') :
    t.Reorders t'' where
  parents := h'.parents.trans h.parents
  blocks := h'.blocks.trans h.blocks
  scope id children entry hscope := by
    obtain ⟨children', entry', hscope', hperm⟩ := h.scope id children entry hscope
    obtain ⟨children'', entry'', hscope'', hperm'⟩ := h'.scope id children' entry' hscope'
    exact ⟨children'', entry'', hscope'', hperm'.trans hperm⟩
  other id hother := by
    have hsame := h.other id hother
    refine (h'.other id fun hscope => hother ?_).trans hsame
    rwa [Has, ← hsame]

private theorem reorders_sortChildren (ht : t.Sound) : t.Reorders t.sortChildren where
  parents := parents_sortChildren t
  blocks := blocks_sortChildren t
  scope id children entry hscope := by
    rw [regions_sortChildren ht, hscope]
    exact ⟨_, _, rfl, List.mergeSort_perm ..⟩
  other id hother := by
    rw [regions_sortChildren ht]
    cases hr : t.regions[id]? with
    | none => rfl
    | some r =>
        cases r with
        | scope children entry => exact absurd ⟨_, hr, rfl⟩ hother
        | guarded => rfl
        | handler => rfl

theorem Reorders.mem_regionsIn (h : t.Reorders t') (ht : t.Sound) (ht' : t'.Sound) {c : Nat} :
    c ∈ t'.regionsIn id ↔ c ∈ t.regionsIn id := by
  rw [ht'.mem_regionsIn, ht.mem_regionsIn, h.parents]

private theorem exists_scope_of_sortChildren (ht : t.Sound)
    (hscope : t.sortChildren.regions[id]? = some (.scope children entry)) :
    ∃ before entry', t.regions[id]? = some (.scope before entry') ∧ children.Perm before := by
  rw [regions_sortChildren ht, Option.map_eq_some_iff] at hscope
  obtain ⟨r, hr, hsorted⟩ := hscope
  obtain ⟨before, entry', rfl, hperm⟩ := Region.perm_of_sortedBy_eq hsorted
  exact ⟨before, entry', hr, hperm⟩

/-- What stands in each scope is in the order of a key, and control enters at the first of it. -/
def InOrder {α : Type} [LE α] (t : RegionTree) (key : RegionChild → α) : Prop :=
  ∀ (id : Nat) (children : List RegionChild) (entry : Option RegionChild),
    t.regions[id]? = some (.scope children entry) →
    entry = children.head? ∧ children.Pairwise fun a b => key a ≤ key b

private theorem inOrder_sortChildren (ht : t.Sound) : t.sortChildren.InOrder t.childOffset := by
  intro id children entry hscope
  rw [regions_sortChildren ht, Option.map_eq_some_iff] at hscope
  obtain ⟨r, -, hr⟩ := hscope
  rw [← Region.sortedBy_eq_self_iff, ← hr, Region.sortedBy_sortedBy]

/-- A call changes nothing exactly if the tree is in order. -/
theorem sortChildren_eq_self_iff (ht : t.Sound) :
    t.sortChildren = t ↔ t.InOrder t.childOffset := by
  constructor
  · intro hsame
    have horder := inOrder_sortChildren ht
    rwa [hsame] at horder
  · intro horder
    have hregions : t.sortChildren.regions = t.regions := by
      refine Array.ext_getElem? fun d => ?_
      rw [regions_sortChildren ht]
      cases hr : t.regions[d]? with
      | none => rfl
      | some r =>
          cases r with
          | scope children entry =>
              exact congrArg some (Region.sortedBy_eq_self_iff.mpr (horder d children entry hr))
          | guarded => rfl
          | handler => rfl
    exact eq_of_fields hregions (parents_sortChildren t) (blocks_sortChildren t)

/-! ## Call after call -/

/-- A further call changes nothing within a region. -/
def Settled (t : RegionTree) (id : Nat) : Prop :=
  ∀ d, t.Within id d → t.sortChildren.regions[d]? = t.regions[d]?

/-- A scope is sorted in the same way by two calls if nothing within its children changes between
them. -/
theorem regions_sortChildren_sortChildren (ht : t.Sound)
    (hsettled : ∀ c ∈ t.regionsIn id, t.Settled c) :
    t.sortChildren.sortChildren.regions[id]? = t.sortChildren.regions[id]? := by
  rw [regions_sortChildren ht.sortChildren, regions_sortChildren ht, Option.map_map]
  refine Option.map_congr fun r hr => ?_
  calc (r.sortedBy t.childOffset).sortedBy t.sortChildren.childOffset
      = (r.sortedBy t.childOffset).sortedBy t.childOffset := by
        refine Region.sortedBy_congr fun children entry hsorted a ha => ?_
        obtain ⟨before, entry', rfl, hperm⟩ := Region.perm_of_sortedBy_eq hsorted
        exact childOffset_congr ht (size_sortChildren t) hr hsettled (hperm.mem_iff.mp ha)
    _ = r.sortedBy t.childOffset := Region.sortedBy_sortedBy _ r

theorem Settled.within (h : t.Settled id) {d : Nat} (hd : t.Within id d) : t.Settled d :=
  fun d' hd' => h d' (hd.trans hd')

/-- A region is settled if nothing changes in it and below its children. -/
theorem settled_of_children (ht : t.Sound) (hself : t.sortChildren.regions[id]? = t.regions[id]?)
    (hchildren : ∀ c ∈ t.regionsIn id, t.Settled c) : t.Settled id := by
  intro d hd
  rcases hd.eq_or_child with rfl | ⟨c, hc, hd⟩
  · exact hself
  · exact hchildren c (ht.mem_regionsIn.mpr hc) d hd

/-- What is settled stays so. -/
theorem Settled.sortChildren (h : t.Settled id) (ht : t.Sound) : t.sortChildren.Settled id := by
  intro d hd
  have hwithin : t.Within id d := hd.congr (parents_sortChildren t).symm
  refine regions_sortChildren_sortChildren ht fun c hc => ?_
  exact h.within (hwithin.trans (.step (ht.mem_regionsIn.mp hc) .refl))

/-- One call settles a region of which the children are settled. -/
theorem settled_sortChildren (ht : t.Sound) (hchildren : ∀ c ∈ t.regionsIn id, t.Settled c) :
    t.sortChildren.Settled id := by
  refine settled_of_children ht.sortChildren (regions_sortChildren_sortChildren ht hchildren) ?_
  intro c hc
  rw [(reorders_sortChildren ht).mem_regionsIn ht ht.sortChildren] at hc
  exact (hchildren c hc).sortChildren ht

/-- The greatest number of scopes that stand in one another, from a region down. -/
def scopeLevels (t : RegionTree) : Nat → Nat → Nat
  | 0, _ => 0
  | steps + 1, id =>
    match t.regions[id]? with
    | none => 0
    | some r =>
      let below := ((r.childRegions.map (t.scopeLevels steps)).max?).getD 0
      if r.isScope then below + 1 else below

/-- The greatest number of scopes that stand in one another. -/
def scopeNesting (t : RegionTree) : Nat := t.scopeLevels t.size root

private theorem scopeLevels_child_le (steps : Nat) {c : Nat} {r : Region}
    (hr : t.regions[id]? = some r) (hc : c ∈ t.regionsIn id) :
    t.scopeLevels steps c + (if r.isScope then 1 else 0) ≤ t.scopeLevels (steps + 1) id := by
  rw [regionsIn, held_of_getElem? hr] at hc
  have hle : t.scopeLevels steps c ≤ ((r.childRegions.map (t.scopeLevels steps)).max?).getD 0 :=
    List.le_max?_getD_of_mem (List.mem_map_of_mem hc)
  rw [scopeLevels, hr]
  dsimp only
  split <;> omega

/-- Calls keep the tree sound and change the order only. -/
theorem kept_iterate (ht : t.Sound) (n : Nat) :
    (sortChildren^[n] t).Sound ∧ t.Reorders (sortChildren^[n] t) := by
  induction n with
  | zero => exact ⟨ht, .refl t⟩
  | succ n ih =>
      obtain ⟨hsound, hreorders⟩ := ih
      rw [Function.iterate_succ_apply']
      exact ⟨hsound.sortChildren, hreorders.trans (reorders_sortChildren hsound)⟩

private theorem size_iterate (t : RegionTree) (n : Nat) : (sortChildren^[n] t).size = t.size := by
  induction n with
  | zero => rfl
  | succ n ih => rw [Function.iterate_succ_apply', size_sortChildren, ih]

private theorem settled_of_size_le (ht : t.Sound) (hid : t.size ≤ id) : t.Settled id := by
  intro d hd
  have hle : t.size ≤ d := hid.trans (hd.le ht)
  rw [regions_sortChildren ht, Array.getElem?_eq_none hle]
  rfl

/-- A region that is no scope is settled with its children. -/
theorem settled_of_not_scope (ht : t.Sound) (hid : ¬ t.Has Region.isScope id)
    (hchildren : ∀ c ∈ t.regionsIn id, t.Settled c) : t.Settled id :=
  settled_of_children ht ((reorders_sortChildren ht).other id hid) hchildren

/-- As many calls as scopes stand in one another below a region settle it. -/
theorem settled_iterate (ht : t.Sound) {steps n : Nat} (hsteps : t.size ≤ id + steps)
    (hn : t.scopeLevels steps id ≤ n) : (sortChildren^[n] t).Settled id := by
  induction steps generalizing id n with
  | zero => exact settled_of_size_le (kept_iterate ht n).1 ((size_iterate t n).trans_le hsteps)
  | succ steps ih =>
      obtain ⟨hsound, hreorders⟩ := kept_iterate ht n
      cases hr : t.regions[id]? with
      | none =>
          have hid : t.size ≤ id := Array.getElem?_eq_none_iff.mp hr
          exact settled_of_size_le hsound ((size_iterate t n).trans_le hid)
      | some r =>
          have hchild {c : Nat} (hc : c ∈ t.regionsIn id) : t.size ≤ c + steps := by
            have hlt := ht.parent_lt (ht.mem_regionsIn.mp hc)
            omega
          cases hscope : r.isScope with
          | true =>
              -- The last of the calls is the one that settles the scope itself.
              obtain ⟨k, rfl⟩ : ∃ k, n = k + 1 := by
                refine Nat.exists_eq_succ_of_ne_zero fun hzero => ?_
                rw [scopeLevels, hr] at hn
                simp only [hscope, if_true] at hn
                omega
              obtain ⟨hsound', hreorders'⟩ := kept_iterate ht k
              rw [Function.iterate_succ_apply']
              refine settled_sortChildren hsound' fun c hc => ?_
              rw [hreorders'.mem_regionsIn ht hsound'] at hc
              have hlevels := scopeLevels_child_le steps hr hc
              rw [hscope, if_pos rfl] at hlevels
              exact ih (hchild hc) (by omega)
          | false =>
              have hother : ¬ t.Has Region.isScope id := by
                rintro ⟨r', hr', hscope'⟩
                obtain rfl := Option.some.inj (hr.symm.trans hr')
                rw [hscope] at hscope'
                cases hscope'
              -- A region that is no scope needs no call of its own.
              refine settled_of_not_scope hsound ?_ fun c hc => ?_
              · rwa [Has, hreorders.other id hother]
              · rw [hreorders.mem_regionsIn ht hsound] at hc
                have hlevels := scopeLevels_child_le steps hr hc
                exact ih (hchild hc) (by omega)

/-- If the root is settled, a further call changes nothing at all. -/
theorem sortChildren_eq_self_of_settled (ht : t.Sound) (h : t.Settled root) :
    t.sortChildren = t := by
  refine eq_of_fields (Array.ext_getElem? fun d => ?_) (parents_sortChildren t)
    (blocks_sortChildren t)
  by_cases hd : d < t.size
  · exact h d (.of_root ht hd)
  · exact settled_of_size_le ht (Nat.le_of_not_lt hd) d .refl

/-! ## The order of first blocks -/

/-- The first block of what stands in a scope.  A region without blocks comes after all others. -/
def firstOf (t : RegionTree) : RegionChild → WithTop Nat
  | .block offset => .some offset
  | .region id => (t.firstBelow t.size id).elim ⊤ .some

/-- The blocks of what stands in a scope. -/
def blocksAt (t : RegionTree) : RegionChild → List Nat
  | .block offset => [offset]
  | .region id => t.blocksBelow t.size id

variable {a b : RegionChild}

private theorem firstOf_eq_head? (t : RegionTree) (a : RegionChild) :
    t.firstOf a = (t.blocksAt a).head?.elim ⊤ WithTop.some := by
  cases a with
  | block offset => rfl
  | region id => rw [firstOf, blocksAt, firstBelow_eq_head?]

private theorem childOffset_eq_untopD (t : RegionTree) (a : RegionChild) :
    t.childOffset a = (t.firstOf a).untopD greatestOffset := by
  cases a with
  | block offset => rfl
  | region id =>
      rw [childOffset, firstOf]
      cases t.firstBelow t.size id <;> rfl

private theorem mem_blocksAt_of_firstOf {offset : Nat} (h : t.firstOf a = .some offset) :
    offset ∈ t.blocksAt a := by
  rw [firstOf_eq_head?] at h
  cases hblocks : t.blocksAt a with
  | nil =>
      rw [hblocks] at h
      cases h
  | cons first rest =>
      rw [hblocks] at h
      obtain rfl : first = offset := WithTop.coe_injective h
      exact List.mem_cons_self

private theorem firstOf_eq_top_iff : t.firstOf a = ⊤ ↔ ∀ offset, offset ∉ t.blocksAt a := by
  rw [firstOf_eq_head?, ← List.eq_nil_iff_forall_not_mem]
  cases t.blocksAt a with
  | nil => simp
  | cons => simp

section Siblings

variable (ht : t.Sound) (hscope : t.regions[id]? = some (.scope children entry))
include ht hscope

private theorem nodup_flatMap_blocksAt : (children.flatMap t.blocksAt).Nodup := by
  have hbelow : t.blocksBelow (t.size + 1) id = children.flatMap t.blocksAt := by
    rw [blocksBelow, hscope]
    refine List.flatMap_congr fun child _ => ?_
    cases child <;> rfl
  rw [← hbelow]
  exact nodup_blocksBelow ht _ id

private theorem mem_blocks_of_mem_blocksAt (ha : a ∈ children) {offset : Nat}
    (h : offset ∈ t.blocksAt a) : offset ∈ t.blocks := by
  rw [SortedMap.mem_iff_get?]
  cases a with
  | block offset' =>
      obtain rfl := List.mem_singleton.mp h
      refine ⟨id, ht.mem_blocksIn.mp ?_⟩
      rw [blocksIn, held_of_getElem? hscope]
      exact List.mem_filterMap.mpr ⟨_, ha, rfl⟩
  | region c =>
      obtain ⟨s, hs, -⟩ := within_of_mem_blocksBelow ht h
      exact ⟨s, hs⟩

/-- Different things in a scope have different first blocks, if they have any. -/
theorem eq_of_firstOf_eq (ha : a ∈ children) (hb : b ∈ children) {offset : Nat}
    (hfirst : t.firstOf a = .some offset) (hfirst' : t.firstOf b = .some offset) : a = b := by
  have hdisjoint := (List.nodup_flatMap.mp (nodup_flatMap_blocksAt ht hscope)).2
  have : Std.Symm (Function.onFun List.Disjoint t.blocksAt) := ⟨fun _ _ h => h.symm⟩
  by_contra hne
  exact hdisjoint.forall ha hb hne (mem_blocksAt_of_firstOf hfirst)
    (mem_blocksAt_of_firstOf hfirst')

/-- What scopes are sorted by is in the order of the first blocks, if no block has the greatest
offset. -/
theorem childOffset_le_iff (hoffsets : ∀ offset ∈ t.blocks, offset < greatestOffset)
    (ha : a ∈ children) (hb : b ∈ children) :
    t.childOffset a ≤ t.childOffset b ↔ t.firstOf a ≤ t.firstOf b := by
  have hlt {c : RegionChild} (hc : c ∈ children) {offset : Nat} (h : t.firstOf c = .some offset) :
      offset < greatestOffset :=
    hoffsets offset (mem_blocks_of_mem_blocksAt ht hscope hc (mem_blocksAt_of_firstOf h))
  rw [childOffset_eq_untopD, childOffset_eq_untopD]
  cases hfirst : t.firstOf a with
  | top =>
      cases hfirst' : t.firstOf b with
      | top => exact iff_of_true le_rfl le_rfl
      | coe offset' =>
          refine iff_of_false (Nat.not_le.mpr (hlt hb hfirst')) ?_
          exact not_le.mpr (WithTop.coe_lt_top offset')
  | coe offset =>
      cases hfirst' : t.firstOf b with
      | top => exact iff_of_true (hlt ha hfirst).le le_top
      | coe offset' => exact WithTop.coe_le_coe.symm

end Siblings

private theorem inOrder_firstOf_iff (ht : t.Sound)
    (hoffsets : ∀ offset ∈ t.blocks, offset < greatestOffset) :
    t.InOrder t.firstOf ↔ t.InOrder t.childOffset := by
  refine forall_congr' fun id => forall_congr' fun children => forall_congr' fun entry =>
    forall_congr' fun hscope => and_congr_right fun _ => ?_
  exact List.Pairwise.iff_of_mem fun ha hb => (childOffset_le_iff ht hscope hoffsets ha hb).symm

/-- One call puts scopes in the order of the first blocks that were there before it. -/
theorem inOrder_sortChildren_firstOf (ht : t.Sound)
    (hoffsets : ∀ offset ∈ t.blocks, offset < greatestOffset) :
    t.sortChildren.InOrder t.firstOf := by
  intro id sorted entry hscope
  obtain ⟨hentry, hsorted⟩ := inOrder_sortChildren ht id sorted entry hscope
  obtain ⟨children, entry', hscope', hperm⟩ := exists_scope_of_sortChildren ht hscope
  refine ⟨hentry, hsorted.imp_of_mem fun ha hb hle => ?_⟩
  exact (childOffset_le_iff ht hscope' hoffsets (hperm.mem_iff.mp ha) (hperm.mem_iff.mp hb)).mp hle

/-- In no scope do two things change places when they are compared by their first blocks. -/
def KeepsFirsts (t t' : RegionTree) : Prop :=
  ∀ (id : Nat) (children : List RegionChild) (entry : Option RegionChild),
    t.regions[id]? = some (.scope children entry) →
    ∀ a ∈ children, ∀ b ∈ children, t.firstOf a ≤ t.firstOf b → t'.firstOf a ≤ t'.firstOf b

namespace Reorders

variable (h : t.Reorders t') (ht : t.Sound) (ht' : t'.Sound)
include h ht ht'

private theorem mem_blocksAt {offset : Nat} : offset ∈ t'.blocksAt a ↔ offset ∈ t.blocksAt a := by
  cases a with
  | block offset' => exact Iff.rfl
  | region c =>
      have hwithin (s : Nat) : t'.Within c s ↔ t.Within c s :=
        ⟨.congr h.parents.symm, .congr h.parents⟩
      calc offset ∈ t'.blocksAt (.region c)
          ↔ ∃ s, t'.regionOf? offset = some s ∧ t'.Within c s :=
            mem_blocksBelow ht' (Nat.le_add_left _ _)
        _ ↔ ∃ s, t.regionOf? offset = some s ∧ t.Within c s := by
            simp only [regionOf?, h.blocks, hwithin]
        _ ↔ offset ∈ t.blocksAt (.region c) := (mem_blocksBelow ht (Nat.le_add_left _ _)).symm

private theorem firstOf_eq_top : t'.firstOf a = ⊤ ↔ t.firstOf a = ⊤ := by
  rw [firstOf_eq_top_iff, firstOf_eq_top_iff]
  exact forall_congr' fun offset => not_congr (h.mem_blocksAt ht ht')

end Reorders

private theorem eq_or_related {R : RegionChild → RegionChild → Prop} (h : children.Pairwise R)
    (ha : a ∈ children) (hb : b ∈ children) : a = b ∨ R a b ∨ R b a := by
  have hboth : children.Pairwise fun a b => R a b ∨ R b a := h.imp .inl
  have : Std.Symm fun a b => R a b ∨ R b a := ⟨fun _ _ => .symm⟩
  by_cases hab : a = b
  · exact .inl hab
  · exact .inr (hboth.forall ha hb hab)

/-- One call puts a tree in order exactly if no first blocks change places in it. -/
theorem inOrder_sortChildren_iff (ht : t.Sound)
    (hoffsets : ∀ offset ∈ t.blocks, offset < greatestOffset) :
    t.sortChildren.InOrder t.sortChildren.firstOf ↔ t.KeepsFirsts t.sortChildren := by
  have hreorders := reorders_sortChildren ht
  have hbefore := inOrder_sortChildren_firstOf ht hoffsets
  constructor
  · intro horder id children entry hscope a ha b hb hle
    obtain ⟨sorted, entry', hscope', hperm⟩ := hreorders.scope id children entry hscope
    have hpairs := (hbefore id sorted entry' hscope').2.and (horder id sorted entry' hscope').2
    rcases eq_or_related hpairs (hperm.mem_iff.mpr ha) (hperm.mem_iff.mpr hb) with
      rfl | ⟨-, hab⟩ | ⟨hba, -⟩
    · exact le_rfl
    · exact hab
    · -- The two have the same first block, so they are one, or none of them has a block at all.
      have hsame := le_antisymm hle hba
      cases hfirst : t.firstOf b with
      | top =>
          rw [(hreorders.firstOf_eq_top ht ht.sortChildren).mpr hfirst]
          exact le_top
      | coe offset =>
          obtain rfl := eq_of_firstOf_eq ht hscope ha hb (hsame.trans hfirst) hfirst
          exact le_rfl
  · intro hkeeps id sorted entry hscope
    obtain ⟨hentry, hsorted⟩ := hbefore id sorted entry hscope
    obtain ⟨children, entry', hscope', hperm⟩ := exists_scope_of_sortChildren ht hscope
    refine ⟨hentry, hsorted.imp_of_mem fun ha hb hle => ?_⟩
    exact hkeeps id children entry' hscope' _ (hperm.mem_iff.mp ha) _ (hperm.mem_iff.mp hb) hle

/-- What is left when scopes are sorted again and again.

One call changes the order only, and lets control enter every scope at its first child.  As many
calls as scopes stand in one another leave a tree that further calls do not change.

Regions without blocks are sorted as if they had a block with the greatest offset.  If no block has
that offset, one call puts the children of scopes in the order of the first blocks that were there
*before* it.  That is the order of those it leaves exactly if no two children of a scope change
places by their first blocks, and exactly then a second call changes nothing.  As many calls as
scopes stand in one another always put the tree in order. -/
theorem after_sortChildren (requests : List Request) :
    let t := after requests
    let once := t.sortChildren
    let times (n : Nat) := sortChildren^[n] t
    once.InOrder t.childOffset ∧
      (∀ n, t.Reorders (times n) ∧ (t.scopeNesting ≤ n → (times n).sortChildren = times n)) ∧
      ((∀ offset ∈ t.blocks, offset < greatestOffset) →
        once.InOrder t.firstOf ∧
        (once.InOrder once.firstOf ↔ t.KeepsFirsts once) ∧
        (once.InOrder once.firstOf ↔ once.sortChildren = once) ∧
        ∀ n, t.scopeNesting ≤ n → (times n).InOrder (times n).firstOf) := by
  intro t once times
  have ht : t.Sound := (kept_after requests).sound
  have hsettled (n : Nat) (hn : t.scopeNesting ≤ n) : (times n).sortChildren = times n :=
    sortChildren_eq_self_of_settled (kept_iterate ht n).1
      (settled_iterate ht (Nat.le_add_left _ _) hn)
  refine ⟨inOrder_sortChildren ht, fun n => ⟨(kept_iterate ht n).2, hsettled n⟩,
    fun hoffsets => ?_⟩
  have hfixed {t' : RegionTree} (ht' : t'.Sound) (hreorders : t.Reorders t') :
      t'.InOrder t'.firstOf ↔ t'.sortChildren = t' :=
    calc t'.InOrder t'.firstOf
        ↔ t'.InOrder t'.childOffset := inOrder_firstOf_iff ht' (hreorders.blocks ▸ hoffsets)
      _ ↔ t'.sortChildren = t' := (sortChildren_eq_self_iff ht').symm
  refine ⟨inOrder_sortChildren_firstOf ht hoffsets, inOrder_sortChildren_iff ht hoffsets,
    hfixed ht.sortChildren (reorders_sortChildren ht), fun n hn => ?_⟩
  obtain ⟨hsound, hreorders⟩ := kept_iterate ht n
  exact (hfixed hsound hreorders).mpr (hsettled n hn)

/-- The blocks of a nested scope, placed in falling order, and one outside of it. -/
def nestedBlocks : List Request := [.addGuarded 0, .addBlock 2 10, .addBlock 2 4, .addBlock 0 6]

/-- Two calls are enough for two scopes of which one stands in the other. -/
theorem after_sortChildren_twice :
    let t := after nestedBlocks
    (∀ offset ∈ t.blocks, offset < greatestOffset) ∧ t.scopeNesting = 2 ∧
      t.sortChildren.sortChildren.InOrder t.sortChildren.sortChildren.firstOf ∧
      t.sortChildren.sortChildren.sortChildren = t.sortChildren.sortChildren := by
  intro t
  have hoffsets : ∀ offset ∈ t.blocks, offset < greatestOffset := by decide
  have hnesting : t.scopeNesting = 2 := by decide
  obtain ⟨-, htimes, hordered⟩ := after_sortChildren nestedBlocks
  obtain ⟨-, -, -, horder⟩ := hordered hoffsets
  exact ⟨hoffsets, hnesting, horder 2 hnesting.le, (htimes 2).2 hnesting.le⟩

private theorem sortChildren_nestedBlocks :
    (after nestedBlocks).sortChildren =
      ⟨#[.scope [.block 6, .region 1] (some (.block 6)), .guarded 2 [],
        .scope [.block 4, .block 10] (some (.block 4))], #[none, some 0, some 1],
        (after nestedBlocks).blocks⟩ := by
  refine eq_of_fields ?_ ?_ (blocks_sortChildren _)
  · cbv
  · rw [parents_sortChildren]
    decide

/-- After one call the outer scope has the block with offset 6 before the region whose first block
is then the one with offset 4, control enters there, and a second call changes the tree. -/
theorem after_sortChildren_once :
    let once := (after nestedBlocks).sortChildren
    once.regions[root]? = some (.scope [.block 6, .region 1] (some (.block 6))) ∧
      once.firstOf (.region 1) = 4 ∧ ¬ once.InOrder once.firstOf ∧ once.sortChildren ≠ once := by
  intro once
  have hscope : once.regions[root]? = some (.scope [.block 6, .region 1] (some (.block 6))) := by
    unfold once
    rw [sortChildren_nestedBlocks]
    rfl
  have hfirst : once.firstOf (.region 1) = 4 := by
    unfold once
    rw [sortChildren_nestedBlocks]
    rfl
  have hunordered : ¬ once.InOrder once.firstOf := by
    intro horder
    have hle : once.firstOf (.block 6) ≤ once.firstOf (.region 1) := by
      simpa using (horder root _ _ hscope).2
    rw [hfirst] at hle
    exact absurd hle (by decide)
  have hsound : once.Sound := (kept_after nestedBlocks).sound.sortChildren
  have hoffsets : ∀ offset ∈ once.blocks, offset < greatestOffset := by
    unfold once
    rw [blocks_sortChildren]
    decide
  refine ⟨hscope, hfirst, hunordered, fun hsame => hunordered ?_⟩
  rwa [inOrder_firstOf_iff hsound hoffsets, ← sortChildren_eq_self_iff hsound]

end RegionTree

end CilAnalysis
