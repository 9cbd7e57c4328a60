import CilAnalysis.Proofs.Result
import CilAnalysis.Proofs.SortedMap
import CilAnalysis.Region.Walk

/-!
# Making region trees

A tree records who stands in whom three times: downwards in what each region holds, upwards in the
parent of each region, and for blocks in the map from offsets to scopes.  In a sound tree the three
agree, nothing stands in two places or twice in one, and parents have smaller numbers, so that the
way from a region to the root ends (`RegionTree.Sound`).  Every way of changing a tree keeps it
sound.

## Strategy

Each change is read once, as what it does to what stands in a region.  Both views of a region, the
regions directly below it and the blocks directly in it, are handled together (`RegionTree.held`):
an equation about a change holds of any view in which an empty scope shows nothing.

* Guarded regions and handlers are the same change: a new region below one that there is, and fresh
  empty scopes below the new one (`RegionTree.Hangs`).  Soundness is proved from this description
  and not from the functions (`Sound.hangs`).  New numbers are greater than all others, which keeps
  parents smaller and excludes that anything stands in two places.
* Sorting permutes what stands in a scope (`RegionTree.held_sortScope_perm`), and soundness does not
  depend on the order.
-/

namespace CilAnalysis

namespace Region

/-- The blocks directly in a region. -/
def childBlocks : Region → List Nat
  | scope children _ =>
    children.filterMap fun
      | .block offset => some offset
      | .region _ => none
  | _ => []

variable {r : Region}

private theorem childRegions_appendChild_region (h : r.isScope = true) (id : Nat) :
    (r.appendChild (.region id)).childRegions = r.childRegions ++ [id] := by
  cases r with
  | scope children entry => simp [appendChild, childRegions]
  | guarded => cases h
  | handler => cases h

private theorem childRegions_appendChild_block (offset : Nat) :
    (r.appendChild (.block offset)).childRegions = r.childRegions := by
  cases r <;> simp [appendChild, childRegions]

private theorem childBlocks_appendChild_region (id : Nat) :
    (r.appendChild (.region id)).childBlocks = r.childBlocks := by
  cases r <;> simp [appendChild, childBlocks]

private theorem childBlocks_appendChild_block (h : r.isScope = true) (offset : Nat) :
    (r.appendChild (.block offset)).childBlocks = r.childBlocks ++ [offset] := by
  cases r with
  | scope children entry => simp [appendChild, childBlocks]
  | guarded => cases h
  | handler => cases h

theorem childRegions_appendHandler (h : r.isGuarded = true) (handler : Nat) :
    (r.appendHandler handler).childRegions = r.childRegions ++ [handler] := by
  cases r with
  | guarded => simp [appendHandler, childRegions]
  | scope => cases h
  | handler => cases h

theorem childBlocks_appendHandler (handler : Nat) :
    (r.appendHandler handler).childBlocks = r.childBlocks := by
  cases r <;> rfl

theorem isScope_of_mem_childBlocks {offset : Nat} (h : offset ∈ r.childBlocks) :
    r.isScope = true := by
  cases r with
  | scope => rfl
  | guarded => cases h
  | handler => cases h

end Region

namespace RegionTree

/-- What is seen of the region with a number; nothing where there is no region. -/
def held (t : RegionTree) (view : Region → List Nat) (id : Nat) : List Nat :=
  t.regions[id]?.elim [] view

/-- The regions directly below the region with a number. -/
abbrev regionsIn (t : RegionTree) (id : Nat) : List Nat := t.held Region.childRegions id

/-- The blocks directly in the region with a number. -/
abbrev blocksIn (t : RegionTree) (id : Nat) : List Nat := t.held Region.childBlocks id

/-- What a tree holds downwards, upwards and by block agrees, and nothing stands in two places. -/
structure Sound (t : RegionTree) : Prop where
  size_parents : t.parents.size = t.size
  root : t.parents[root]? = some none
  eq_root : ∀ {id : Nat}, t.parents[id]? = some none → id = RegionTree.root
  parent_lt : ∀ {id p : Nat}, t.parents[id]? = some (some p) → p < id
  mem_regionsIn : ∀ {p id : Nat}, id ∈ t.regionsIn p ↔ t.parents[id]? = some (some p)
  nodup_regionsIn : ∀ p : Nat, (t.regionsIn p).Nodup
  mem_blocksIn : ∀ {id offset : Nat}, offset ∈ t.blocksIn id ↔ t.regionOf? offset = some id
  nodup_blocksIn : ∀ id : Nat, (t.blocksIn id).Nodup

variable {t t' : RegionTree} {view : Region → List Nat}

theorem region_eq_ok {id : Nat} {r : Region} : t.region id = .ok r ↔ t.regions[id]? = some r := by
  unfold region
  cases t.regions[id]? <;> simp

theorem parent_eq_ok {id : Nat} {p : Option Nat} :
    t.parent id = .ok p ↔ t.parents[id]? = some p := by
  unfold parent
  cases t.parents[id]? <;> simp

theorem scope_eq_ok {id : Nat} {contents : List RegionChild × Option RegionChild}
    (h : t.scope id = .ok contents) : ∃ r, t.regions[id]? = some r ∧ r.isScope = true := by
  obtain ⟨r, hr, h⟩ := bind_eq_ok h
  cases r with
  | scope children entry => exact ⟨_, region_eq_ok.mp hr, rfl⟩
  | guarded => exact nomatch h
  | handler => exact nomatch h

theorem lt_size_of_getElem? {id : Nat} {r : Region} (h : t.regions[id]? = some r) : id < t.size :=
  (Array.getElem?_eq_some_iff.mp h).1

theorem held_of_getElem? {id : Nat} {r : Region} (h : t.regions[id]? = some r) :
    t.held view id = view r := by
  rw [held, h]
  rfl

private theorem held_eq_nil {id : Nat} (h : t.size ≤ id) : t.held view id = [] := by
  rw [held, Array.getElem?_eq_none h]
  rfl

private theorem held_empty (hempty : view .emptyScope = []) (id : Nat) :
    empty.held view id = [] := by
  cases id with
  | zero => exact hempty
  | succ id => exact held_eq_nil (Nat.le_add_left 1 id)

theorem getElem?_of_mem_held {id x : Nat} (h : x ∈ t.held view id) :
    ∃ r, t.regions[id]? = some r ∧ x ∈ view r := by
  unfold held at h
  cases hr : t.regions[id]? with
  | none => simp [hr] at h
  | some r => exact ⟨r, rfl, by simpa [hr] using h⟩

/-! ## Changing regions -/

theorem size_push (t : RegionTree) (r : Region) (p : Nat) : (t.push r p).size = t.size + 1 :=
  Array.size_push ..

private theorem size_parents_push (t : RegionTree) (r : Region) (p : Nat) :
    (t.push r p).parents.size = t.parents.size + 1 :=
  Array.size_push ..

theorem getElem?_push (t : RegionTree) (r : Region) (p id : Nat) :
    (t.push r p).regions[id]? = if id = t.size then some r else t.regions[id]? :=
  Array.getElem?_push

private theorem parents_push (t : RegionTree) (r : Region) (p id : Nat) :
    (t.push r p).parents[id]? =
      if id = t.parents.size then some (some p) else t.parents[id]? :=
  Array.getElem?_push

private theorem held_push (t : RegionTree) (r : Region) (p id : Nat) :
    (t.push r p).held view id = if id = t.size then view r else t.held view id := by
  rw [held, getElem?_push]
  split <;> rfl

private theorem held_update {k : Nat} {r : Region} (hk : t'.regions[k]? = some r)
    (hne : ∀ id, id ≠ k → t'.regions[id]? = t.regions[id]?) (id : Nat) :
    t'.held view id = if id = k then view r else t.held view id := by
  split
  next hid => rw [hid, held_of_getElem? hk]
  next hid => rw [held, held, hne id hid]

private theorem held_modify {f : Region → Region} {k : Nat} {r : Region}
    (hr : t.regions[k]? = some r) (ht' : t'.regions = t.regions.modify k f) (id : Nat) :
    t'.held view id = if id = k then view (f r) else t.held view id := by
  refine held_update ?_ (fun id hid => ?_) id
  · rw [ht', Array.getElem?_modify, if_pos rfl, hr, Option.map_some]
  · rw [ht', Array.getElem?_modify, if_neg (Ne.symm hid)]

/-- Add empty scopes below a region. -/
def pushScopes (t : RegionTree) (p : Nat) : Nat → RegionTree
  | 0 => t
  | scopes + 1 => (t.pushScopes p scopes).push .emptyScope p

theorem size_pushScopes (t : RegionTree) (p scopes : Nat) :
    (t.pushScopes p scopes).size = t.size + scopes := by
  induction scopes with
  | zero => rfl
  | succ scopes ih => rw [pushScopes, size_push, ih, Nat.add_assoc]

private theorem size_parents_pushScopes (t : RegionTree) (p scopes : Nat) :
    (t.pushScopes p scopes).parents.size = t.parents.size + scopes := by
  induction scopes with
  | zero => rfl
  | succ scopes ih => rw [pushScopes, size_parents_push, ih, Nat.add_assoc]

private theorem blocks_pushScopes (t : RegionTree) (p scopes : Nat) :
    (t.pushScopes p scopes).blocks = t.blocks := by
  induction scopes with
  | zero => rfl
  | succ scopes ih => exact ih

theorem getElem?_pushScopes {p scopes id : Nat} (h : id < t.size) :
    (t.pushScopes p scopes).regions[id]? = t.regions[id]? := by
  induction scopes with
  | zero => rfl
  | succ scopes ih =>
      rw [pushScopes, getElem?_push, size_pushScopes, if_neg (by omega), ih]

private theorem parents_pushScopes (t : RegionTree) (p scopes id : Nat) :
    (t.pushScopes p scopes).parents[id]? =
      if t.parents.size ≤ id ∧ id < t.parents.size + scopes then some (some p)
      else t.parents[id]? := by
  induction scopes with
  | zero => rw [pushScopes, if_neg (by omega)]
  | succ scopes ih =>
      rw [pushScopes, parents_push, size_parents_pushScopes, ih]
      split
      next => rw [if_pos (by omega)]
      next => exact if_congr (by omega) rfl rfl

/-- Nothing is seen of an empty scope. -/
theorem held_pushScopes (hempty : view .emptyScope = []) (t : RegionTree) (p scopes id : Nat) :
    (t.pushScopes p scopes).held view id = t.held view id := by
  induction scopes with
  | zero => rfl
  | succ scopes ih =>
      rw [pushScopes, held_push, ih, hempty]
      split
      next hid => rw [held_eq_nil (by rw [hid, size_pushScopes]; omega)]
      next => rfl

/-! ## Guarded regions and handlers -/

/-- `t'` is `t` with a new region below `under` and fresh empty scopes below the new region. -/
structure Hangs (t t' : RegionTree) (under scopes : Nat) : Prop where
  under_lt : under < t.size
  size : t'.size = t.size + 1 + scopes
  size_parents : t'.parents.size = t.parents.size + 1 + scopes
  parents : ∀ id : Nat, t'.parents[id]? =
    if id = t.parents.size then some (some under)
    else if t.parents.size < id ∧ id ≤ t.parents.size + scopes then some (some t.size)
    else t.parents[id]?
  regionsIn : ∀ p : Nat, t'.regionsIn p =
    if p = under then t.regionsIn p ++ [t.size]
    else if p = t.size then List.range' (t.size + 1) scopes
    else t.regionsIn p
  blocksIn : ∀ p : Nat, t'.blocksIn p = t.blocksIn p
  blocks : t'.blocks = t.blocks

/-- Add a region with its scopes below another, which is told of it. -/
def hang (t : RegionTree) (r : Region) (under scopes : Nat) (tell : Region → Region) :
    RegionTree :=
  ((t.push r under).pushScopes t.size scopes).update under tell

theorem hang_hangs (r : Region) (scopes : Nat) (tell : Region → Region) {above : Region}
    {under : Nat} (habove : t.regions[under]? = some above)
    (htell : (tell above).childRegions = above.childRegions ++ [t.size])
    (hkeep : (tell above).childBlocks = above.childBlocks)
    (hscopes : r.childRegions = List.range' (t.size + 1) scopes) (hblocks : r.childBlocks = []) :
    t.Hangs (t.hang r under scopes tell) under scopes := by
  have hlt := lt_size_of_getElem? habove
  -- The region above has its number already, so that those added do not move it.
  have habove' : ((t.push r under).pushScopes t.size scopes).regions[under]? = some above := by
    rw [getElem?_pushScopes (by rw [size_push]; omega), getElem?_push, if_neg hlt.ne, habove]
  refine ⟨hlt, ?_, ?_, fun id => ?_, fun p => ?_, fun p => ?_, ?_⟩
  · show (Array.modify _ _ _).size = _
    rw [Array.size_modify]
    exact (size_pushScopes ..).trans (by rw [size_push])
  · exact (size_parents_pushScopes ..).trans (by rw [size_parents_push])
  · show ((t.push r under).pushScopes t.size scopes).parents[id]? = _
    rw [parents_pushScopes, parents_push, size_parents_push]
    grind
  · rw [regionsIn, held_modify habove' rfl, held_pushScopes rfl, held_push, htell, hscopes]
    split
    next hp => rw [hp, regionsIn, held_of_getElem? habove]
    next => rfl
  · rw [blocksIn, held_modify habove' rfl, held_pushScopes rfl, held_push, hkeep, hblocks]
    split
    next hp => rw [hp, blocksIn, held_of_getElem? habove]
    next =>
      split
      next hp => rw [blocksIn, held_eq_nil hp.ge]
      next => rfl
  · exact blocks_pushScopes ..

theorem addGuarded_hangs {scope : Nat} {ids : Nat × Nat} (h : t.addGuarded scope = .ok (ids, t')) :
    t.Hangs t' scope 1 := by
  obtain ⟨contents, hscope, h⟩ := bind_eq_ok h
  cases h
  obtain ⟨r, hr, hscope⟩ := scope_eq_ok hscope
  exact hang_hangs (.guarded (t.size + 1) []) 1 (Region.appendChild (.region t.size)) hr
    (Region.childRegions_appendChild_region hscope _) (Region.childBlocks_appendChild_region _)
    rfl rfl

theorem addHandler_hangs {guarded : Nat} {kind : ClauseKind} {ids : HandlerScopes}
    (h : t.addHandler guarded kind = .ok (ids, t')) : ∃ scopes, t.Hangs t' guarded scopes := by
  obtain ⟨r, hr, h⟩ := bind_eq_ok h
  cases hguarded : r.isGuarded with
  | false =>
      rw [hguarded] at h
      exact nomatch h
  | true =>
      rw [hguarded] at h
      have hangs (scopes : Nat) (handler : Region) := hang_hangs handler scopes
        (Region.appendHandler t.size) (region_eq_ok.mp hr)
        (Region.childRegions_appendHandler hguarded _) (Region.childBlocks_appendHandler _)
      -- A filter has a scope for its prologue too.
      cases kind with
      | filters start =>
          cases h
          exact ⟨2, hangs 2 (.handler (.filters start) (some (t.size + 1)) (t.size + 2) none)
            rfl rfl⟩
      | _ =>
          cases h
          exact ⟨1, hangs 1 (.handler _ none (t.size + 1) none) rfl rfl⟩

/-! ## Blocks -/

theorem addBlock_eq_ok {scope offset : Nat} (h : t.addBlock scope offset = .ok t') :
    offset ∉ t.blocks ∧ t'.blocks = t.blocks.insert offset scope ∧ t'.size = t.size ∧
      t'.parents = t.parents ∧ (∀ p, t'.regionsIn p = t.regionsIn p) ∧
      ∀ p, t'.blocksIn p = if p = scope then t.blocksIn p ++ [offset] else t.blocksIn p := by
  unfold addBlock at h
  split at h
  next => cases h
  next hnew =>
    obtain ⟨contents, hscope, h⟩ := bind_eq_ok h
    cases h
    obtain ⟨r, hr, hscope⟩ := scope_eq_ok hscope
    have hmodify (view : Region → List Nat) (p : Nat) :
        (t.appendChild scope (.block offset)).held view p =
          if p = scope then view (r.appendChild (.block offset)) else t.held view p :=
      held_modify hr rfl p
    refine ⟨fun hmem => hnew (SortedMap.contains_iff.mpr hmem), rfl, ?_, rfl, fun p => ?_,
      fun p => ?_⟩
    · exact Array.size_modify
    · refine (hmodify Region.childRegions p).trans ?_
      rw [Region.childRegions_appendChild_block]
      split
      next hp => rw [hp, regionsIn, held_of_getElem? hr]
      next => rfl
    · refine (hmodify Region.childBlocks p).trans ?_
      rw [Region.childBlocks_appendChild_block hscope]
      split
      next hp => rw [hp, blocksIn, held_of_getElem? hr]
      next => rfl

/-! ## Sorting -/

/-- Sorting moves what stands in a scope and changes nothing else. -/
theorem held_sortScope_perm
    (hview : ∀ children children' entry entry', children.Perm children' →
      (view (.scope children entry)).Perm (view (.scope children' entry')))
    (t : RegionTree) (id p : Nat) : ((t.sortScope id).held view p).Perm (t.held view p) := by
  unfold sortScope
  split
  next children entry hr =>
    have hlt : id < t.regions.size := lt_size_of_getElem? hr
    dsimp only
    rw [held_update (t := t) (Array.getElem?_setIfInBounds_self_of_lt hlt)
      fun id' hid => Array.getElem?_setIfInBounds_ne (Ne.symm hid)]
    split
    next hp =>
      rw [hp, held_of_getElem? hr]
      exact hview _ _ _ _ (List.mergeSort_perm ..)
    next => exact .refl _
  next => exact .refl _

theorem size_sortScope (t : RegionTree) (id : Nat) : (t.sortScope id).size = t.size := by
  unfold sortScope
  split
  next => exact Array.size_setIfInBounds
  next => rfl

theorem parents_sortScope (t : RegionTree) (id : Nat) : (t.sortScope id).parents = t.parents := by
  unfold sortScope
  split <;> rfl

private theorem blocks_sortScope (t : RegionTree) (id : Nat) :
    (t.sortScope id).blocks = t.blocks := by
  unfold sortScope
  split <;> rfl

/-! ## Soundness is kept -/

namespace Sound

theorem lt_size (ht : t.Sound) {id : Nat} {p : Option Nat} (h : t.parents[id]? = some p) :
    id < t.size :=
  ht.size_parents ▸ (Array.getElem?_eq_some_iff.mp h).1

theorem size_pos (ht : t.Sound) : 0 < t.size := ht.lt_size ht.root

theorem exists_getElem?_parents (ht : t.Sound) {id : Nat} (hid : id < t.size) :
    ∃ p, t.parents[id]? = some p :=
  ⟨_, Array.getElem?_eq_getElem (ht.size_parents.symm ▸ hid)⟩

theorem getElem?_parents_of_size_le (ht : t.Sound) {id : Nat} (hid : t.size ≤ id) :
    t.parents[id]? = none :=
  Array.getElem?_eq_none (ht.size_parents.trans_le hid)

theorem empty : RegionTree.empty.Sound where
  size_parents := rfl
  root := rfl
  eq_root := by
    intro id h
    exact Nat.lt_one_iff.mp (Array.getElem?_eq_some_iff.mp h).1
  parent_lt := by
    intro id p h
    cases id with
    | zero => exact nomatch h
    | succ id => exact nomatch h
  mem_regionsIn := by
    intro p id
    rw [regionsIn, held_empty rfl]
    refine iff_of_false List.not_mem_nil fun h => ?_
    cases id with
    | zero => exact nomatch h
    | succ id => exact nomatch h
  nodup_regionsIn := by
    intro p
    rw [regionsIn, held_empty rfl]
    exact .nil
  mem_blocksIn := by
    intro id offset
    rw [blocksIn, held_empty rfl]
    exact iff_of_false List.not_mem_nil (by simp [regionOf?, RegionTree.empty])
  nodup_blocksIn := by
    intro id
    rw [blocksIn, held_empty rfl]
    exact .nil

theorem hangs {under scopes : Nat} (ht : t.Sound) (h : t.Hangs t' under scopes) : t'.Sound := by
  have hpos := ht.size_pos
  have hunder := h.under_lt
  have hparents := h.parents
  rw [ht.size_parents] at hparents
  -- Numbers from `t.size` on are new: in `t` they neither hold a region nor stand in one.
  have hin : ∀ {p id : Nat}, id ∈ t.regionsIn p → p < id ∧ id < t.size := fun hid =>
    have hid := ht.mem_regionsIn.mp hid
    ⟨ht.parent_lt hid, ht.lt_size hid⟩
  refine ⟨?_, ?_, ?_, ?_, ?_, ?_, ?_, ?_⟩
  · rw [h.size_parents, h.size, ht.size_parents]
  · rw [hparents, RegionTree.root, if_neg (by omega), if_neg (by omega)]
    exact ht.root
  · intro id hid
    rw [hparents] at hid
    split at hid
    next => exact nomatch hid
    next =>
      split at hid
      next => exact nomatch hid
      next => exact ht.eq_root hid
  · intro id p hid
    rw [hparents] at hid
    split at hid
    next => cases hid; omega
    next =>
      split at hid
      next => cases hid; omega
      next => exact ht.parent_lt hid
  · intro p id
    rw [h.regionsIn, hparents]
    have hmem : id ∈ t.regionsIn p ↔ t.parents[id]? = some (some p) := ht.mem_regionsIn
    grind
  · intro p
    rw [h.regionsIn]
    split
    next =>
      refine List.nodup_append'.mpr ⟨ht.nodup_regionsIn p, List.nodup_singleton _, ?_⟩
      intro id hid hsize
      obtain rfl := List.mem_singleton.mp hsize
      exact absurd (hin hid).2 (Nat.lt_irrefl _)
    next =>
      split
      next => exact List.nodup_range'
      next => exact ht.nodup_regionsIn p
  · intro id offset
    rw [h.blocksIn, regionOf?, h.blocks]
    exact ht.mem_blocksIn
  · intro id
    rw [h.blocksIn]
    exact ht.nodup_blocksIn id

/-- As long as parents stay and regions at most move within theirs, only blocks matter. -/
theorem of_parents_eq (ht : t.Sound) (hsize : t'.size = t.size) (hparents : t'.parents = t.parents)
    (hregions : ∀ p, (t'.regionsIn p).Perm (t.regionsIn p))
    (hblocks : ∀ id offset, offset ∈ t'.blocksIn id ↔ t'.regionOf? offset = some id)
    (hnodup : ∀ id, (t'.blocksIn id).Nodup) : t'.Sound where
  size_parents := by rw [hparents, hsize, ht.size_parents]
  root := by rw [hparents, ht.root]
  eq_root := by
    rw [hparents]
    exact ht.eq_root
  parent_lt := by
    rw [hparents]
    exact ht.parent_lt
  mem_regionsIn := by
    intro p id
    rw [(hregions p).mem_iff, hparents]
    exact ht.mem_regionsIn
  nodup_regionsIn := fun p => (hregions p).nodup_iff.mpr (ht.nodup_regionsIn p)
  mem_blocksIn := hblocks _ _
  nodup_blocksIn := hnodup

theorem addBlock {scope offset : Nat} (ht : t.Sound) (h : t.addBlock scope offset = .ok t') :
    t'.Sound := by
  obtain ⟨hnew, hblocks, hsize, hparents, hregionsIn, hblocksIn⟩ := addBlock_eq_ok h
  have hfresh : ∀ id, offset ∉ t.blocksIn id := fun id hmem =>
    hnew (SortedMap.mem_iff_get?.mpr ⟨id, ht.mem_blocksIn.mp hmem⟩)
  refine ht.of_parents_eq hsize hparents (fun p => .of_eq (hregionsIn p)) ?_ ?_
  · intro id offset'
    have hmem : offset' ∈ t.blocksIn id ↔ t.regionOf? offset' = some id := ht.mem_blocksIn
    rw [hblocksIn, regionOf?, hblocks, SortedMap.get?_insert]
    grind [regionOf?]
  · intro id
    rw [hblocksIn]
    split
    next =>
      refine List.nodup_append'.mpr ⟨ht.nodup_blocksIn id, List.nodup_singleton _, ?_⟩
      intro offset' hmem heq
      obtain rfl := List.mem_singleton.mp heq
      exact hfresh id hmem
    next => exact ht.nodup_blocksIn id

theorem sortScope (ht : t.Sound) (id : Nat) : (t.sortScope id).Sound := by
  have hblocks : ∀ p, ((t.sortScope id).blocksIn p).Perm (t.blocksIn p) :=
    held_sortScope_perm (fun _ _ _ _ h => h.filterMap _) t id
  refine ht.of_parents_eq (size_sortScope t id) (parents_sortScope t id)
    (held_sortScope_perm (fun _ _ _ _ h => h.filterMap _) t id) ?_ ?_
  · intro p offset
    rw [(hblocks p).mem_iff, regionOf?, blocks_sortScope]
    exact ht.mem_blocksIn
  · exact fun p => (hblocks p).nodup_iff.mpr (ht.nodup_blocksIn p)

theorem sortChildren (ht : t.Sound) : t.sortChildren.Sound :=
  List.foldlRecOn _ _ ht fun _ ht id _ => ht.sortScope id

end Sound

/-- After blocks were placed one by one, the tree has those from before and the new ones. -/
theorem foldlM_addBlock {ι : Type} {scope offset : ι → Nat} {l : List ι}
    (h : l.foldlM (fun t x => t.addBlock (scope x) (offset x)) t = .ok t') (ht : t.Sound) :
    t'.Sound ∧ ∀ o, o ∈ t'.blocks ↔ o ∈ t.blocks ∨ ∃ x ∈ l, offset x = o := by
  induction l generalizing t with
  | nil =>
      cases h
      exact ⟨ht, by simp⟩
  | cons x rest ih =>
      rw [List.foldlM_cons] at h
      obtain ⟨t₁, ht₁, h⟩ := bind_eq_ok h
      obtain ⟨hsound, hmem⟩ := ih h (ht.addBlock ht₁)
      refine ⟨hsound, fun o => ?_⟩
      rw [hmem, (addBlock_eq_ok ht₁).2.1, SortedMap.mem_insert, List.exists_mem_cons_iff]
      grind

theorem blocks_sortChildren (t : RegionTree) : t.sortChildren.blocks = t.blocks :=
  List.foldlRecOn (motive := fun t' => t'.blocks = t.blocks) _ _ rfl fun t' ht' id _ =>
    (blocks_sortScope t' id).trans ht'

end RegionTree

end CilAnalysis
