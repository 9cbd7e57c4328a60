import CilAnalysis.Proofs.Region.InPlace
import CilAnalysis.Proofs.Region.Shape

/-!
# Histories of a region tree

The trees that any requests make of the empty one, those among them that are refused included.  Each
is sound and has the right shape, and from the two follows what is asked of a tree: every region has
one place and every block has one scope (`RegionTree.WellFormed`).  The main result is
`RegionTree.after_wellFormed`.

## Strategy

* A request is carried out in place, and comes to the same as making the new tree first
  (`RegionTree.Request.run_edit`).  So it is granted in full or refused with nothing changed.
* When it is granted depends on the kinds of regions and on where blocks are
  (`RegionTree.Request.exists_result_iff`), and what it leaves is a later form of the tree
  (`RegionTree.Request.result_grows`).
* Soundness, shape and a root that is a scope are kept by every request (`RegionTree.Kept`), and
  hold after any of them by induction.

That a block is in the scope it was placed in is a statement about the whole history
(`RegionTree.regionOf?_after`).  Whether the request that placed it was granted depends on those
before it, so the induction takes requests off the end of the list.  A block that is placed is never
moved, because a second request for it is refused.
-/

namespace CilAnalysis.RegionTree

variable {t t' : RegionTree}

/-! ## Well-formed trees -/

/-- Every region but the root has its place in one region made before it, every block has its place
in one scope, and the scopes that regions were made with are there. -/
structure WellFormed (t : RegionTree) : Prop where
  root : t.Has Region.isScope root ∧ t.parents[RegionTree.root]? = some none
  parent : ∀ id, RegionTree.root < id → id < t.size → ∃ p above r,
    t.parents[id]? = some (some p) ∧ p < id ∧ t.regions[p]? = some above ∧
      t.regions[id]? = some r ∧ above.Holds id r ∧
      ∀ q, (t.regionsIn q).count id = if q = p then 1 else 0
  ownScopes : ∀ (id : Nat) (r : Region), t.regions[id]? = some r →
    ∀ s ∈ r.ownScopes, t.Has Region.isScope s
  block : ∀ offset s, t.regionOf? offset = some s → t.Has Region.isScope s ∧
    ∀ q, (t.blocksIn q).count offset = if q = s then 1 else 0
  unplaced : ∀ offset, t.regionOf? offset = none → ∀ q, offset ∉ t.blocksIn q
  entry : ∀ (id : Nat) (children : List RegionChild) (e : RegionChild),
    t.regions[id]? = some (.scope children (some e)) → e ∈ children

/-- Among things that are there at most once, the one place of a thing is where it is counted. -/
theorem count_eq_ite {places : Nat → List Nat} (hnodup : ∀ q, (places q).Nodup) {x p : Nat}
    (hmem : ∀ q, x ∈ places q ↔ q = p) (q : Nat) :
    (places q).count x = if q = p then 1 else 0 := by
  split
  next hq => exact List.count_eq_one_of_mem (hnodup q) ((hmem q).mpr hq)
  next hq => exact List.count_eq_zero_of_not_mem fun hx => hq ((hmem q).mp hx)

private theorem Sound.exists_parent (ht : t.Sound) {id : Nat} (hpos : RegionTree.root < id)
    (hlt : id < t.size) : ∃ p, t.parents[id]? = some (some p) := by
  obtain ⟨p, hp⟩ := ht.exists_getElem?_parents hlt
  cases p with
  | none => exact absurd (ht.eq_root hp) hpos.ne'
  | some p => exact ⟨p, hp⟩

private theorem Sound.wellFormed (ht : t.Sound) (hshaped : t.Shaped)
    (hroot : t.Has Region.isScope RegionTree.root) : t.WellFormed where
  root := ⟨hroot, ht.root⟩
  parent := by
    intro id hpos hlt
    obtain ⟨p, hp⟩ := ht.exists_parent hpos hlt
    obtain ⟨above, habove, hchild⟩ := getElem?_of_mem_held (ht.mem_regionsIn.mpr hp)
    obtain ⟨r, hr, hholds⟩ := (hshaped p above habove).holds hchild
    refine ⟨p, above, r, hp, ht.parent_lt hp, habove, hr, hholds, ?_⟩
    refine count_eq_ite ht.nodup_regionsIn fun q => ?_
    rw [ht.mem_regionsIn, hp, Option.some.injEq, Option.some.injEq, eq_comm]
  ownScopes := fun id r hr => (hshaped id r hr).ownScopes
  block := by
    intro offset s hs
    obtain ⟨r, hr, hmem⟩ := getElem?_of_mem_held (ht.mem_blocksIn.mpr hs)
    refine ⟨⟨r, hr, Region.isScope_of_mem_childBlocks hmem⟩, ?_⟩
    refine count_eq_ite ht.nodup_blocksIn fun q => ?_
    rw [ht.mem_blocksIn, hs, Option.some.injEq, eq_comm]
  unplaced := by
    intro offset hnone q hmem
    cases hnone.symm.trans (ht.mem_blocksIn.mp hmem)
  entry := fun id children e hr => (hshaped id _ hr).2 e rfl

/-! ## Requests -/

/-- A request to change a region tree. -/
inductive Request where
  | addGuarded (scope : Nat)
  | addHandler (guarded : Nat) (kind : ClauseKind)
  | addBlock (scope offset : Nat)
  | sortChildren

namespace Request

/-- The change that a request asks for. -/
def edit : Request → Edit RegionTree Unit
  | .addGuarded scope => do let _ ← InPlace.addGuarded scope
  | .addHandler guarded kind => do let _ ← InPlace.addHandler guarded kind
  | .addBlock scope offset => InPlace.addBlock scope offset
  | .sortChildren => InPlace.sortChildren

/-- When a request is granted. -/
def Granted (t : RegionTree) : Request → Prop
  | .addGuarded scope => t.Has Region.isScope scope
  | .addHandler guarded _ => t.Has Region.isGuarded guarded
  | .addBlock scope offset => t.regionOf? offset = none ∧ t.Has Region.isScope scope
  | .sortChildren => True

/-- The number of regions that a granted request makes. -/
def made : Request → Nat
  | .addGuarded _ => 2
  | .addHandler _ kind => 1 + kind.scopeCount
  | .addBlock _ _ | .sortChildren => 0

/-- The region below which a request asks for a new one. -/
def under? : Request → Option Nat
  | .addGuarded id | .addHandler id _ => some id
  | .addBlock _ _ | .sortChildren => none

/-- The scope of a block after a granted request. -/
def scopeOf? (t : RegionTree) (offset : Nat) : Request → Option Nat
  | .addBlock scope offset' => if offset = offset' then some scope else t.regionOf? offset
  | .addGuarded _ | .addHandler _ _ | .sortChildren => t.regionOf? offset

/-- What a granted request makes of a tree: all regions stay, the new one is where it was asked for,
and a block is placed where it was asked for. -/
structure Grows (r : Request) (t t' : RegionTree) : Prop extends t.Extends t' where
  size : t'.size = t.size + r.made
  above : ∀ p ∈ r.under?, t'.parents[t.size]? = some (some p)
  blocks : ∀ offset, t'.regionOf? offset = r.scopeOf? t offset

/-- The tree that a request makes. -/
def result (t : RegionTree) : Request → Except Error RegionTree
  | .addGuarded scope => (t.addGuarded scope).map Prod.snd
  | .addHandler guarded kind => (t.addHandler guarded kind).map Prod.snd
  | .addBlock scope offset => t.addBlock scope offset
  | .sortChildren => .ok t.sortChildren

theorem run_edit (t : RegionTree) (r : Request) :
    r.edit.run t = Edit.settle t ((r.result t).map ((), ·)) := by
  cases r with
  | addGuarded scope =>
      simp only [edit, result, Edit.run_bind, InPlace.run_addGuarded]
      cases t.addGuarded scope <;> rfl
  | addHandler guarded kind =>
      simp only [edit, result, Edit.run_bind, InPlace.run_addHandler]
      cases t.addHandler guarded kind <;> rfl
  | addBlock scope offset => exact InPlace.run_addBlock t scope offset
  | sortChildren => rfl

end Request

private theorem size_hang (t : RegionTree) (r : Region) (under scopes : Nat)
    (tell : Region → Region) : (t.hang r under scopes tell).size = t.size + 1 + scopes := by
  rw [hang, size, update, Array.size_modify]
  exact (size_pushScopes ..).trans (by rw [size_push])

theorem size_sortChildren (t : RegionTree) : t.sortChildren.size = t.size :=
  List.foldlRecOn (motive := fun t' => t'.size = t.size) _ _ rfl fun t' ht' id _ =>
    (size_sortScope t' id).trans ht'

private theorem exists_scope_iff {id : Nat} :
    (∃ contents, t.scope id = .ok contents) ↔ t.Has Region.isScope id := by
  constructor
  · rintro ⟨contents, h⟩
    exact scope_eq_ok h
  · rintro ⟨r, hr, hkind⟩
    unfold scope
    rw [region_eq_ok.mpr hr]
    cases r with
    | scope children entry => exact ⟨(children, entry), rfl⟩
    | guarded => cases hkind
    | handler => cases hkind

namespace Request

theorem exists_result_iff (t : RegionTree) (r : Request) :
    (∃ t', r.result t = .ok t') ↔ r.Granted t := by
  cases r with
  | addGuarded scope =>
      constructor
      · rintro ⟨t', h⟩
        obtain ⟨new, h, -⟩ := exists_of_map_eq_ok h
        obtain ⟨contents, hscope, -⟩ := bind_eq_ok h
        exact exists_scope_iff.mp ⟨contents, hscope⟩
      · rintro ⟨r, hr, hscope⟩
        obtain ⟨ids, t', h⟩ := addGuarded_of_isScope hr hscope
        exact ⟨t', by rw [result, h]; rfl⟩
  | addHandler guarded kind =>
      constructor
      · rintro ⟨t', h⟩
        obtain ⟨new, h, -⟩ := exists_of_map_eq_ok h
        obtain ⟨r, hr, h⟩ := bind_eq_ok h
        refine ⟨r, region_eq_ok.mp hr, ?_⟩
        cases r with
        | guarded => rfl
        | scope => cases h
        | handler => cases h
      · rintro ⟨r, hr, hguarded⟩
        obtain ⟨ids, t', h⟩ := addHandler_of_isGuarded hr hguarded kind
        exact ⟨t', by rw [result, h]; rfl⟩
  | addBlock scope offset =>
      rw [result, Granted, ← exists_scope_iff, regionOf?, ← SortedMap.notMem_iff_get?,
        ← SortedMap.contains_iff, RegionTree.addBlock]
      split
      next hplaced =>
        refine iff_of_false ?_ fun h => h.1 hplaced
        rintro ⟨t', h⟩
        cases h
      next hplaced =>
        refine Iff.trans ?_ (and_iff_right hplaced).symm
        cases t.scope scope with
        | error e =>
            constructor
            · rintro ⟨t', h⟩
              cases h
            · rintro ⟨contents, h⟩
              cases h
        | ok contents => exact iff_of_true ⟨_, rfl⟩ ⟨contents, rfl⟩
  | sortChildren => exact iff_of_true ⟨_, rfl⟩ trivial

private theorem result_grows (ht : t.Sound) {r : Request} (h : r.result t = .ok t') :
    r.Grows t t' := by
  cases r with
  | addGuarded scope =>
      obtain ⟨⟨ids, _⟩, hadd, rfl⟩ := exists_of_map_eq_ok h
      obtain ⟨-, hgains⟩ := addGuarded_gains ht hadd
      refine ⟨hgains.toExtends, hgains.size, fun p hp => ?_, fun offset => ?_⟩
      · cases hp
        exact hgains.above
      · rw [regionOf?, (addGuarded_hangs hadd).blocks]
        rfl
  | addHandler guarded kind =>
      obtain ⟨⟨ids, _⟩, hadd, rfl⟩ := exists_of_map_eq_ok h
      obtain ⟨_, hhangs⟩ := addHandler_hangs hadd
      obtain ⟨scopes, hgains, -⟩ := addHandler_gains ht hadd
      refine ⟨hgains.toExtends, ?_, fun p hp => ?_, fun offset => ?_⟩
      · rw [(addHandler_eq_hang hadd).1, size_hang, made, Nat.add_assoc]
      · cases hp
        exact hgains.above
      · rw [regionOf?, hhangs.blocks]
        rfl
  | addBlock scope offset =>
      obtain ⟨-, hblocks, hsize, -⟩ := addBlock_eq_ok h
      refine ⟨addBlock_extends h, hsize, by simp [under?], fun offset' => ?_⟩
      rw [regionOf?, hblocks, SortedMap.get?_insert]
      rfl
  | sortChildren =>
      cases h
      refine ⟨sortChildren_extends t, ?_, by simp [under?], fun offset => ?_⟩
      · exact size_sortChildren t
      · rw [regionOf?, blocks_sortChildren]
        rfl

end Request

/-! ## What all requests keep -/

/-- What holds of every tree made by requests. -/
structure Kept (t : RegionTree) : Prop where
  sound : t.Sound
  shaped : t.Shaped
  root : t.Has Region.isScope RegionTree.root

namespace Kept

theorem empty : RegionTree.empty.Kept := ⟨.empty, shaped_empty, .emptyScope, rfl, rfl⟩

theorem result (ht : t.Kept) {r : Request} (h : r.result t = .ok t') : t'.Kept := by
  have hroot := (Request.result_grows ht.sound h).has (·.isScope) ht.root
  cases r with
  | addGuarded scope =>
      obtain ⟨⟨ids, _⟩, hadd, rfl⟩ := exists_of_map_eq_ok h
      exact ⟨ht.sound.hangs (addGuarded_hangs hadd), ht.shaped.addGuarded ht.sound hadd, hroot⟩
  | addHandler guarded kind =>
      obtain ⟨⟨ids, _⟩, hadd, rfl⟩ := exists_of_map_eq_ok h
      obtain ⟨scopes, hhangs⟩ := addHandler_hangs hadd
      exact ⟨ht.sound.hangs hhangs, ht.shaped.addHandler ht.sound hadd, hroot⟩
  | addBlock scope offset => exact ⟨ht.sound.addBlock h, ht.shaped.addBlock h, hroot⟩
  | sortChildren =>
      cases h
      exact ⟨ht.sound.sortChildren, ht.shaped.sortChildren, hroot⟩

theorem edit (ht : t.Kept) (r : Request) : (r.edit.run t).2.Kept := by
  rw [Request.run_edit]
  exact Edit.settle_induction ht fun t' h => ht.result h

theorem outcome (ht : t.Kept) (r : Request) :
    Edit.Outcome (r.Granted t) (r.Grows t) t (r.edit.run t) := by
  rw [Request.run_edit]
  exact Edit.outcome_settle (r.exists_result_iff t) fun t' h => Request.result_grows ht.sound h

end Kept

/-- The tree after requests were made of the empty one. -/
def after (requests : List Request) : RegionTree :=
  Edit.tryAll empty (requests.map Request.edit)

private theorem after_concat (requests : List Request) (r : Request) :
    after (requests ++ [r]) = (r.edit.run (after requests)).2 := by
  simp [after, Edit.tryAll]

theorem kept_after (requests : List Request) : (after requests).Kept := by
  refine Edit.tryAll_induction .empty fun x hx t ht => ?_
  obtain ⟨r, -, rfl⟩ := List.mem_map.mp hx
  exact ht.edit r

/-- A request to place a block in a scope was granted. -/
def Placed (requests : List Request) (scope offset : Nat) : Prop :=
  ∃ earlier later, requests = earlier ++ .addBlock scope offset :: later ∧
    (Request.addBlock scope offset).Granted (after earlier)

private theorem placed_concat {requests : List Request} {r : Request} {scope offset : Nat} :
    Placed (requests ++ [r]) scope offset ↔ Placed requests scope offset ∨
      r = .addBlock scope offset ∧ r.Granted (after requests) := by
  constructor
  · rintro ⟨earlier, later, heq, hgranted⟩
    rcases List.eq_nil_or_concat later with rfl | ⟨later, last, rfl⟩
    · obtain ⟨rfl, hlast⟩ := List.append_inj' heq rfl
      cases hlast
      exact .inr ⟨rfl, hgranted⟩
    · rw [List.concat_eq_append, ← List.cons_append, ← List.append_assoc] at heq
      exact .inl ⟨earlier, later, (List.append_inj' heq rfl).1, hgranted⟩
  · rintro (⟨earlier, later, rfl, hgranted⟩ | ⟨rfl, hgranted⟩)
    · exact ⟨earlier, later ++ [r], by simp, hgranted⟩
    · exact ⟨requests, [], rfl, hgranted⟩

/-- The scope of a block is the one it was placed in. -/
theorem regionOf?_after (requests : List Request) (scope offset : Nat) :
    (after requests).regionOf? offset = some scope ↔ Placed requests scope offset := by
  -- Whether a request is granted depends on those before it, so the induction takes off the last.
  induction requests using List.reverseRecOn with
  | nil => simp [Placed, after, Edit.tryAll, regionOf?, empty]
  | append_singleton requests r ih =>
      rw [after_concat, placed_concat, ← ih]
      have houtcome := (kept_after requests).outcome r
      generalize r.edit.run (after requests) = new at houtcome
      cases houtcome with
      | refused e hrefused => simp [hrefused]
      | granted hgranted hgrows =>
          rw [hgrows.blocks]
          cases r with
          | addBlock scope' offset' =>
              have hnew := hgranted.1
              grind [Request.scopeOf?]
          | addGuarded | addHandler | sortChildren => simp [Request.scopeOf?]

/-- After any requests a region tree is well-formed, the next request, whatever it is, either does
what it asks for or leaves the tree as it is, and a block is in the scope it was placed in. -/
theorem after_wellFormed (requests : List Request) :
    (after requests).WellFormed ∧
      (∀ r : Request, Edit.Outcome (r.Granted (after requests)) (r.Grows (after requests))
        (after requests) (r.edit.run (after requests))) ∧
      ∀ scope offset, (after requests).regionOf? offset = some scope ↔
        Placed requests scope offset := by
  have hkept := kept_after requests
  exact ⟨hkept.sound.wellFormed hkept.shaped hkept.root, hkept.outcome, regionOf?_after requests⟩

/-- A guarded region with a filter, and two requests that are refused: a guarded region is no scope,
and one block is placed already. -/
def filteredBlocks : List Request :=
  [.addBlock 0 0, .addGuarded 0, .addBlock 2 4, .addGuarded 1, .addHandler 1 (.filters 8),
    .addBlock 4 8, .addBlock 5 12, .sortChildren, .addBlock 0 12]

theorem after_wellFormed_filteredBlocks :
    (after filteredBlocks).size = 6 ∧ Placed filteredBlocks 5 12 ∧ ¬ Placed filteredBlocks 0 12 ∧
      ∃ above r, (after filteredBlocks).regions[3]? = some above ∧
        (after filteredBlocks).regions[4]? = some r ∧ above.Holds 4 r := by
  obtain ⟨hformed, -, hplaced⟩ := after_wellFormed filteredBlocks
  have hsize : (after filteredBlocks).size = 6 := by decide
  have hblock : (after filteredBlocks).regionOf? 12 = some 5 := by decide
  have hparent : (after filteredBlocks).parents[4]? = some (some 3) := by decide
  obtain ⟨p, above, r, hp, -, habove, hr, hholds, -⟩ :=
    hformed.parent 4 (by decide) (by omega)
  obtain rfl : 3 = p := by simpa [hparent] using hp
  refine ⟨hsize, (hplaced 5 12).mp hblock, fun h => ?_, above, r, habove, hr, hholds⟩
  have hother := (hplaced 0 12).mpr h
  rw [hblock] at hother
  cases hother

end CilAnalysis.RegionTree
