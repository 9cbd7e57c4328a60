import CilAnalysis.Proofs.Region.Walk

/-!
# What stays in a growing region tree

Trees grow only: a region keeps its number, its kind, its parent and the scopes it was made with,
while scopes get children and guarded regions get handlers (`RegionTree.Extends`).  So what is known
of a region when it is made holds in every later tree.

## Strategy

`Region.Becomes` says what may become of one region, and `RegionTree.Extends` says it of all of them
at once, together with their parents.  Both are transitive.  For each way of changing a tree it is
then shown that it extends the tree.

* Adding a guarded region or a handler is hanging a new region with empty scopes below an old one.
  Where each number points afterwards is said by one equation (`RegionTree.regions_hang`), and
  `RegionTree.Gains` collects what the caller is told: the numbers of the new region and of its
  scopes, and their parents.
* Placing a block and sorting change one region without changing its kind.

The other direction, that an addition is accepted where it should be, is
`RegionTree.addGuarded_of_isScope` and `RegionTree.addHandler_of_isGuarded`.
-/

namespace CilAnalysis

/-- What may become of a region: the contents of a scope change, and handlers are added. -/
inductive Region.Becomes : Region → Region → Prop
  | scope (children children' : List RegionChild) (entry entry' : Option RegionChild) :
      Becomes (.scope children entry) (.scope children' entry')
  | guarded (protectedScope : Nat) {handlers handlers' : List Nat} (h : handlers ⊆ handlers') :
      Becomes (.guarded protectedScope handlers) (.guarded protectedScope handlers')
  | handler (kind : ClauseKind) (prologue : Option Nat) (contents : Nat) (epilogue : Option Nat) :
      Becomes (.handler kind prologue contents epilogue) (.handler kind prologue contents epilogue)

namespace Region.Becomes

variable {r s u : Region}

theorem refl (r : Region) : r.Becomes r := by
  cases r with
  | scope => exact .scope ..
  | guarded => exact .guarded _ (List.Subset.refl _)
  | handler => exact .handler ..

theorem trans (h : r.Becomes s) (h' : s.Becomes u) : r.Becomes u := by
  cases h with
  | scope =>
      cases h'
      exact .scope ..
  | guarded p h =>
      cases h' with
      | guarded _ h' => exact .guarded p (List.Subset.trans h h')
  | handler => exact h'

theorem isScope (h : r.Becomes s) : s.isScope = r.isScope := by cases h <;> rfl

theorem isGuarded (h : r.Becomes s) : s.isGuarded = r.isGuarded := by cases h <;> rfl

theorem isHandler (h : r.Becomes s) : s.isHandler = r.isHandler := by cases h <;> rfl

theorem appendChild (r : Region) (child : RegionChild) : r.Becomes (r.appendChild child) := by
  cases r with
  | scope => exact .scope ..
  | guarded => exact refl _
  | handler => exact refl _

theorem appendHandler (r : Region) (handler : Nat) : r.Becomes (r.appendHandler handler) := by
  cases r with
  | scope => exact refl _
  | guarded => exact .guarded _ (List.subset_append_left ..)
  | handler => exact refl _

end Region.Becomes

namespace RegionTree

variable {t t' t'' : RegionTree}

/-- A later form of a tree. -/
structure Extends (t t' : RegionTree) : Prop where
  region : ∀ (id : Nat) (r : Region), t.regions[id]? = some r →
    ∃ r', t'.regions[id]? = some r' ∧ r.Becomes r'
  parent : ∀ (id : Nat) (p : Option Nat), t.parents[id]? = some p → t'.parents[id]? = some p

namespace Extends

theorem refl (t : RegionTree) : t.Extends t := ⟨fun _ r hr => ⟨r, hr, .refl r⟩, fun _ _ hp => hp⟩

theorem trans (h : t.Extends t') (h' : t'.Extends t'') : t.Extends t'' where
  region := by
    intro id r hr
    obtain ⟨r', hr', hbecomes⟩ := h.region id r hr
    obtain ⟨r'', hr'', hbecomes'⟩ := h'.region id r' hr'
    exact ⟨r'', hr'', hbecomes.trans hbecomes'⟩
  parent := fun id p hp => h'.parent id p (h.parent id p hp)

theorem size_le (h : t.Extends t') : t.size ≤ t'.size := by
  by_contra hlt
  have hlast : t'.size < t.regions.size := Nat.lt_of_not_le hlt
  obtain ⟨r', hr', -⟩ := h.region t'.size _ (Array.getElem?_eq_getElem hlast)
  exact absurd (lt_size_of_getElem? hr') (Nat.lt_irrefl _)

end Extends

/-! ## Regions with their scopes -/

private theorem regions_pushScopes (t : RegionTree) (p scopes id : Nat) :
    (t.pushScopes p scopes).regions[id]? =
      if t.size ≤ id ∧ id < t.size + scopes then some .emptyScope else t.regions[id]? := by
  induction scopes with
  | zero => rw [pushScopes, if_neg (by omega)]
  | succ scopes ih =>
      rw [pushScopes, getElem?_push, size_pushScopes, ih]
      split
      next => rw [if_pos (by omega)]
      next => exact if_congr (by omega) rfl rfl

/-- The regions after one was hung below another with empty scopes below it. -/
theorem regions_hang (r : Region) (scopes : Nat) (tell : Region → Region) {under : Nat}
    (hunder : under < t.size) (id : Nat) :
    (t.hang r under scopes tell).regions[id]? =
      if id = under then t.regions[id]?.map tell
      else if id = t.size then some r
      else if t.size < id ∧ id ≤ t.size + scopes then some .emptyScope
      else t.regions[id]? := by
  unfold hang update
  rw [Array.getElem?_modify, regions_pushScopes, getElem?_push, size_push]
  by_cases hid : id = under
  · subst hid
    rw [if_pos rfl, if_pos rfl, if_neg (by omega), if_neg (by omega)]
  · rw [if_neg (Ne.symm hid), if_neg hid]
    by_cases hsize : id = t.size
    · rw [if_neg (by omega), if_pos hsize, if_pos hsize]
    · rw [if_neg hsize, if_neg hsize]
      exact if_congr (by omega) rfl rfl

/-- `t'` is a later form of `t` in which a region was added below another, with empty scopes of its
own. -/
structure Gains (t t' : RegionTree) (r : Region) (under scopes : Nat) : Prop
    extends t.Extends t' where
  sound : t'.Sound
  size : t'.size = t.size + 1 + scopes
  added : t'.regions[t.size]? = some r
  above : t'.parents[t.size]? = some (some under)
  scope : ∀ k, 0 < k → k ≤ scopes →
    t'.regions[t.size + k]? = some .emptyScope ∧ t'.parents[t.size + k]? = some (some t.size)

private theorem hang_gains (ht : t.Sound) (r : Region) (scopes : Nat) (tell : Region → Region)
    {above : Region} {under : Nat} (habove : t.regions[under]? = some above)
    (htell : above.Becomes (tell above))
    (hhangs : t.Hangs (t.hang r under scopes tell) under scopes) :
    t.Gains (t.hang r under scopes tell) r under scopes := by
  have hunder := hhangs.under_lt
  have hparents := hhangs.parents
  rw [ht.size_parents] at hparents
  refine ⟨⟨?_, ?_⟩, ht.hangs hhangs, hhangs.size, ?_, ?_, ?_⟩
  · intro id s hs
    have hlt := lt_size_of_getElem? hs
    rw [regions_hang r scopes tell hunder]
    split
    next hid =>
      subst hid
      obtain rfl := Option.some.inj (habove.symm.trans hs)
      exact ⟨_, by rw [hs, Option.map_some], htell⟩
    next =>
      rw [if_neg (by omega), if_neg (by omega)]
      exact ⟨s, hs, .refl s⟩
  · intro id p hp
    have hlt := ht.lt_size hp
    rw [hparents, if_neg (by omega), if_neg (by omega)]
    exact hp
  · rw [regions_hang r scopes tell hunder, if_neg (by omega), if_pos rfl]
  · rw [hparents, if_pos rfl]
  · intro k hk hle
    rw [regions_hang r scopes tell hunder, hparents, if_neg (by omega), if_neg (by omega),
      if_pos (by omega), if_neg (by omega), if_pos (by omega)]
    exact ⟨rfl, rfl⟩

/-- A guarded region is added to a scope, and only there. -/
theorem addGuarded_gains (ht : t.Sound) {scope : Nat} {ids : Nat × Nat}
    (h : t.addGuarded scope = .ok (ids, t')) :
    ids = (t.size, t.size + 1) ∧ t.Gains t' (.guarded (t.size + 1) []) scope 1 := by
  have hhangs := addGuarded_hangs h
  obtain ⟨contents, hscope, h⟩ := bind_eq_ok h
  cases h
  obtain ⟨r, hr, -⟩ := scope_eq_ok hscope
  exact ⟨rfl, hang_gains ht (.guarded (t.size + 1) []) 1 (Region.appendChild (.region t.size)) hr
    (.appendChild r _) hhangs⟩

theorem addGuarded_of_isScope {scope : Nat} {r : Region} (hr : t.regions[scope]? = some r)
    (hscope : r.isScope = true) : ∃ ids t', t.addGuarded scope = .ok (ids, t') := by
  unfold addGuarded RegionTree.scope
  rw [region_eq_ok.mpr hr]
  cases r with
  | scope children entry => exact ⟨_, _, rfl⟩
  | guarded => exact nomatch hscope
  | handler => exact nomatch hscope

/-- A handler is added to a guarded region, with a scope for its contents and for a filter one for
its prologue before that. -/
theorem addHandler_gains (ht : t.Sound) {guarded : Nat} {kind : ClauseKind} {ids : HandlerScopes}
    (h : t.addHandler guarded kind = .ok (ids, t')) :
    ∃ scopes, t.Gains t' (.handler kind ids.prologue ids.contents none) guarded scopes ∧
      ids.contents = t.size + scopes ∧ 0 < scopes ∧
      (∃ p handlers, t'.regions[guarded]? = some (.guarded p handlers) ∧ t.size ∈ handlers) ∧
      ∀ start, kind = .filters start → scopes = 2 ∧ ids.prologue = some (t.size + 1) := by
  obtain ⟨r, hr, h⟩ := bind_eq_ok h
  rw [region_eq_ok] at hr
  cases r with
  | scope => exact nomatch h
  | handler => exact nomatch h
  | guarded p handlers =>
      -- All kinds of handlers are hung in the same way; a filter has one scope more.
      have hhung (scopes : Nat) (handler : Region)
          (hscopes : handler.childRegions = List.range' (t.size + 1) scopes)
          (hblocks : handler.childBlocks = []) :
          t.Gains (t.hang handler guarded scopes (Region.appendHandler t.size)) handler guarded
            scopes ∧
          ∃ p handlers, (t.hang handler guarded scopes
            (Region.appendHandler t.size)).regions[guarded]? = some (.guarded p handlers) ∧
              t.size ∈ handlers := by
        refine ⟨hang_gains ht handler scopes _ hr (.appendHandler _ _)
          (hang_hangs handler scopes _ hr (Region.childRegions_appendHandler rfl _)
            (Region.childBlocks_appendHandler _) hscopes hblocks),
          p, handlers ++ [t.size], ?_, by simp⟩
        rw [regions_hang _ _ _ (lt_size_of_getElem? hr), if_pos rfl, hr]
        rfl
      cases kind with
      | filters start =>
          cases h
          obtain ⟨hgains, htold⟩ :=
            hhung 2 (.handler (.filters start) (some (t.size + 1)) (t.size + 2) none) rfl rfl
          exact ⟨2, hgains, rfl, two_pos, htold, fun _ _ => ⟨rfl, rfl⟩⟩
      | catches | finalizes | faults =>
          cases h
          obtain ⟨hgains, htold⟩ := hhung 1 (.handler _ none (t.size + 1) none) rfl rfl
          exact ⟨1, hgains, rfl, one_pos, htold, nofun⟩

theorem addHandler_of_isGuarded {guarded : Nat} {r : Region} (hr : t.regions[guarded]? = some r)
    (hguarded : r.isGuarded = true) (kind : ClauseKind) :
    ∃ ids t', t.addHandler guarded kind = .ok (ids, t') := by
  unfold addHandler
  rw [region_eq_ok.mpr hr]
  cases r with
  | guarded => exact ⟨_, _, rfl⟩
  | scope => exact nomatch hguarded
  | handler => exact nomatch hguarded

/-! ## Blocks and sorting -/

/-- A region that was changed stays a region of its kind. -/
theorem extends_of_modify {f : Region → Region} (hf : ∀ r : Region, r.Becomes (f r)) {k : Nat}
    (hregions : t'.regions = t.regions.modify k f) (hparents : t'.parents = t.parents) :
    t.Extends t' where
  region := by
    intro id r hr
    rw [hregions, Array.getElem?_modify]
    split
    next => exact ⟨f r, by rw [hr, Option.map_some], hf r⟩
    next => exact ⟨r, hr, .refl r⟩
  parent := by
    intro id p hp
    rw [hparents, hp]

theorem addBlock_extends {scope offset : Nat} (h : t.addBlock scope offset = .ok t') :
    t.Extends t' := by
  unfold addBlock at h
  split at h
  next => cases h
  next =>
    obtain ⟨contents, -, h⟩ := bind_eq_ok h
    cases h
    exact extends_of_modify (f := Region.appendChild (.block offset)) (.appendChild · _) rfl rfl

theorem sortScope_extends (t : RegionTree) (id : Nat) : t.Extends (t.sortScope id) := by
  unfold sortScope
  split
  next children entry hr =>
    refine ⟨fun id' r hr' => ?_, fun _ _ hp => hp⟩
    by_cases hid : id' = id
    · subst hid
      obtain rfl := Option.some.inj (hr.symm.trans hr')
      exact ⟨_, Array.getElem?_setIfInBounds_self_of_lt (lt_size_of_getElem? hr), .scope ..⟩
    · exact ⟨r, (Array.getElem?_setIfInBounds_ne (Ne.symm hid)).trans hr', .refl r⟩
  next => exact .refl t

theorem sortChildren_extends (t : RegionTree) : t.Extends t.sortChildren :=
  List.foldlRecOn (motive := fun t' => t.Extends t') _ _ (.refl t) fun t' ht' id _ =>
    ht'.trans (sortScope_extends t' id)

/-- After blocks were placed one by one, each is in the scope it was placed in. -/
theorem foldlM_addBlock_get? {ι : Type} {scope offset : ι → Nat} {l : List ι}
    (h : l.foldlM (fun t x => t.addBlock (scope x) (offset x)) t = .ok t') :
    t.Extends t' ∧ (∀ o s, t.blocks.get? o = some s → t'.blocks.get? o = some s) ∧
      ∀ x ∈ l, t'.blocks.get? (offset x) = some (scope x) := by
  induction l generalizing t with
  | nil =>
      cases h
      exact ⟨.refl _, fun _ _ hs => hs, fun x hx => absurd hx List.not_mem_nil⟩
  | cons x rest ih =>
      rw [List.foldlM_cons] at h
      obtain ⟨t₁, ht₁, h⟩ := bind_eq_ok h
      obtain ⟨hextends, hkept, hplaced⟩ := ih h
      obtain ⟨hnew, hblocks, -⟩ := addBlock_eq_ok ht₁
      have hfirst : ∀ o s, t.blocks.get? o = some s → t₁.blocks.get? o = some s := by
        intro o s hs
        -- A block that is there already is refused, so the new one is another.
        have hne : o ≠ offset x := by
          rintro rfl
          exact hnew (SortedMap.mem_iff_get?.mpr ⟨s, hs⟩)
        rw [hblocks, SortedMap.get?_insert_of_ne _ _ hne, hs]
      refine ⟨(addBlock_extends ht₁).trans hextends, fun o s hs => hkept o s (hfirst o s hs), ?_⟩
      refine List.forall_mem_cons.mpr ⟨hkept _ _ ?_, hplaced⟩
      rw [hblocks, SortedMap.get?_insert_self]

/-! ## Above one region -/

namespace Within

variable {a c id : Nat}

theorem trans (h : t.Within a c) (h' : t.Within c id) : t.Within a id := by
  induction h' with
  | refl => exact h
  | step hparent _ ih => exact .step hparent ih

/-- Of two regions above a third one stands in the other. -/
theorem total (h : t.Within a id) (h' : t.Within c id) : t.Within a c ∨ t.Within c a := by
  induction h with
  | refl => exact .inr h'
  | step hparent h ih =>
      cases h' with
      | refl => exact .inl (.step hparent h)
      | step hparent' h' =>
          rw [hparent, Option.some.injEq, Option.some.injEq] at hparent'
          subst hparent'
          exact ih h'

/-- A region that stands in another stands in the parent of the other, or is the other. -/
theorem eq_or_of_parent {p : Nat} (h : t.Within a id) (hparent : t.parents[id]? = some (some p)) :
    id = a ∨ t.Within a p := by
  cases h with
  | refl => exact .inl rfl
  | step hparent' h =>
      rw [hparent, Option.some.injEq, Option.some.injEq] at hparent'
      subst hparent'
      exact .inr h

end Within

end RegionTree

end CilAnalysis
