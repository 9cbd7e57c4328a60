import CilAnalysis.Proofs.Region.Tree

/-!
# What lies below a region

In a sound tree the walk downwards meets a block exactly if the walk upwards from its scope comes by
(`RegionTree.mem_blocksBelow`), and meets no block twice (`RegionTree.nodup_blocksBelow`).

## Strategy

`RegionTree.Within` is the walk upwards: a region stands in another if the way through its parents
comes by.  It is taken apart at either end.  The definition does so at the lower end, and
`Within.eq_or_child` at the upper one, which is where a walk downwards makes its steps.

* A walk meets the blocks in a region and goes on below the regions in it.  In which order does not
  matter here, so its steps are described up to permutation (`RegionTree.blocksBelow_perm`).
* Numbers grow on the way down, so that as many steps as there are regions are enough.  The bound on
  the steps goes through the induction as a bound on the number at which the walk is.
* Two children of one region have nothing below them in common, since every region has one parent
  (`Within.child_unique`).  So no block is met twice.
-/

namespace CilAnalysis.RegionTree

/-- The region is the one above, or stands somewhere in it. -/
inductive Within (t : RegionTree) (above : Nat) : Nat → Prop
  | refl : Within t above above
  | step {id p : Nat} (hparent : t.parents[id]? = some (some p)) (h : Within t above p) :
      Within t above id

variable {t : RegionTree} {a c c' id : Nat}

namespace Within

theorem le (h : t.Within a id) (ht : t.Sound) : a ≤ id := by
  induction h with
  | refl => exact Nat.le_refl a
  | step hparent _ ih => exact ih.trans (ht.parent_lt hparent).le

theorem of_child (h : t.Within c id) (hc : t.parents[c]? = some (some a)) : t.Within a id := by
  induction h with
  | refl => exact .step hc .refl
  | step hparent _ ih => exact .step hparent ih

theorem eq_or_child (h : t.Within a id) :
    id = a ∨ ∃ c, t.parents[c]? = some (some a) ∧ t.Within c id := by
  induction h with
  | refl => exact .inl rfl
  | @step id p hparent _ ih =>
      right
      rcases ih with rfl | ⟨c, hc, hp⟩
      · exact ⟨id, hparent, .refl⟩
      · exact ⟨c, hc, .step hparent hp⟩

/-- A region stands in at most one of the children of another. -/
theorem child_unique (h : t.Within c id) (h' : t.Within c' id) (ht : t.Sound)
    (hc : t.parents[c]? = some (some a)) (hc' : t.parents[c']? = some (some a)) : c = c' := by
  have hlt := ht.parent_lt hc
  have hlt' := ht.parent_lt hc'
  -- There is one way up from `id`.  The child that it meets first would lie below the other one,
  -- and then below the parent of both, which has a smaller number.
  induction h with
  | refl =>
      cases h' with
      | refl => rfl
      | step hparent h' =>
          rw [hc, Option.some.injEq, Option.some.injEq] at hparent
          have := h'.le ht
          omega
  | step hparent h ih =>
      cases h' with
      | refl =>
          rw [hc', Option.some.injEq, Option.some.injEq] at hparent
          have := h.le ht
          omega
      | step hparent' h' =>
          rw [hparent, Option.some.injEq, Option.some.injEq] at hparent'
          subst hparent'
          exact ih h'

/-- The way up from a region ends at the root. -/
theorem of_root (ht : t.Sound) (hid : id < t.size) : t.Within root id := by
  induction id using Nat.strong_induction_on with
  | _ id ih =>
      obtain ⟨p, hp⟩ := ht.exists_getElem?_parents hid
      cases p with
      | none =>
          rw [ht.eq_root hp]
          exact .refl
      | some p =>
          have hlt := ht.parent_lt hp
          exact .step hp (ih p hlt (hlt.trans hid))

end Within

/-! ## The walk downwards -/

private theorem children_perm (f : Nat → List Nat) (children : List RegionChild)
    (entry : Option RegionChild) :
    (children.flatMap fun
        | .block offset => [offset]
        | .region child => f child).Perm
      ((Region.scope children entry).childBlocks ++
        (Region.scope children entry).childRegions.flatMap f) := by
  induction children with
  | nil => exact .refl _
  | cons child rest ih =>
      cases child with
      | block offset => exact ih.cons offset
      | region child =>
          exact (ih.append_left (f child)).trans (List.perm_append_comm_assoc ..)

/-- A walk meets the blocks in a region and goes on below the regions in it. -/
theorem blocksBelow_perm (t : RegionTree) (steps id : Nat) :
    (t.blocksBelow (steps + 1) id).Perm
      (t.blocksIn id ++ (t.regionsIn id).flatMap (t.blocksBelow steps)) := by
  unfold blocksIn regionsIn held
  rw [blocksBelow]
  cases t.regions[id]? with
  | none => exact .refl _
  | some r =>
      cases r with
      | scope children entry => exact children_perm _ children entry
      | guarded => exact .refl _
      | handler => exact .refl _

private theorem mem_blocksBelow_succ {steps offset : Nat} :
    offset ∈ t.blocksBelow (steps + 1) id ↔
      offset ∈ t.blocksIn id ∨ ∃ c ∈ t.regionsIn id, offset ∈ t.blocksBelow steps c := by
  rw [(t.blocksBelow_perm steps id).mem_iff, List.mem_append, List.mem_flatMap]

theorem within_of_mem_blocksBelow (ht : t.Sound) {steps offset : Nat}
    (h : offset ∈ t.blocksBelow steps id) : ∃ s, t.regionOf? offset = some s ∧ t.Within id s := by
  induction steps generalizing id with
  | zero => exact nomatch h
  | succ steps ih =>
      rcases mem_blocksBelow_succ.mp h with h | ⟨c, hc, h⟩
      · exact ⟨id, ht.mem_blocksIn.mp h, .refl⟩
      · obtain ⟨s, hs, hwithin⟩ := ih h
        exact ⟨s, hs, hwithin.of_child (ht.mem_regionsIn.mp hc)⟩

private theorem Sound.regionOf?_lt (ht : t.Sound) {offset s : Nat}
    (h : t.regionOf? offset = some s) : s < t.size := by
  obtain ⟨r, hr, -⟩ := getElem?_of_mem_held (ht.mem_blocksIn.mpr h)
  exact lt_size_of_getElem? hr

theorem mem_blocksBelow (ht : t.Sound) {steps : Nat} (hsteps : t.size ≤ id + steps) {offset : Nat} :
    offset ∈ t.blocksBelow steps id ↔ ∃ s, t.regionOf? offset = some s ∧ t.Within id s := by
  refine ⟨within_of_mem_blocksBelow ht, ?_⟩
  rintro ⟨s, hs, hwithin⟩
  induction steps generalizing id with
  | zero =>
      have hlt := ht.regionOf?_lt hs
      have hle := hwithin.le ht
      omega
  | succ steps ih =>
      rw [mem_blocksBelow_succ]
      rcases hwithin.eq_or_child with rfl | ⟨c, hc, hwithin⟩
      · exact .inl (ht.mem_blocksIn.mpr hs)
      · -- A child has a greater number, so one step less is enough below it.
        have hlt := ht.parent_lt hc
        exact .inr ⟨c, ht.mem_regionsIn.mpr hc, ih (by omega) hwithin⟩

theorem nodup_blocksBelow (ht : t.Sound) (steps id : Nat) : (t.blocksBelow steps id).Nodup := by
  induction steps generalizing id with
  | zero => exact .nil
  | succ steps ih =>
      rw [(t.blocksBelow_perm steps id).nodup_iff, List.nodup_append', List.nodup_flatMap]
      refine ⟨ht.nodup_blocksIn id, ⟨fun c _ => ih c, ?_⟩, ?_⟩
      · refine (ht.nodup_regionsIn id).pairwise_of_forall_ne fun c hc c' hc' hne => ?_
        -- A block below two children would have its scope in both.
        intro offset h h'
        obtain ⟨s, hs, hwithin⟩ := within_of_mem_blocksBelow ht h
        obtain ⟨s', hs', hwithin'⟩ := within_of_mem_blocksBelow ht h'
        obtain rfl : s = s' := Option.some.inj (hs.symm.trans hs')
        exact hne (hwithin.child_unique hwithin' ht (ht.mem_regionsIn.mp hc)
          (ht.mem_regionsIn.mp hc'))
      · -- A block in the region itself is in no scope below it.
        intro offset h h'
        obtain ⟨c, hc, h'⟩ := List.mem_flatMap.mp h'
        obtain ⟨s, hs, hwithin⟩ := within_of_mem_blocksBelow ht h'
        obtain rfl : s = id := Option.some.inj (hs.symm.trans (ht.mem_blocksIn.mp h))
        have hlt := ht.parent_lt (ht.mem_regionsIn.mp hc)
        have hle := hwithin.le ht
        omega

theorem region_bind_ok {α : Type} (hid : id < t.size) (x : α) :
    (t.region id >>= fun _ => pure x) = .ok x := by
  rw [region_eq_ok.mpr (Array.getElem?_eq_getElem hid)]
  rfl

/-- The blocks of a region are those whose scope stands in it, each once. -/
theorem blocksOf_eq_ok (ht : t.Sound) (hid : id < t.size) :
    ∃ offsets, t.blocksOf id = .ok offsets ∧ offsets.Nodup ∧
      ∀ offset, offset ∈ offsets ↔ ∃ s, t.regionOf? offset = some s ∧ t.Within id s := by
  refine ⟨t.blocksBelow t.size id, region_bind_ok hid _, nodup_blocksBelow ht _ _, ?_⟩
  exact fun offset => mem_blocksBelow ht (Nat.le_add_left _ _)

/-- The blocks below the root are all that are placed, each once. -/
theorem blocksOf_root (ht : t.Sound) :
    ∃ offsets, t.blocksOf root = .ok offsets ∧ offsets.Nodup ∧
      ∀ offset, offset ∈ offsets ↔ offset ∈ t.blocks := by
  obtain ⟨offsets, hoffsets, hnodup, hmem⟩ := blocksOf_eq_ok ht ht.size_pos
  refine ⟨offsets, hoffsets, hnodup, fun offset => ?_⟩
  calc offset ∈ offsets
      ↔ ∃ s, t.regionOf? offset = some s ∧ t.Within root s := hmem offset
    _ ↔ ∃ s, t.regionOf? offset = some s :=
        exists_congr fun s => and_iff_left_of_imp fun hs => .of_root ht (ht.regionOf?_lt hs)
    _ ↔ offset ∈ t.blocks := SortedMap.mem_iff_get?.symm

end CilAnalysis.RegionTree
