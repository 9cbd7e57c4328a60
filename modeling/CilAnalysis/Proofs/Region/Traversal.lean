import CilAnalysis.Proofs.Region.Sorting

/-!
# Walks downwards and upwards agree

What is told of a region by the walks below it, which go through what each region holds, is what the
parents of regions and the scopes of blocks tell (`RegionTree.WalksAgree`).  No way down or up is
endless, and a bound above the number of regions does not show in what a walk finds
(`RegionTree.WalksEnd`).  The main result is `RegionTree.after_walksAgree`.

## Strategy

* Of a walk downwards two things are used: beyond the last region it finds the same in any number of
  steps, and what it finds at a region depends on what it finds at those directly below
  (`RegionTree.Descends`).  As numbers grow on the way down, every such walk comes to its end
  (`Descends.eq_of_le`).
* Walks upwards go to smaller numbers, and end at the root.  The depth of a region and whether it is
  contained in another are found by strong induction on its number (`RegionTree.exists_heightAbove`,
  `RegionTree.exists_meets`).
* The levels below a region are compared with depths (`RegionTree.isGreatest_levels`).
* The last block of a region is one of its blocks, if it has any (`RegionTree.Picks`).  In a guarded
  region with handlers it is not the last one in the order of the walk, but the first of the last
  handler that has blocks (`RegionTree.lastBlock_of_guarded`).
-/

namespace CilAnalysis.RegionTree

variable {t : RegionTree} {a c d id steps : Nat}

/-! ## More steps than there are regions -/

/-- What a walk downwards finds at a region depends on what it finds at those directly below. -/
structure Descends {α : Type} (t : RegionTree) (walk : Nat → Nat → α) : Prop where
  absent : ∀ {id : Nat}, t.size ≤ id → ∀ steps steps', walk steps id = walk steps' id
  below : ∀ {id steps steps' : Nat}, (∀ c ∈ t.regionsIn id, walk steps c = walk steps' c) →
    walk (steps + 1) id = walk (steps' + 1) id

private theorem Sound.lt_of_mem_regionsIn (ht : t.Sound) (hc : c ∈ t.regionsIn id) :
    id < c ∧ c < t.size :=
  have hparent := ht.mem_regionsIn.mp hc
  ⟨ht.parent_lt hparent, ht.lt_size hparent⟩

/-- Numbers grow on the way down, so that a region needs no more steps than there are regions with
its number or a greater one. -/
theorem Descends.eq_of_le {α : Type} {walk : Nat → Nat → α} (h : t.Descends walk) (ht : t.Sound)
    {steps' : Nat} (hsteps : t.size ≤ id + steps) (hsteps' : t.size ≤ id + steps') :
    walk steps id = walk steps' id := by
  induction steps generalizing id steps' with
  | zero => exact h.absent hsteps 0 steps'
  | succ steps ih =>
      cases steps' with
      | zero => exact h.absent hsteps' (steps + 1) 0
      | succ steps' =>
          refine h.below fun c hc => ?_
          have hlt := (ht.lt_of_mem_regionsIn hc).1
          exact ih (by omega) (by omega)

private theorem Descends.eq_size {α : Type} {walk : Nat → Nat → α} (h : t.Descends walk)
    (ht : t.Sound) (id : Nat) : ∀ steps ≥ t.size, walk steps id = walk t.size id := fun _ hsteps =>
  h.eq_of_le ht (Nat.le_add_left_of_le hsteps) (Nat.le_add_left t.size id)

private theorem getElem?_of_size_le (hid : t.size ≤ id) : t.regions[id]? = none :=
  Array.getElem?_eq_none hid

private theorem descends_blocksBelow (t : RegionTree) : t.Descends t.blocksBelow where
  absent := by
    intro id hid steps steps'
    cases steps <;> cases steps' <;> simp [blocksBelow, getElem?_of_size_le hid]
  below := blocksBelow_succ_congr rfl

private theorem findSome?_congr {α : Type} {f g : α → Option Nat} {l : List α}
    (h : ∀ x ∈ l, f x = g x) : l.findSome? f = l.findSome? g := by
  rw [← List.head?_filterMap, ← List.head?_filterMap, List.filterMap_congr h]

/-- The last block of a guarded region may be the first of a handler, which is the head of its
blocks: both are looked for together. -/
theorem descends_lastBelow (t : RegionTree) :
    t.Descends fun steps id => (t.blocksBelow steps id, t.lastBelow steps id) where
  absent := by
    intro id hid steps steps'
    cases steps <;> cases steps' <;> simp [blocksBelow, lastBelow, getElem?_of_size_le hid]
  below := by
    intro id steps steps' hbelow
    have hblocks : ∀ c ∈ t.regionsIn id, t.blocksBelow steps c = t.blocksBelow steps' c :=
      fun c hc => congrArg Prod.fst (hbelow c hc)
    have hlast : ∀ c ∈ t.regionsIn id, t.lastBelow steps c = t.lastBelow steps' c :=
      fun c hc => congrArg Prod.snd (hbelow c hc)
    refine Prod.ext ((descends_blocksBelow t).below hblocks) ?_
    show t.lastBelow (steps + 1) id = t.lastBelow (steps' + 1) id
    rw [lastBelow, lastBelow]
    cases hr : t.regions[id]? with
    | none => rfl
    | some r =>
        cases r with
        | scope children entry =>
            refine findSome?_congr fun child hchild => ?_
            cases child with
            | block offset => rfl
            | region c => exact hlast c (mem_regionsIn_of_child hr (List.mem_reverse.mp hchild))
        | guarded p handlers =>
            rw [regionsIn, held_of_getElem? hr] at hblocks hlast
            dsimp only
            rw [hlast p List.mem_cons_self]
            congr 1
            refine findSome?_congr fun h hh => ?_
            rw [firstBelow_eq_head?, firstBelow_eq_head?,
              hblocks h (List.mem_cons_of_mem p (List.mem_reverse.mp hh))]
        | handler kind prologue contents epilogue =>
            rw [regionsIn, held_of_getElem? hr] at hlast
            exact findSome?_congr fun c hc => hlast c (List.mem_reverse.mp hc)

private theorem lastBelow_of_le (ht : t.Sound) (id : Nat) :
    ∀ steps ≥ t.size, t.lastBelow steps id = t.lastBelow t.size id := fun steps hsteps =>
  congrArg Prod.snd ((descends_lastBelow t).eq_size ht id steps hsteps)

private theorem descends_levelsBelow (t : RegionTree) : t.Descends t.levelsBelow where
  absent := by
    intro id hid steps steps'
    cases steps <;> cases steps' <;> simp [levelsBelow, getElem?_of_size_le hid]
  below := by
    intro id steps steps' hbelow
    rw [levelsBelow, levelsBelow]
    cases hr : t.regions[id]? with
    | none => rfl
    | some r =>
        rw [regionsIn, held_of_getElem? hr] at hbelow
        dsimp only
        rw [List.filterMap_congr hbelow]

/-! ## Upwards -/

private theorem heightAbove_root (hp : t.parents[id]? = some none) (steps : Nat) :
    t.heightAbove (steps + 1) id = .ok 0 := by
  rw [heightAbove, parent_eq_ok.mpr hp]
  rfl

private theorem heightAbove_child {p n : Nat} (hp : t.parents[id]? = some (some p))
    (hn : t.heightAbove steps p = .ok n) : t.heightAbove (steps + 1) id = .ok (n + 1) := by
  rw [heightAbove, parent_eq_ok.mpr hp]
  show (t.heightAbove steps p >>= fun n => pure (1 + n)) = _
  rw [hn, Nat.add_comm n 1]
  rfl

/-- The depth of a region is found in more steps than its number, however many these are. -/
theorem exists_heightAbove (ht : t.Sound) (hid : id < t.size) :
    ∃ n, ∀ steps, id ≤ steps → t.heightAbove (steps + 1) id = .ok n := by
  induction id using Nat.strong_induction_on with
  | _ id ih =>
      obtain ⟨p, hp⟩ := ht.exists_getElem?_parents hid
      cases p with
      | none => exact ⟨0, fun steps _ => heightAbove_root hp steps⟩
      | some p =>
          have hlt := ht.parent_lt hp
          obtain ⟨n, hn⟩ := ih p hlt (hlt.trans hid)
          refine ⟨n + 1, fun steps hsteps => ?_⟩
          obtain ⟨steps, rfl⟩ :=
            Nat.exists_eq_add_one_of_ne_zero (Nat.ne_zero_of_lt (hlt.trans_le hsteps))
          exact heightAbove_child hp (hn steps (by omega))

private theorem heightAbove_eq_depth (ht : t.Sound) (hsteps : t.size ≤ steps) (id : Nat) :
    t.heightAbove (steps + 1) id = t.depth id := by
  rw [depth, ht.size_parents]
  by_cases hid : id < t.size
  · obtain ⟨n, hn⟩ := exists_heightAbove ht hid
    rw [hn steps (hid.le.trans hsteps), hn t.size hid.le]
  · have hnone := ht.getElem?_parents_of_size_le (Nat.le_of_not_lt hid)
    rw [heightAbove, heightAbove, parent, hnone]
    rfl

private theorem depth_of_size_le (ht : t.Sound) (hid : t.size ≤ id) :
    t.depth id = .error (.regionNotFound id) := by
  rw [depth, heightAbove, parent, ht.getElem?_parents_of_size_le hid]
  rfl

private theorem exists_depth (ht : t.Sound) (hid : id < t.size) : ∃ n, t.depth id = .ok n := by
  obtain ⟨n, hn⟩ := exists_heightAbove ht hid
  exact ⟨n, heightAbove_eq_depth ht le_rfl id ▸ hn t.size hid.le⟩

/-- A region is one deeper than the one it stands in. -/
theorem depth_child (ht : t.Sound) {p n : Nat} (hp : t.parents[id]? = some (some p))
    (hn : t.depth p = .ok n) : t.depth id = .ok (n + 1) := by
  rw [← heightAbove_eq_depth ht le_rfl] at hn
  rw [← heightAbove_eq_depth ht (Nat.le_succ t.size)]
  exact heightAbove_child hp hn

theorem Within.lt_size (h : t.Within a id) (ht : t.Sound) (ha : a < t.size) : id < t.size := by
  cases h with
  | refl => exact ha
  | step hparent _ => exact ht.lt_size hparent

/-- A region is no deeper than those it contains. -/
theorem Within.exists_depth (h : t.Within a id) (ht : t.Sound) {k : Nat} (ha : t.depth a = .ok k) :
    ∃ m, t.depth id = .ok (k + m) := by
  induction h with
  | refl => exact ⟨0, ha⟩
  | step hparent _ ih =>
      obtain ⟨m, hm⟩ := ih
      exact ⟨m + 1, depth_child ht hparent hm⟩

private theorem meets_self (t : RegionTree) (a steps : Nat) :
    t.meets a (steps + 1) a = .ok true := by
  rw [meets, if_pos rfl]
  rfl

private theorem meets_parent {p : Option Nat} (hne : id ≠ a) (hp : t.parents[id]? = some p) :
    t.meets a (steps + 1) id = p.elim (.ok false) (t.meets a steps) := by
  rw [meets, if_neg hne, parent_eq_ok.mpr hp]
  cases p <;> rfl

/-- Whether a region is met on the way up is found in more steps than the number at which the way
starts, however many these are. -/
theorem exists_meets (ht : t.Sound) (a : Nat) (hid : id < t.size) :
    ∃ b, (∀ steps, id ≤ steps → t.meets a (steps + 1) id = .ok b) ∧
      (b = true ↔ t.Within a id) := by
  induction id using Nat.strong_induction_on with
  | _ id ih =>
      by_cases hne : id = a
      · subst hne
        exact ⟨true, fun steps _ => meets_self t id steps, iff_of_true rfl .refl⟩
      obtain ⟨p, hp⟩ := ht.exists_getElem?_parents hid
      cases p with
      | none =>
          refine ⟨false, fun steps _ => meets_parent hne hp, iff_of_false Bool.false_ne_true ?_⟩
          intro h
          cases h with
          | refl => exact hne rfl
          | step hparent _ => cases hp.symm.trans hparent
      | some p =>
          have hlt := ht.parent_lt hp
          obtain ⟨b, hmeets, hb⟩ := ih p hlt (hlt.trans hid)
          refine ⟨b, fun steps hsteps => ?_, hb.trans ?_⟩
          · obtain ⟨steps, rfl⟩ :=
              Nat.exists_eq_add_one_of_ne_zero (Nat.ne_zero_of_lt (hlt.trans_le hsteps))
            rw [meets_parent hne hp]
            exact hmeets steps (by omega)
          · constructor
            · exact .step hp
            · intro h
              cases h with
              | refl => exact absurd rfl hne
              | step hparent h =>
                  cases hp.symm.trans hparent
                  exact h

private theorem meets_eq_contains (ht : t.Sound) (hsteps : t.size ≤ steps) (a id : Nat) :
    t.meets a (steps + 1) id = t.contains a id := by
  rw [contains, ht.size_parents]
  by_cases hid : id < t.size
  · obtain ⟨b, hb, -⟩ := exists_meets ht a hid
    rw [hb steps (hid.le.trans hsteps), hb t.size hid.le]
  · have hnone := ht.getElem?_parents_of_size_le (Nat.le_of_not_lt hid)
    rw [meets, meets, parent, hnone]
    rfl

private theorem exists_contains (ht : t.Sound) (a : Nat) (hid : id < t.size) :
    ∃ b, t.contains a id = .ok b ∧ (b = true ↔ t.Within a id) := by
  obtain ⟨b, hmeets, hb⟩ := exists_meets ht a hid
  exact ⟨b, meets_eq_contains ht le_rfl a id ▸ hmeets t.size hid.le, hb⟩

private theorem contains_eq_true_iff (ht : t.Sound) (ha : a < t.size) :
    t.contains a id = .ok true ↔ t.Within a id := by
  by_cases hid : id < t.size
  · obtain ⟨b, hcontains, hb⟩ := exists_contains ht a hid
    rw [hcontains, Except.ok.injEq, hb]
  · have hne : id ≠ a := by omega
    have hnone := ht.getElem?_parents_of_size_le (Nat.le_of_not_lt hid)
    refine iff_of_false ?_ fun h => hid (h.lt_size ht ha)
    rw [contains, meets, if_neg hne, parent, hnone]
    intro h
    cases h

/-! ## Last blocks -/

/-- One of some blocks, or none if there are none. -/
def Picks (picked : Option Nat) (offsets : List Nat) : Prop :=
  (picked = none ↔ offsets = []) ∧ ∀ offset ∈ picked, offset ∈ offsets

namespace Picks

variable {picked picked' : Option Nat} {offsets offsets' : List Nat}

theorem nil : Picks none [] := ⟨iff_of_true rfl rfl, fun _ h => nomatch h⟩

theorem singleton (offset : Nat) : Picks (some offset) [offset] :=
  ⟨iff_of_false (Option.some_ne_none _) (List.cons_ne_nil _ _), by simp⟩

theorem head? (offsets : List Nat) : Picks offsets.head? offsets :=
  ⟨List.head?_eq_none_iff, fun _ => List.mem_of_mem_head?⟩

theorem or (h : Picks picked offsets) (h' : Picks picked' offsets') :
    Picks (picked.or picked') (offsets' ++ offsets) := by
  refine ⟨?_, fun offset hmem => ?_⟩
  · rw [Option.or_eq_none_iff, h.1, h'.1, List.append_eq_nil_iff, and_comm]
  · rw [List.mem_append]
    rcases Option.or_eq_some_iff.mp hmem with hmem | ⟨-, hmem⟩
    · exact .inr (h.2 offset hmem)
    · exact .inl (h'.2 offset hmem)

private theorem findSome?_reverse {α : Type} {pick : α → Option Nat} {blocks : α → List Nat}
    (h : ∀ x, Picks (pick x) (blocks x)) (l : List α) :
    Picks (l.reverse.findSome? pick) (l.flatMap blocks) := by
  refine ⟨?_, fun offset hmem => ?_⟩
  · rw [List.findSome?_eq_none_iff, List.flatMap_eq_nil_iff]
    simp only [List.mem_reverse, (h _).1]
  · obtain ⟨x, hx, hpick⟩ := List.exists_of_findSome?_eq_some hmem
    exact List.mem_flatMap.mpr ⟨x, List.mem_reverse.mp hx, (h x).2 offset hpick⟩

end Picks

private theorem lastBelow_picks (t : RegionTree) (steps id : Nat) :
    Picks (t.lastBelow steps id) (t.blocksBelow steps id) := by
  induction steps generalizing id with
  | zero => exact .nil
  | succ steps ih =>
      rw [lastBelow, blocksBelow]
      cases t.regions[id]? with
      | none => exact .nil
      | some r =>
          cases r with
          | scope children entry =>
              refine .findSome?_reverse (fun child => ?_) children
              cases child with
              | block offset => exact .singleton offset
              | region c => exact ih c
          | guarded p handlers =>
              refine .or (.findSome?_reverse (fun h => ?_) handlers) (ih p)
              rw [firstBelow_eq_head?]
              exact .head? _
          | handler => exact .findSome?_reverse ih _

/-! ## Levels -/

private theorem levelsBelow_succ (hid : id < t.size) (steps : Nat) :
    t.levelsBelow (steps + 1) id =
      some (1 + ((t.regionsIn id).filterMap (t.levelsBelow steps)).max?.getD 0) := by
  have hregion : t.regions[id]? = some t.regions[id] := Array.getElem?_eq_getElem hid
  rw [levelsBelow, regionsIn, held_of_getElem? hregion, hregion]

/-- The deepest region within another is the deepest within one of its children, or itself if there
are none. -/
theorem isGreatest_levels (ht : t.Sound) {k : Nat} (hk : t.depth id = .ok k)
    {levels : Nat → Option Nat}
    (hchild : ∀ c ∈ t.regionsIn id, ∃ n, levels c = some (1 + n) ∧
      IsGreatest {m | ∃ d, t.Within c d ∧ t.depth d = .ok (k + 1 + m)} n) :
    IsGreatest {m | ∃ d, t.Within id d ∧ t.depth d = .ok (k + m)}
      (((t.regionsIn id).filterMap levels).max?.getD 0) := by
  constructor
  · -- Some region is as deep: the region itself, or the deepest one of the child with most levels.
    cases hmax : ((t.regionsIn id).filterMap levels).max? with
    | none => exact ⟨id, .refl, hk⟩
    | some n =>
        obtain ⟨c, hc, hlevels⟩ := List.mem_filterMap.mp (List.max?_eq_some_iff.mp hmax).1
        obtain ⟨n', hlevels', ⟨d, hd, hdepth⟩, -⟩ := hchild c hc
        obtain rfl : 1 + n' = n := Option.some.inj (hlevels'.symm.trans hlevels)
        refine ⟨d, hd.of_child (ht.mem_regionsIn.mp hc), ?_⟩
        rw [hdepth, Option.getD_some, Nat.add_assoc]
  · rintro m ⟨d, hd, hdepth⟩
    -- No region is deeper, as it stands in one of the children.
    rcases hd.eq_or_child with rfl | ⟨c, hc, hd⟩
    · rw [hk, Except.ok.injEq] at hdepth
      omega
    · obtain ⟨m', hm'⟩ := hd.exists_depth ht (depth_child ht hc hk)
      obtain ⟨n, hlevels, -, hgreatest⟩ := hchild c (ht.mem_regionsIn.mpr hc)
      have hle : m' ≤ n := hgreatest ⟨d, hd, hm'⟩
      have hmax : 1 + n ≤ ((t.regionsIn id).filterMap levels).max?.getD 0 :=
        List.le_max?_getD_of_mem (List.mem_filterMap.mpr ⟨c, ht.mem_regionsIn.mpr hc, hlevels⟩)
      rw [hm', Except.ok.injEq] at hdepth
      omega

/-- As many levels are below a region as the deepest region within it is deeper. -/
theorem levelsBelow_eq_some (ht : t.Sound) (hid : id < t.size) (hsteps : t.size ≤ id + steps)
    {k : Nat} (hk : t.depth id = .ok k) :
    ∃ n, t.levelsBelow steps id = some (1 + n) ∧
      IsGreatest {m | ∃ d, t.Within id d ∧ t.depth d = .ok (k + m)} n := by
  induction steps generalizing id k with
  | zero => omega
  | succ steps ih =>
      refine ⟨_, levelsBelow_succ hid steps, isGreatest_levels ht hk fun c hc => ?_⟩
      obtain ⟨hlt, hsize⟩ := ht.lt_of_mem_regionsIn hc
      exact ih hsize (by omega) (depth_child ht (ht.mem_regionsIn.mp hc) hk)

/-! ## The walks of a region -/

private theorem region_bind_error {α : Type} (hid : t.size ≤ id) (x : α) :
    (t.region id >>= fun _ => pure x) = .error (.regionNotFound id) := by
  rw [region, getElem?_of_size_le hid]
  rfl

/-- The region is directly below another. -/
def DirectlyBelow (t : RegionTree) (p c : Nat) : Prop := ∃ ids, t.childrenOf p = .ok ids ∧ c ∈ ids

private theorem directlyBelow_iff : t.DirectlyBelow a c ↔ c ∈ t.regionsIn a := by
  constructor
  · rintro ⟨ids, hids, hc⟩
    obtain ⟨r, hr, hids⟩ := bind_eq_ok hids
    cases hids
    rw [regionsIn, held_of_getElem? (region_eq_ok.mp hr)]
    exact hc
  · intro hc
    obtain ⟨r, hr, hc⟩ := getElem?_of_mem_held hc
    refine ⟨r.childRegions, ?_, hc⟩
    rw [childrenOf, region_eq_ok.mpr hr]
    rfl

/-- Who stands in whom upwards is who is reached from whom downwards. -/
theorem within_iff_reflTransGen (ht : t.Sound) :
    t.Within a id ↔ Relation.ReflTransGen t.DirectlyBelow a id := by
  constructor
  · intro h
    induction h with
    | refl => exact .refl
    | step hparent _ ih => exact ih.tail (directlyBelow_iff.mpr (ht.mem_regionsIn.mpr hparent))
  · intro h
    induction h with
    | refl => exact .refl
    | tail _ hbelow ih => exact .step (ht.mem_regionsIn.mp (directlyBelow_iff.mp hbelow)) ih

/-- There are blocks in the region. -/
def Occupied (t : RegionTree) (id : Nat) : Prop :=
  ∃ offsets, t.blocksOf id = .ok offsets ∧ offsets ≠ []

private theorem firstBlock_of_lt (hid : id < t.size) :
    t.firstBlock id = .ok (t.blocksBelow t.size id).head? := by
  rw [← firstBelow_eq_head?]
  exact region_bind_ok hid _

private theorem occupied_iff (hid : id < t.size) :
    t.Occupied id ↔ (t.blocksBelow t.size id).head? ≠ none := by
  have hblocks : t.blocksOf id = .ok (t.blocksBelow t.size id) := region_bind_ok hid _
  rw [Occupied, hblocks, Ne, List.head?_eq_none_iff]
  constructor
  · rintro ⟨offsets, hoffsets, hne⟩
    cases hoffsets
    exact hne
  · exact fun hne => ⟨_, rfl, hne⟩

private theorem lastBelow_of_guarded (ht : t.Sound) {p : Nat} {handlers : List Nat}
    (hr : t.regions[id]? = some (.guarded p handlers)) :
    t.lastBelow t.size id =
      (handlers.reverse.findSome? (t.firstBelow t.size)).or (t.lastBelow t.size p) := by
  -- One more step does not show, and leaves as many for the handlers as a walk from there has.
  rw [← lastBelow_of_le ht id (t.size + 1) (Nat.le_succ t.size), lastBelow, hr]

/-- The last block of a guarded region is the first of its last handler that has blocks. -/
theorem lastBlock_of_guarded (ht : t.Sound) {p : Nat} {handlers : List Nat}
    (hr : t.regions[id]? = some (.guarded p handlers)) (hoccupied : ∃ h ∈ handlers, t.Occupied h) :
    ∃ before h after, handlers = before ++ h :: after ∧ t.Occupied h ∧
      (∀ h' ∈ after, ¬ t.Occupied h') ∧ t.lastBlock id = t.firstBlock h := by
  have hlt (h : Nat) (hh : h ∈ handlers) : h < t.size := by
    have hmem : h ∈ t.regionsIn id := by
      rw [regionsIn, held_of_getElem? hr]
      exact List.mem_cons_of_mem p hh
    exact (ht.lt_of_mem_regionsIn hmem).2
  cases hfound : handlers.reverse.findSome? (t.firstBelow t.size) with
  | none =>
      obtain ⟨h, hh, hoccupied⟩ := hoccupied
      rw [occupied_iff (hlt h hh), ← firstBelow_eq_head?] at hoccupied
      exact absurd (List.findSome?_eq_none_iff.mp hfound h (List.mem_reverse.mpr hh)) hoccupied
  | some offset =>
      obtain ⟨after, h, before, hsplit, hfirst, hafter⟩ := List.findSome?_eq_some_iff.mp hfound
      have hhandlers : handlers = before.reverse ++ h :: after.reverse := by
        rw [← List.reverse_reverse handlers, hsplit]
        simp
      have hh : h < t.size := hlt h (by simp [hhandlers])
      refine ⟨before.reverse, h, after.reverse, hhandlers, ?_, fun h' hh' => ?_, ?_⟩
      · rw [occupied_iff hh, ← firstBelow_eq_head?, hfirst]
        exact Option.some_ne_none _
      · rw [occupied_iff (hlt h' (by simp [hhandlers, List.mem_reverse.mp hh'])), not_not,
          ← firstBelow_eq_head?]
        exact hafter h' (List.mem_reverse.mp hh')
      · have hlast : t.lastBlock id = .ok (t.lastBelow t.size id) :=
          region_bind_ok (lt_size_of_getElem? hr) _
        rw [hlast, lastBelow_of_guarded ht hr, hfound, firstBlock_of_lt hh, ← firstBelow_eq_head?,
          hfirst]
        rfl

/-- What the walks below a region tell is what parents and the scopes of blocks tell. -/
structure WalksAgree (t : RegionTree) (id : Nat) : Prop where
  blocks : ∃ offsets, t.blocksOf id = .ok offsets ∧ offsets.Nodup ∧
    (∀ offset, offset ∈ offsets ↔
      ∃ s, t.regionOf? offset = some s ∧ t.contains id s = .ok true) ∧
    t.firstBlock id = .ok offsets.head? ∧
    ∃ last, t.lastBlock id = .ok last ∧ (last.isSome ↔ offsets ≠ []) ∧
      ∀ offset ∈ last, offset ∈ offsets
  lastOfGuarded : ∀ (p : Nat) (handlers : List Nat), t.region id = .ok (.guarded p handlers) →
    (∃ h ∈ handlers, t.Occupied h) →
    ∃ before h after, handlers = before ++ h :: after ∧ t.Occupied h ∧
      (∀ h' ∈ after, ¬ t.Occupied h') ∧ t.lastBlock id = t.firstBlock h
  contains : ∀ a, ∃ b, t.contains a id = .ok b ∧
    (b = true ↔ Relation.ReflTransGen t.DirectlyBelow a id)
  nesting : ∃ k n, t.depth id = .ok k ∧ t.nesting id = .ok (1 + n) ∧
    (∀ d, t.contains id d = .ok true → ∃ m, t.depth d = .ok (k + m)) ∧
    IsGreatest {m | ∃ d, t.contains id d = .ok true ∧ t.depth d = .ok (k + m)} n

private theorem Sound.walksAgree (ht : t.Sound) (hid : id < t.size) : t.WalksAgree id where
  blocks := by
    obtain ⟨hnone, hmem⟩ := t.lastBelow_picks t.size id
    refine ⟨t.blocksBelow t.size id, region_bind_ok hid _, nodup_blocksBelow ht _ _,
      fun offset => ?_, firstBlock_of_lt hid, t.lastBelow t.size id, region_bind_ok hid _, ?_, hmem⟩
    · rw [mem_blocksBelow ht (Nat.le_add_left _ _)]
      simp only [contains_eq_true_iff ht hid]
    · rw [Option.isSome_iff_ne_none, Ne, hnone]
  lastOfGuarded := fun p handlers hr => lastBlock_of_guarded ht (region_eq_ok.mp hr)
  contains := by
    intro a
    obtain ⟨b, hcontains, hb⟩ := exists_contains ht a hid
    exact ⟨b, hcontains, hb.trans (within_iff_reflTransGen ht)⟩
  nesting := by
    obtain ⟨k, hk⟩ := exists_depth ht hid
    obtain ⟨n, hlevels, hgreatest⟩ := levelsBelow_eq_some ht hid (Nat.le_add_left _ _) hk
    refine ⟨k, n, hk, ?_, ?_, ?_⟩
    · rw [nesting, hlevels]
      exact region_bind_ok hid _
    · simp only [contains_eq_true_iff ht hid]
      exact fun d hd => hd.exists_depth ht hk
    · simpa only [contains_eq_true_iff ht hid] using hgreatest

/-- No way through a tree is endless, and steps beyond the number of regions do not show. -/
structure WalksEnd (t : RegionTree) : Prop where
  down : WellFounded fun c p => t.DirectlyBelow p c
  up : WellFounded fun p c => t.parent c = .ok (some p)
  blocks : ∀ id, ∀ steps ≥ t.size, t.blocksBelow steps id = t.blocksBelow t.size id
  first : ∀ id, ∀ steps ≥ t.size, t.firstBelow steps id = t.firstBelow t.size id
  last : ∀ id, ∀ steps ≥ t.size, t.lastBelow steps id = t.lastBelow t.size id
  levels : ∀ id, ∀ steps ≥ t.size, t.levelsBelow steps id = t.levelsBelow t.size id
  depth : ∀ id, ∀ steps > t.size, t.heightAbove steps id = t.depth id
  contains : ∀ a id, ∀ steps > t.size, t.meets a steps id = t.contains a id

private theorem Sound.walksEnd (ht : t.Sound) : t.WalksEnd where
  down := by
    refine Subrelation.wf ?_ (measure fun id => t.size - id).wf
    intro c p hbelow
    have hlt := ht.lt_of_mem_regionsIn (directlyBelow_iff.mp hbelow)
    show t.size - c < t.size - p
    omega
  up := Subrelation.wf (fun hparent => ht.parent_lt (parent_eq_ok.mp hparent)) Nat.lt_wfRel.wf
  blocks := (descends_blocksBelow t).eq_size ht
  first := by
    intro id steps hsteps
    rw [firstBelow_eq_head?, firstBelow_eq_head?,
      (descends_blocksBelow t).eq_size ht id steps hsteps]
  last := lastBelow_of_le ht
  levels := (descends_levelsBelow t).eq_size ht
  depth := by
    intro id steps hsteps
    obtain ⟨steps, rfl⟩ := Nat.exists_eq_add_one_of_ne_zero (Nat.ne_zero_of_lt hsteps)
    exact heightAbove_eq_depth ht (Nat.le_of_lt_succ hsteps) id
  contains := by
    intro a id steps hsteps
    obtain ⟨steps, rfl⟩ := Nat.exists_eq_add_one_of_ne_zero (Nat.ne_zero_of_lt hsteps)
    exact meets_eq_contains ht (Nat.le_of_lt_succ hsteps) a id

/-- After any requests, all walks end.  Those that start at a region tell the same downwards as
upwards, and those that start at a number without region are refused. -/
theorem after_walksAgree (requests : List Request) :
    let t := after requests
    t.WalksEnd ∧ (∀ id, id < t.size → t.WalksAgree id) ∧
      ∀ id, t.size ≤ id →
        t.blocksOf id = .error (.regionNotFound id) ∧
        t.firstBlock id = .error (.regionNotFound id) ∧
        t.lastBlock id = .error (.regionNotFound id) ∧
        t.nesting id = .error (.regionNotFound id) ∧
        t.depth id = .error (.regionNotFound id) := by
  intro t
  have ht : t.Sound := (kept_after requests).sound
  refine ⟨ht.walksEnd, fun id hid => ht.walksAgree hid, fun id hid => ?_⟩
  refine ⟨region_bind_error hid _, region_bind_error hid _, region_bind_error hid _,
    region_bind_error hid _, ?_⟩
  exact depth_of_size_le ht hid

/-- Blocks before and in a guarded region with a filter that has a prologue, and a handler after it
without blocks. -/
def emptyLastHandler : List Request :=
  [.addBlock 0 0, .addGuarded 0, .addBlock 2 4, .addHandler 1 (.filters 8), .addBlock 4 8,
    .addBlock 5 12, .addHandler 1 .faults]

theorem after_walksAgree_emptyLastHandler :
    let t := after emptyLastHandler
    t.region 1 = .ok (.guarded 2 [3, 6]) ∧ t.Occupied 3 ∧ ¬ t.Occupied 6 ∧
      t.lastBlock 1 = t.firstBlock 3 ∧ t.firstBlock 3 = .ok (some 8) ∧
      Relation.ReflTransGen t.DirectlyBelow 1 5 := by
  intro t
  obtain ⟨-, hagree, -⟩ := after_walksAgree emptyLastHandler
  have hregion : t.region 1 = .ok (.guarded 2 [3, 6]) := by decide
  have hfirst : t.firstBlock 3 = .ok (some 8) := by decide
  have hoccupied : t.Occupied 3 := ⟨[8, 12], by decide, by decide⟩
  have hempty : ¬ t.Occupied 6 := by
    rintro ⟨offsets, hoffsets, hne⟩
    have hnil : t.blocksOf 6 = .ok [] := by decide
    cases hnil.symm.trans hoffsets
    exact hne rfl
  obtain ⟨before, h, after, hhandlers, hfilled, -, hlast⟩ :=
    (hagree 1 (by decide)).lastOfGuarded 2 [3, 6] hregion ⟨3, by decide, hoccupied⟩
  obtain ⟨b, hb, hreached⟩ := (hagree 5 (by decide)).contains 1
  obtain rfl : h = 3 := by
    have hmem : h ∈ [3, 6] := by simp [hhandlers]
    rcases List.mem_pair.mp hmem with rfl | rfl
    · rfl
    · exact absurd hfilled hempty
  have hcontains : t.contains 1 5 = .ok true := by decide
  exact ⟨hregion, hoccupied, hempty, hlast, hfirst,
    hreached.mp (Except.ok.inj (hb.symm.trans hcontains))⟩

end CilAnalysis.RegionTree
