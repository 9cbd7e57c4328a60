import CilAnalysis.Proofs.ControlFlow.Ranges
import CilAnalysis.Proofs.Region.Extension

/-!
# Where the regions of clauses are placed

Groups of clauses are added to the region tree one after the other.  A group gets a guarded region
in the scope of the narrowest range around its own, among the ranges of the groups before it, and
each of its clauses gets a handler there.

`Placement` says what holds of all groups added so far.  `MethodBody.addGroup_eq` is the step, and
`MethodBody.clauseRegions_eq` the run: either all groups of the method are placed
(`MethodBody.Places`), or two ranges of different groups cross and the error tells where they start
(`MethodBody.Crossed`).

## Strategy

The tree only grows, and what is in it keeps its place (`RegionTree.Extends`).  So each fact about a
group has a lemma which carries it over to later trees (the lemmas named `later`), and the step has
to prove it of the new group only.  From small to large:

* `RegionTree.HasScope`: a scope stands in a guarded region, directly or in one of its handlers.
* `RegionTree.GainsHandlers`: a guarded region has got handlers for some clauses.
* `PlacedGroup.Stands`: the guarded region of a group with its protected scope and its handlers.
* `Placement`: all groups stand, each in the narrowest scope of those before it, and ranges of
  different groups nest.

New regions have numbers that no region had before, so the scopes of a later group have greater
numbers than those of an earlier one.
-/

namespace CilAnalysis

/-- A span crosses one of some ranges, and the error tells where both start. -/
def ScopeRange.Refuse (ranges : List ScopeRange) (spans : List Span) (e : Error) : Prop :=
  ∃ r ∈ ranges, ∃ s ∈ spans, ¬ r.span.Nests s ∧ e = .overlappingRegions r.start s.start

theorem ScopeRange.Refuse.mono {ranges : List ScopeRange} {spans spans' : List Span} {e : Error}
    (h : Refuse ranges spans e) (hsubset : spans ⊆ spans') : Refuse ranges spans' e := by
  obtain ⟨r, hr, s, hs, hcross⟩ := h
  exact ⟨r, hr, s, hsubset hs, hcross⟩

private theorem Clause.filterStart?_eq_some {c : Clause} {start : Nat} :
    c.filterStart? = some start ↔ c.kind = .filters start := by
  unfold filterStart?
  cases c.kind <;> simp

/-! ## Handlers -/

namespace RegionTree

variable {t t' : RegionTree} {guarded : Nat}

/-- A scope that stands in a guarded region, directly or in one of its handlers. -/
structure HasScope (t : RegionTree) (guarded scope : Nat) : Prop where
  isScope : ∃ r, t.regions[scope]? = some r ∧ r.isScope = true
  under : t.parents[scope]? = some (some guarded) ∨
    ∃ handler r, t.parents[scope]? = some (some handler) ∧
      t.parents[handler]? = some (some guarded) ∧
      t.regions[handler]? = some r ∧ r.isHandler = true

/-- A guarded region has a handler for a clause, and the scopes of the handler have their ranges. -/
def Handles (t : RegionTree) (guarded : Nat) (c : Clause) (ranges : List ScopeRange) : Prop :=
  ∃ protectedScope handlers handler prologue contents,
    t.regions[guarded]? = some (.guarded protectedScope handlers) ∧ handler ∈ handlers ∧
    t.regions[handler]? = some (.handler c.kind prologue contents none) ∧
    ⟨c.handlerStart, c.handlerEnd, contents⟩ ∈ ranges ∧
    ∀ start, c.filterStart? = some start →
      ∃ scope, prologue = some scope ∧ ⟨start, c.handlerStart, scope⟩ ∈ ranges

theorem HasScope.later {scope : Nat} (h : t.HasScope guarded scope) (ht : t.Extends t') :
    t'.HasScope guarded scope where
  isScope := by
    obtain ⟨r, hr, hscope⟩ := h.isScope
    obtain ⟨r', hr', hbecomes⟩ := ht.region _ r hr
    exact ⟨r', hr', hbecomes.isScope.trans hscope⟩
  under := by
    rcases h.under with hparent | ⟨handler, r, hparent, habove, hr, hhandler⟩
    · exact .inl (ht.parent _ _ hparent)
    · obtain ⟨r', hr', hbecomes⟩ := ht.region _ r hr
      exact .inr ⟨handler, r', ht.parent _ _ hparent, ht.parent _ _ habove, hr',
        hbecomes.isHandler.trans hhandler⟩

theorem HasScope.within {scope : Nat} (h : t.HasScope guarded scope) : t.Within guarded scope := by
  rcases h.under with hparent | ⟨handler, r, hparent, habove, -⟩
  · exact .step hparent .refl
  · exact .step hparent (.step habove .refl)

/-- Above a scope of a guarded region there are no scopes but those above the region. -/
theorem HasScope.above {scope a : Nat} (h : t.HasScope guarded scope)
    (ha : ∃ r, t.regions[a]? = some r ∧ r.isScope = true) (hwithin : t.Within a scope) :
    a = scope ∨ t.Within a guarded := by
  rcases h.under with hparent | ⟨handler, r, hparent, habove, hr, hhandler⟩
  · rcases hwithin.eq_or_of_parent hparent with heq | hwithin
    · exact .inl heq.symm
    · exact .inr hwithin
  · rcases hwithin.eq_or_of_parent hparent with heq | hwithin
    · exact .inl heq.symm
    · refine .inr ((hwithin.eq_or_of_parent habove).resolve_left ?_)
      rintro rfl
      obtain ⟨s, hs, hscope⟩ := ha
      obtain rfl := Option.some.inj (hr.symm.trans hs)
      cases r with
      | scope => exact nomatch hhandler
      | guarded => exact nomatch hscope
      | handler => exact nomatch hscope

theorem Handles.later {c : Clause} {ranges : List ScopeRange} (h : t.Handles guarded c ranges)
    (ht : t.Extends t') : t'.Handles guarded c ranges := by
  obtain ⟨p, handlers, handler, prologue, contents, hguarded, hmem, hhandler, hranges⟩ := h
  obtain ⟨r', hr', hbecomes⟩ := ht.region _ _ hguarded
  obtain ⟨s', hs', hbecomes'⟩ := ht.region _ _ hhandler
  cases hbecomes with
  | guarded _ hsubset =>
      cases hbecomes'
      exact ⟨p, _, handler, prologue, contents, hr', hsubset hmem, hs', hranges⟩

theorem Handles.mono {c : Clause} {ranges ranges' : List ScopeRange}
    (h : t.Handles guarded c ranges) (hsubset : ranges ⊆ ranges') :
    t.Handles guarded c ranges' := by
  obtain ⟨p, handlers, handler, prologue, contents, hguarded, hmem, hhandler, hcontents, hfilter⟩ :=
    h
  refine ⟨p, handlers, handler, prologue, contents, hguarded, hmem, hhandler, hsubset hcontents, ?_⟩
  intro start hstart
  obtain ⟨scope, hscope, hrange⟩ := hfilter start hstart
  exact ⟨scope, hscope, hsubset hrange⟩

/-- `t'` is a later form of `t` in which a guarded region has handlers for some more clauses, whose
scopes have the ranges `more`. -/
structure GainsHandlers (t t' : RegionTree) (guarded : Nat) (clauses : List Clause)
    (more : List ScopeRange) : Prop extends t.Extends t' where
  sound : t'.Sound
  spans : more.map ScopeRange.span = clauses.flatMap Clause.handlerSpans
  numbered : (more.map ScopeRange.scope).Pairwise (· < ·)
  fresh : ∀ r ∈ more, t.size ≤ r.scope
  hasScope : ∀ r ∈ more, t'.HasScope guarded r.scope
  handles : ∀ c ∈ clauses, t'.Handles guarded c more

namespace GainsHandlers

variable {clauses clauses' : List Clause} {more more' : List ScopeRange}

theorem lt_size (h : t.GainsHandlers t' guarded clauses more) {r : ScopeRange} (hr : r ∈ more) :
    r.scope < t'.size := by
  obtain ⟨s, hs, -⟩ := (h.hasScope r hr).isScope
  exact lt_size_of_getElem? hs

theorem nil (ht : t.Sound) : t.GainsHandlers t guarded [] [] :=
  ⟨.refl t, ht, rfl, .nil, by simp, by simp, by simp⟩

theorem append {t'' : RegionTree} (h : t.GainsHandlers t' guarded clauses more)
    (h' : t'.GainsHandlers t'' guarded clauses' more') :
    t.GainsHandlers t'' guarded (clauses ++ clauses') (more ++ more') where
  toExtends := h.toExtends.trans h'.toExtends
  sound := h'.sound
  spans := by rw [List.map_append, h.spans, h'.spans, List.flatMap_append]
  numbered := by
    rw [List.map_append, List.pairwise_append]
    refine ⟨h.numbered, h'.numbered, ?_⟩
    intro scope hscope scope' hscope'
    obtain ⟨r, hr, rfl⟩ := List.mem_map.mp hscope
    obtain ⟨r', hr', rfl⟩ := List.mem_map.mp hscope'
    exact (h.lt_size hr).trans_le (h'.fresh r' hr')
  fresh := by
    refine List.forall_mem_append.mpr ⟨h.fresh, fun r hr => ?_⟩
    exact h.size_le.trans (h'.fresh r hr)
  hasScope := by
    refine List.forall_mem_append.mpr ⟨fun r hr => ?_, h'.hasScope⟩
    exact (h.hasScope r hr).later h'.toExtends
  handles := by
    refine List.forall_mem_append.mpr ⟨fun c hc => ?_, fun c hc => ?_⟩
    · exact ((h.handles c hc).later h'.toExtends).mono (List.subset_append_left ..)
    · exact (h'.handles c hc).mono (List.subset_append_right ..)

end GainsHandlers

end RegionTree

namespace MethodBody

open RegionTree ScopeRange

variable {t : RegionTree} {ranges : List ScopeRange} {guarded : Nat}

/-- A clause gets a handler with its scopes, unless one of its ranges crosses one of those given. -/
theorem addClause_eq (ranges : List ScopeRange) (ht : t.Sound) {r : Region}
    (hr : t.regions[guarded]? = some r) (hguarded : r.isGuarded = true) (c : Clause) :
    (∃ more t', addClause ranges guarded t c = .ok (more, t') ∧
      t.GainsHandlers t' guarded [c] more ∧ ∀ s ∈ c.handlerSpans, ∀ x ∈ ranges, x.span.Nests s) ∨
    ∃ e, addClause ranges guarded t c = .error e ∧ Refuse ranges c.handlerSpans e := by
  obtain ⟨ids, t', hadd⟩ := addHandler_of_isGuarded hr hguarded c.kind
  obtain ⟨scopes, hgains, hcontents, hpos, ⟨p, handlers, hguarded, hmem⟩, hprologue⟩ :=
    addHandler_gains ht hadd
  have hscope : ∀ k, 0 < k → k ≤ scopes → t'.HasScope guarded (t.size + k) := fun k hk hle =>
    ⟨⟨_, (hgains.scope k hk hle).1, rfl⟩,
      .inr ⟨t.size, _, (hgains.scope k hk hle).2, hgains.above, hgains.added, rfl⟩⟩
  -- The handler is added first and its ranges are compared after that, the one of a filter before
  -- the other.
  have hhandler := checkNested_eq ranges ⟨c.handlerStart, c.handlerEnd⟩
  cases hstart : c.filterStart? with
  | none =>
      have hspans : c.handlerSpans = [⟨c.handlerStart, c.handlerEnd⟩] := by
        simp [Clause.handlerSpans, hstart]
      have hrun : addClause ranges guarded t c = do
          checkNested ranges c.handlerStart c.handlerEnd
          return ([⟨c.handlerStart, c.handlerEnd, ids.contents⟩], t') := by
        unfold addClause
        rw [hadd, hstart]
        dsimp only [bind, Except.bind]
        cases ids.prologue <;> rfl
      rw [hspans, hrun]
      rcases hhandler with ⟨hok, hnests⟩ | ⟨x, hx, hcross, herror⟩
      · refine .inl ⟨_, t', by rw [hok]; rfl, ⟨hgains.toExtends, hgains.sound, ?_, ?_, ?_, ?_, ?_⟩,
          List.forall_mem_singleton.mpr hnests⟩
        · simp [hspans, span]
        · simp
        · simp [hcontents]
        · simpa [hcontents] using hscope scopes hpos le_rfl
        · refine List.forall_mem_singleton.mpr ⟨p, handlers, t.size, _, _, hguarded, hmem,
            hgains.added, List.mem_cons_self, fun start hsome => ?_⟩
          exact absurd (hsome.symm.trans hstart) (Option.some_ne_none _)
      · exact .inr ⟨_, by rw [herror]; rfl, x, hx, _, List.mem_cons_self, hcross, rfl⟩
  | some start =>
      obtain ⟨rfl, hpro⟩ := hprologue start (Clause.filterStart?_eq_some.mp hstart)
      have hspans : c.handlerSpans =
          [⟨start, c.handlerStart⟩, ⟨c.handlerStart, c.handlerEnd⟩] := by
        simp [Clause.handlerSpans, hstart]
      have hrun : addClause ranges guarded t c = do
          checkNested ranges start c.handlerStart
          checkNested ranges c.handlerStart c.handlerEnd
          return ([⟨start, c.handlerStart, t.size + 1⟩,
            ⟨c.handlerStart, c.handlerEnd, ids.contents⟩], t') := by
        unfold addClause
        rw [hadd, hstart]
        dsimp only [bind, Except.bind]
        rw [hpro]
        rfl
      rw [hspans, hrun]
      rcases checkNested_eq ranges ⟨start, c.handlerStart⟩ with
        ⟨hok, hnests⟩ | ⟨x, hx, hcross, herror⟩
      · rcases hhandler with ⟨hok', hnests'⟩ | ⟨x, hx, hcross, herror⟩
        · refine .inl ⟨_, t', by rw [hok, hok']; rfl,
            ⟨hgains.toExtends, hgains.sound, ?_, ?_, ?_, ?_, ?_⟩,
            List.forall_mem_cons.mpr ⟨hnests, List.forall_mem_singleton.mpr hnests'⟩⟩
          · simp [hspans, span]
          · simp [hcontents]
          · simp [hcontents]
          · simpa [hcontents] using ⟨hscope 1 one_pos one_le_two, hscope 2 two_pos le_rfl⟩
          · refine List.forall_mem_singleton.mpr ⟨p, handlers, t.size, _, _, hguarded, hmem,
              hgains.added, by simp, fun start' hsome => ?_⟩
            obtain rfl := Option.some.inj (hsome.symm.trans hstart)
            exact ⟨_, hpro, by simp⟩
        · exact .inr ⟨_, by rw [hok, herror]; rfl, x, hx, _, by simp, hcross, rfl⟩
      · exact .inr ⟨_, by rw [herror]; rfl, x, hx, _, List.mem_cons_self, hcross, rfl⟩

/-- Add handlers for clauses one after the other. -/
def addClauses (ranges : List ScopeRange) (guarded : Nat) (clauses : List Clause)
    (state : List ScopeRange × RegionTree) : Except Error (List ScopeRange × RegionTree) :=
  clauses.foldlM
    (fun (added, t) c => do
      let (more, t) ← addClause ranges guarded t c
      return (added ++ more, t))
    state

private theorem addClauses_eq (ranges added : List ScopeRange) (ht : t.Sound) {r : Region}
    (hr : t.regions[guarded]? = some r) (hguarded : r.isGuarded = true) (clauses : List Clause) :
    (∃ more t', addClauses ranges guarded clauses (added, t) = .ok (added ++ more, t') ∧
      t.GainsHandlers t' guarded clauses more ∧
        ∀ s ∈ clauses.flatMap Clause.handlerSpans, ∀ x ∈ ranges, x.span.Nests s) ∨
    ∃ e, addClauses ranges guarded clauses (added, t) = .error e ∧
      Refuse ranges (clauses.flatMap Clause.handlerSpans) e := by
  induction clauses generalizing t r added with
  | nil => exact .inl ⟨[], t, by rw [List.append_nil]; rfl, .nil ht, by simp⟩
  | cons c rest ih =>
      have hrun : addClauses ranges guarded (c :: rest) (added, t) =
          addClause ranges guarded t c >>= fun state =>
            addClauses ranges guarded rest (added ++ state.1, state.2) := by
        unfold addClauses
        rw [List.foldlM_cons, bind_assoc]
        rfl
      rw [hrun, List.flatMap_cons]
      rcases addClause_eq ranges ht hr hguarded c with
        ⟨more, t₁, hok, hgains, hnests⟩ | ⟨e, herror, hrefuse⟩
      · obtain ⟨r₁, hr₁, hbecomes⟩ := hgains.region guarded r hr
        rcases ih (added ++ more) hgains.sound hr₁ (hbecomes.isGuarded.trans hguarded) with
          ⟨more', t', hok', hgains', hnests'⟩ | ⟨e, herror, hrefuse⟩
        · refine .inl ⟨more ++ more', t', ?_, hgains.append hgains',
            List.forall_mem_append.mpr ⟨hnests, hnests'⟩⟩
          rw [hok, ← List.append_assoc, ← hok']
          rfl
        · refine .inr ⟨e, ?_, hrefuse.mono (List.subset_append_right ..)⟩
          rw [hok, ← herror]
          rfl
      · exact .inr ⟨e, by rw [herror]; rfl, hrefuse.mono (List.subset_append_left ..)⟩

end MethodBody

/-! ## Groups -/

/-- A guarded range with its clauses, the region that was made for it and the ranges of the scopes
in that region. -/
structure PlacedGroup where
  guard : GuardedRange
  clauses : List Clause
  guarded : Nat
  ranges : List ScopeRange

namespace PlacedGroup

/-- What a tree has for a group. -/
structure Stands (t : RegionTree) (G : PlacedGroup) : Prop where
  spans : G.ranges.map ScopeRange.span = G.guard.span :: G.clauses.flatMap Clause.handlerSpans
  numbered : (G.ranges.map ScopeRange.scope).Pairwise (· < ·)
  lt_scope : ∀ r ∈ G.ranges, G.guarded < r.scope
  hasScope : ∀ r ∈ G.ranges, t.HasScope G.guarded r.scope
  guards : ∃ protectedScope handlers,
    t.regions[G.guarded]? = some (.guarded protectedScope handlers) ∧
      ⟨G.guard.start, G.guard.stop, protectedScope⟩ ∈ G.ranges
  handles : ∀ c ∈ G.clauses, t.Handles G.guarded c G.ranges

variable {t t' : RegionTree} {G : PlacedGroup}

theorem Stands.later (h : G.Stands t) (ht : t.Extends t') : G.Stands t' where
  spans := h.spans
  numbered := h.numbered
  lt_scope := h.lt_scope
  hasScope := fun r hr => (h.hasScope r hr).later ht
  guards := by
    obtain ⟨p, handlers, hguarded, hrange⟩ := h.guards
    obtain ⟨r', hr', hbecomes⟩ := ht.region _ _ hguarded
    cases hbecomes with
    | guarded => exact ⟨p, _, hr', hrange⟩
  handles := fun c hc => (h.handles c hc).later ht

/-- A guarded region that was added with its scope, and then given handlers, stands for its
group. -/
theorem stands_of_gains {t₁ : RegionTree} {guard : GuardedRange} {clauses : List Clause}
    {more : List ScopeRange} {under : Nat}
    (hgains : t.Gains t₁ (.guarded (t.size + 1) []) under 1)
    (hhandlers : t₁.GainsHandlers t' t.size clauses more) :
    Stands t' ⟨guard, clauses, t.size, ⟨guard.start, guard.stop, t.size + 1⟩ :: more⟩ := by
  have hprotected : t'.HasScope t.size (t.size + 1) :=
    RegionTree.HasScope.later ⟨⟨_, (hgains.scope 1 one_pos le_rfl).1, rfl⟩,
      .inl (hgains.scope 1 one_pos le_rfl).2⟩ hhandlers.toExtends
  have hlater : ∀ s ∈ more, t.size + 1 < s.scope := by
    intro s hs
    calc t.size + 1
        < t₁.size := by
          rw [hgains.size]
          omega
      _ ≤ s.scope := hhandlers.fresh s hs
  refine ⟨?_, ?_, ?_, ?_, ?_, ?_⟩
  · rw [List.map_cons, hhandlers.spans]
    rfl
  · rw [List.map_cons, List.pairwise_cons]
    refine ⟨fun scope hscope => ?_, hhandlers.numbered⟩
    obtain ⟨s, hs, rfl⟩ := List.mem_map.mp hscope
    exact hlater s hs
  · refine List.forall_mem_cons.mpr ⟨Nat.lt_succ_self _, fun s hs => ?_⟩
    exact (Nat.lt_succ_self _).trans (hlater s hs)
  · exact List.forall_mem_cons.mpr ⟨hprotected, hhandlers.hasScope⟩
  · obtain ⟨r', hr', hbecomes⟩ := hhandlers.region _ _ hgains.added
    cases hbecomes with
    | guarded => exact ⟨_, _, hr', List.mem_cons_self⟩
  · exact fun c hc => (hhandlers.handles c hc).mono (List.subset_cons_self ..)

/-- The scopes of a group do not stand in each other. -/
theorem Stands.eq_of_within (h : G.Stands t) (ht : t.Sound) {r s : ScopeRange} (hr : r ∈ G.ranges)
    (hs : s ∈ G.ranges) (hwithin : t.Within r.scope s.scope) : r.scope = s.scope := by
  refine ((h.hasScope s hs).above (h.hasScope r hr).isScope hwithin).resolve_right fun habove => ?_
  exact absurd (habove.le ht) (h.lt_scope r hr).not_ge

end PlacedGroup

/-- The groups added so far.  The guarded region of each stands in the scope of the narrowest range
of the groups before it, and ranges of different groups nest. -/
structure Placement (t : RegionTree) (gs : List PlacedGroup) : Prop where
  sound : t.Sound
  root : ∃ r, t.regions[RegionTree.root]? = some r ∧ r.isScope = true
  stands : ∀ G ∈ gs, G.Stands t
  under : ∀ k G, gs[k]? = some G → t.parents[G.guarded]? = some (some
    (ScopeRange.narrowest ((gs.take k).flatMap PlacedGroup.ranges) G.guard.span).scope)
  nested : gs.Pairwise fun G H =>
    ∀ r ∈ G.ranges, r.scope < H.guarded ∧ ∀ s ∈ H.ranges, r.span.Nests s.span

namespace ScopeRange

/-- The narrowest range is one of those given that covers the span, or that of the root. -/
theorem narrowest_eq_whole_or (ranges : List ScopeRange) (s : Span) :
    narrowest ranges s = whole ∨ narrowest ranges s ∈ ranges ∧ (narrowest ranges s).span.Covers s :=
  List.foldlRecOn (motive := fun best => best = whole ∨ best ∈ ranges ∧ best.span.Covers s)
    ranges _ (.inl rfl) fun best hbest r hr => by
      split
      next htaken =>
        rw [Bool.and_eq_true, covers_iff] at htaken
        exact .inr ⟨hr, htaken.1⟩
      next => exact hbest

end ScopeRange

theorem rel_of_lt {α : Type} {R : α → α → Prop} {l : List α} (h : l.Pairwise R) {i j : Nat}
    {x y : α} (hi : l[i]? = some x) (hj : l[j]? = some y) (hlt : i < j) : R x y := by
  obtain ⟨hlen, rfl⟩ := List.getElem?_eq_some_iff.mp hi
  obtain ⟨hlen', rfl⟩ := List.getElem?_eq_some_iff.mp hj
  exact List.pairwise_iff_getElem.mp h i j hlen hlen' hlt

namespace Placement

variable {t t' : RegionTree} {gs : List PlacedGroup}

theorem empty : Placement .empty [] where
  sound := .empty
  root := ⟨_, rfl, rfl⟩
  stands := by simp
  under := by simp
  nested := .nil

theorem later (h : Placement t gs) (ht : t.Extends t') (hsound : t'.Sound) : Placement t' gs where
  sound := hsound
  root := by
    obtain ⟨r, hr, hscope⟩ := h.root
    obtain ⟨r', hr', hbecomes⟩ := ht.region _ r hr
    exact ⟨r', hr', hbecomes.isScope.trans hscope⟩
  stands := fun G hG => (h.stands G hG).later ht
  under := fun k G hG => ht.parent _ _ (h.under k G hG)
  nested := h.nested

/-- Blocks and groups are put into scopes. -/
theorem isScope_narrowest (h : Placement t gs) (s : Span) :
    ∃ r, t.regions[(ScopeRange.narrowest (gs.flatMap PlacedGroup.ranges) s).scope]? = some r ∧
      r.isScope = true := by
  rcases ScopeRange.narrowest_eq_whole_or (gs.flatMap PlacedGroup.ranges) s with hwhole | ⟨hmem, -⟩
  · rw [hwhole]
    exact h.root
  · obtain ⟨G, hG, hr⟩ := List.mem_flatMap.mp hmem
    exact ((h.stands G hG).hasScope _ hr).isScope

/-- One more group. -/
theorem append (h : Placement t gs) (ht : t.Extends t') (hsound : t'.Sound) {G : PlacedGroup}
    (hstands : G.Stands t') (hnew : t.size ≤ G.guarded)
    (hunder : t'.parents[G.guarded]? = some (some
      (ScopeRange.narrowest (gs.flatMap PlacedGroup.ranges) G.guard.span).scope))
    (hnests : ∀ r ∈ gs.flatMap PlacedGroup.ranges, ∀ s ∈ G.ranges, r.span.Nests s.span) :
    Placement t' (gs ++ [G]) where
  sound := hsound
  root := (h.later ht hsound).root
  stands := List.forall_mem_append.mpr
    ⟨(h.later ht hsound).stands, List.forall_mem_singleton.mpr hstands⟩
  under := by
    intro k H hH
    rcases Nat.lt_trichotomy k gs.length with hlt | rfl | hgt
    · rw [List.getElem?_append_left hlt] at hH
      rw [List.take_append_of_le_length hlt.le]
      exact ht.parent _ _ (h.under k H hH)
    · rw [List.getElem?_concat_length, Option.some.injEq] at hH
      subst hH
      rw [List.take_left]
      exact hunder
    · rw [List.getElem?_eq_none (by simpa using hgt)] at hH
      exact nomatch hH
  nested := by
    rw [List.pairwise_append]
    refine ⟨h.nested, List.pairwise_singleton _ _, fun H hH => ?_⟩
    refine List.forall_mem_singleton.mpr fun r hr => ⟨?_, hnests r (List.mem_flatMap_of_mem hH hr)⟩
    obtain ⟨x, hx, -⟩ := ((h.stands H hH).hasScope r hr).isScope
    exact (RegionTree.lt_size_of_getElem? hx).trans_le hnew

end Placement

namespace MethodBody

open RegionTree ScopeRange

variable {t : RegionTree} {gs : List PlacedGroup}

/-- A group is added, unless one of its ranges crosses one of the groups before it. -/
theorem addGroup_eq (h : Placement t gs) (guard : GuardedRange) (clauses : List Clause) :
    (∃ G t', addGroup (gs.flatMap PlacedGroup.ranges, t) (guard, clauses) =
        .ok ((gs ++ [G]).flatMap PlacedGroup.ranges, t') ∧
      (G.guard, G.clauses) = (guard, clauses) ∧ Placement t' (gs ++ [G])) ∨
    ∃ e, addGroup (gs.flatMap PlacedGroup.ranges, t) (guard, clauses) = .error e ∧
      Refuse (gs.flatMap PlacedGroup.ranges)
        (guard.span :: clauses.flatMap Clause.handlerSpans) e := by
  generalize hranges : gs.flatMap PlacedGroup.ranges = ranges
  have hrun : addGroup (ranges, t) (guard, clauses) =
      checkNested ranges guard.start guard.stop >>= fun _ =>
        t.addGuarded (narrowest ranges guard.span).scope >>= fun x =>
          addClauses ranges x.1.1 clauses ([⟨guard.start, guard.stop, x.1.2⟩], x.2) >>= fun y =>
            .ok (ranges ++ y.1, y.2) := rfl
  rw [hrun]
  rcases checkNested_eq ranges guard.span with ⟨hok, hnests⟩ | ⟨x, hx, hcross, herror⟩
  · obtain ⟨r, hr, hscope⟩ := h.isScope_narrowest guard.span
    obtain ⟨ids, t₁, hguarded⟩ := addGuarded_of_isScope hr hscope
    obtain ⟨rfl, hgains⟩ := addGuarded_gains h.sound hguarded
    rw [hranges] at hguarded hgains
    rw [show checkNested ranges guard.start guard.stop = .ok () from hok, hguarded]
    -- The guarded region has the next number, and its protected scope the one after.
    rcases addClauses_eq ranges [⟨guard.start, guard.stop, t.size + 1⟩] hgains.sound hgains.added
      rfl clauses with ⟨more, t', hclauses, hhandlers, hmore⟩ | ⟨e, herror, hrefuse⟩
    · refine .inl ⟨⟨guard, clauses, t.size, ⟨guard.start, guard.stop, t.size + 1⟩ :: more⟩, t',
        ?_, rfl, ?_⟩
      · rw [List.flatMap_append, hranges, List.flatMap_singleton]
        show (addClauses ranges t.size clauses _ >>= _) = _
        rw [hclauses]
        rfl
      · refine h.append (hgains.toExtends.trans hhandlers.toExtends) hhandlers.sound
          (PlacedGroup.stands_of_gains hgains hhandlers) le_rfl ?_ ?_
        · rw [hranges]
          exact hhandlers.parent _ _ hgains.above
        · rw [hranges]
          intro x hx
          refine List.forall_mem_cons.mpr ⟨hnests x hx, fun s hs => hmore _ ?_ x hx⟩
          rw [← hhandlers.spans]
          exact List.mem_map_of_mem hs
    · refine .inr ⟨e, ?_, hrefuse.mono (List.subset_cons_self ..)⟩
      show (addClauses ranges t.size clauses _ >>= _) = _
      rw [herror]
      rfl
  · refine .inr ⟨_, ?_, x, hx, _, List.mem_cons_self, hcross, rfl⟩
    rw [show checkNested ranges guard.start guard.stop = _ from herror]
    rfl

/-- The ranges of a group are those of the clauses with its guarded range. -/
theorem mem_spans_of_group {b : MethodBody} {guard : GuardedRange} {clauses : List Clause}
    (h : (guard, clauses) ∈ b.clauseGroups.entries) {s : Span} :
    s ∈ guard.span :: clauses.flatMap Clause.handlerSpans ↔
      ∃ c ∈ b.clauses, c.guardedSpan = guard.span ∧ s ∈ c.spans := by
  obtain ⟨rfl, hne⟩ := mem_clauseGroups.mp h
  simp only [Clause.spans, List.mem_cons, List.mem_flatMap, mem_clausesOf]
  constructor
  · rintro (rfl | ⟨c, ⟨hc, hguard⟩, hs⟩)
    · obtain ⟨c, hc⟩ := List.exists_mem_of_ne_nil _ hne
      obtain ⟨hc, hguard⟩ := mem_clausesOf.mp hc
      exact ⟨c, hc, hguard, .inl hguard.symm⟩
    · exact ⟨c, hc, hguard, .inr hs⟩
  · rintro ⟨c, hc, hguard, hs | hs⟩
    · exact .inl (hs.trans hguard)
    · exact .inr ⟨c, ⟨hc, hguard⟩, hs⟩

/-- Ranges of clauses with different guarded ranges cross, and the error tells where they start. -/
def Crossed (b : MethodBody) (e : Error) : Prop :=
  ∃ c ∈ b.clauses, ∃ d ∈ b.clauses, c.guardedSpan ≠ d.guardedSpan ∧
    ∃ r ∈ c.spans, ∃ s ∈ d.spans, ¬ r.Nests s ∧ e = .overlappingRegions r.start s.start

/-- All groups of a method are placed. -/
structure Places (b : MethodBody) (t : RegionTree) (gs : List PlacedGroup) : Prop
    extends Placement t gs where
  groups : gs.map (fun G => (G.guard, G.clauses)) = b.clauseGroups.entries

private theorem crossed_of_refuse {b : MethodBody} {group : GuardedRange × List Clause}
    {rest : List (GuardedRange × List Clause)} {e : Error} (h : Placement t gs)
    (hgroups : gs.map (fun G => (G.guard, G.clauses)) ++ group :: rest = b.clauseGroups.entries)
    (hrefuse : Refuse (gs.flatMap PlacedGroup.ranges)
      (group.1.span :: group.2.flatMap Clause.handlerSpans) e) : b.Crossed e := by
  obtain ⟨x, hx, s, hs, hcross, he⟩ := hrefuse
  obtain ⟨G, hG, hx⟩ := List.mem_flatMap.mp hx
  have hgroup : group ∈ b.clauseGroups.entries := by simp [← hgroups]
  have hplaced : (G.guard, G.clauses) ∈ b.clauseGroups.entries := by
    rw [← hgroups]
    exact List.mem_append_left _ (List.mem_map_of_mem hG)
  obtain ⟨c, hc, hguard, hr⟩ := (mem_spans_of_group hplaced).mp
    ((h.stands G hG).spans ▸ List.mem_map_of_mem hx)
  obtain ⟨d, hd, hguard', hs⟩ := (mem_spans_of_group hgroup).mp hs
  -- A group that is placed comes before one that is still to come.
  have hbefore : G.guard.span.Before group.1.span := by
    have hordered := b.clauseGroups_ordered
    rw [← hgroups, List.pairwise_append] at hordered
    exact hordered.2.2 _ (List.mem_map_of_mem hG) _ List.mem_cons_self
  refine ⟨c, hc, d, hd, ?_, x.span, hr, s, hs, hcross, he⟩
  rw [hguard, hguard']
  exact hbefore.ne

private theorem foldlM_addGroup_eq {b : MethodBody} (rest : List (GuardedRange × List Clause))
    (h : Placement t gs)
    (hgroups : gs.map (fun G => (G.guard, G.clauses)) ++ rest = b.clauseGroups.entries) :
    (∃ gs' t', rest.foldlM addGroup (gs.flatMap PlacedGroup.ranges, t) =
        .ok (gs'.flatMap PlacedGroup.ranges, t') ∧ b.Places t' gs') ∨
      ∃ e, rest.foldlM addGroup (gs.flatMap PlacedGroup.ranges, t) = .error e ∧ b.Crossed e := by
  induction rest generalizing gs t with
  | nil =>
      rw [List.append_nil] at hgroups
      exact .inl ⟨gs, t, rfl, h, hgroups⟩
  | cons group rest ih =>
      rw [List.foldlM_cons]
      rcases addGroup_eq h group.1 group.2 with ⟨G, t', hok, hG, hplacement⟩ | ⟨e, herror, hrefuse⟩
      · have hrest : (gs ++ [G]).map (fun G => (G.guard, G.clauses)) ++ rest =
            b.clauseGroups.entries := by
          rw [← hgroups, List.map_append, List.map_singleton, hG, List.append_assoc]
          rfl
        rw [show addGroup _ group = _ from hok]
        exact ih hplacement hrest
      · refine .inr ⟨e, ?_, crossed_of_refuse h hgroups hrefuse⟩
        rw [show addGroup _ group = _ from herror]
        rfl

/-- The groups of a method are added one after the other, unless ranges of two of them cross. -/
theorem clauseRegions_eq (b : MethodBody) :
    (∃ gs t, b.clauseRegions = .ok (gs.flatMap PlacedGroup.ranges, t) ∧ b.Places t gs) ∨
      ∃ e, b.clauseRegions = .error e ∧ b.Crossed e :=
  foldlM_addGroup_eq b.clauseGroups.entries .empty rfl

namespace Places

variable {b : MethodBody}

theorem mem_clauseGroups (h : b.Places t gs) {G : PlacedGroup} (hG : G ∈ gs) :
    (G.guard, G.clauses) ∈ b.clauseGroups.entries :=
  h.groups ▸ List.mem_map_of_mem hG

theorem exists_clause (h : b.Places t gs) {G : PlacedGroup} (hG : G ∈ gs) {r : ScopeRange}
    (hr : r ∈ G.ranges) : ∃ c ∈ b.clauses, c.guardedSpan = G.guard.span ∧ r.span ∈ c.spans :=
  (mem_spans_of_group (h.mem_clauseGroups hG)).mp
    ((h.stands G hG).spans ▸ List.mem_map_of_mem hr)

theorem exists_group (h : b.Places t gs) {c : Clause} (hc : c ∈ b.clauses) :
    ∃ G ∈ gs, G.guard.span = c.guardedSpan ∧ c ∈ G.clauses := by
  have hgroup : (⟨c.tryStart, c.tryEnd⟩, b.clausesOf c.guardedSpan) ∈ b.clauseGroups.entries :=
    MethodBody.mem_clauseGroups.mpr ⟨rfl, List.ne_nil_of_mem (mem_clausesOf.mpr ⟨hc, rfl⟩)⟩
  rw [← h.groups] at hgroup
  obtain ⟨G, hG, hpair⟩ := List.mem_map.mp hgroup
  obtain ⟨hguard, hclauses⟩ := Prod.mk.inj hpair
  exact ⟨G, hG, by rw [hguard]; rfl, hclauses ▸ mem_clausesOf.mpr ⟨hc, rfl⟩⟩

theorem exists_range (h : b.Places t gs) {G : PlacedGroup} (hG : G ∈ gs) {c : Clause}
    (hc : c ∈ b.clauses) (hguard : c.guardedSpan = G.guard.span) {s : Span} (hs : s ∈ c.spans) :
    ∃ r ∈ G.ranges, r.span = s := by
  have hmem := (mem_spans_of_group (h.mem_clauseGroups hG)).mpr ⟨c, hc, hguard, hs⟩
  rw [← (h.stands G hG).spans] at hmem
  exact List.mem_map.mp hmem

/-- Groups are placed in the order of their guarded ranges. -/
theorem before (h : b.Places t gs) : gs.Pairwise fun G H => G.guard.span.Before H.guard.span := by
  have hordered := b.clauseGroups_ordered
  rwa [← h.groups, List.pairwise_map] at hordered

end Places

end MethodBody

end CilAnalysis
