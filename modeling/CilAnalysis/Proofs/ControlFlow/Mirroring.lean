import CilAnalysis.Proofs.ControlFlow.Overlap

/-!
# Regions that mirror ranges

Region nesting mirrors range nesting where every block stands in the scopes of all ranges around it
(`ControlFlowGraph.Mirrors`).  A group of clauses only looks at the ranges of the groups before it,
so this depends on the order in which the groups are taken: no clause may stand in the handler of a
clause that is taken after it.

The ranges of one group must also be apart, since their scopes stand side by side.  For clauses
whose ranges stand in the same ranges of other clauses the two conditions are necessary and
sufficient (`ControlFlowGraph.mirrors_iff_inOrder`).

## Strategy

A block stands in the scope of the narrowest range around it, and a guarded region in that of the
narrowest range of the groups before it.

*From ranges to regions.*  Let `r` be a range around a span and `p` the narrowest one
(`MethodBody.Places.within_narrowest`).  The induction is on the number of groups taken so far:

* if the group of `r` comes first, then `r` covers the guarded range of the group of `p`
  (`MethodBody.Places.covers_guard`, where the two conditions come in), and by induction the scope
  of `r` stands above the guarded region, and so above `p`;
* if the group of `p` comes first, then `p` could only be as short as `r` if they were equal, and of
  equal ranges the later one is taken.

*From regions to ranges.*  If blocks stand in all scopes around them, the scopes of any two ranges
that overlap stand one in the other, since a block starts where the later of the two does.  For the
order, suppose a range lies in a handler of a clause taken later.  Its scope then stands above the
guarded region of that clause, and so its range covers the guarded range
(`MethodBody.Places.covers_or_twin`; a second scope with an equal range is ruled out by the same
argument).
-/

namespace CilAnalysis

open PlacedGroup ScopeRange

/-- Whether another span lies strictly in this one. -/
def Span.Encloses (r s : Span) : Prop := r.Covers s ∧ r ≠ s

instance (r s : Span) : Decidable (r.Encloses s) := inferInstanceAs (Decidable (_ ∧ _))

theorem Span.Covers.trans {r s u : Span} (h : r.Covers s) (h' : s.Covers u) : r.Covers u :=
  ⟨h.1.trans h'.1, h'.2.trans h.2⟩

private theorem Span.Covers.meets_of_covers {r s u : Span} (h : r.Covers u) (h' : s.Covers u)
    (hu : u.start < u.stop) : r.Meets s :=
  ⟨(h.1.trans_lt hu).trans_le h'.2, (h'.1.trans_lt hu).trans_le h.2⟩

private theorem Span.Before.asymm {r s : Span} (h : r.Before s) : ¬ s.Before r := by
  unfold Before at h ⊢
  omega

private theorem Span.Before.not_covers {r s : Span} (h : r.Before s) : ¬ s.Covers r := by
  unfold Before at h
  unfold Covers
  omega

namespace MethodBody

/-! ## The order of clauses -/

/-- The ranges of a clause lie strictly in the same ranges of other clauses. -/
def Coherent (b : MethodBody) : Prop :=
  ∀ c ∈ b.clauses, ∀ d ∈ b.clauses, c ≠ d → ∀ r ∈ c.spans, ∀ s ∈ d.spans, r.Encloses s →
    ∀ s' ∈ d.spans, r.Encloses s'

/-- The ranges of the clauses with one guarded range do not overlap. -/
def SpansApart (b : MethodBody) : Prop :=
  ∀ c ∈ b.clauses,
    (c.guardedSpan :: (b.clausesOf c.guardedSpan).flatMap Clause.handlerSpans).Pairwise
      fun r s => ¬ r.Meets s

/-- No range of a clause lies in a handler or a filter of a clause that is taken after it. -/
def InOrder (b : MethodBody) : Prop :=
  ∀ c ∈ b.clauses, ∀ d ∈ b.clauses, c.guardedSpan.Before d.guardedSpan →
    ∀ r ∈ c.spans, ∀ s ∈ d.handlerSpans, ¬ s.Covers r

instance (b : MethodBody) : Decidable b.Coherent :=
  inferInstanceAs (Decidable (∀ c ∈ b.clauses, ∀ d ∈ b.clauses, _ → ∀ r ∈ c.spans, ∀ s ∈ d.spans,
    _ → ∀ s' ∈ d.spans, _))

instance (b : MethodBody) : Decidable b.SpansApart :=
  inferInstanceAs (Decidable (∀ c ∈ b.clauses, _))

instance (b : MethodBody) : Decidable b.InOrder :=
  inferInstanceAs (Decidable (∀ c ∈ b.clauses, ∀ d ∈ b.clauses, _ → ∀ r ∈ c.spans,
    ∀ s ∈ d.handlerSpans, _))

namespace Places

variable {b : MethodBody} {t : RegionTree} {gs : List PlacedGroup} {G H : PlacedGroup}
  {r s : ScopeRange} {i j : Nat}

/-- A range that overlaps one of a later group covers the guarded range of that group. -/
theorem covers_guard (h : b.Places t gs) (hcoherent : b.Coherent) (horder : b.InOrder)
    (hi : gs[i]? = some G) (hj : gs[j]? = some H) (hlt : i < j) (hr : r ∈ G.ranges)
    (hs : s ∈ H.ranges) (hmeets : r.span.Meets s.span) : r.span.Covers H.guard.span := by
  have hbefore := rel_of_lt h.before hi hj hlt
  obtain ⟨c, hc, hguard, hrc⟩ := h.exists_clause (List.mem_of_getElem? hi) hr
  obtain ⟨d, hd, hguard', hsd⟩ := h.exists_clause (List.mem_of_getElem? hj) hs
  rw [← hguard, ← hguard'] at hbefore
  rw [← hguard']
  have hne : c ≠ d := fun heq => hbefore.ne (heq ▸ rfl)
  -- A later range can only lie around an earlier one if the two are equal.
  have hinner : s.span.Covers r.span → r.span.Covers d.guardedSpan := by
    intro hcovers
    rcases List.mem_cons.mp hsd with hguarded | hhandler
    · -- The guarded range would lie around `c`, and then come first.
      by_cases heq : s.span = r.span
      · rw [← heq, hguarded]
        exact ⟨le_rfl, le_rfl⟩
      · have hencloses := hcoherent d hd c hc hne.symm _ hsd _ hrc ⟨hcovers, heq⟩ _
          c.guardedSpan_mem_spans
        rw [hguarded] at hencloses
        exact absurd hencloses.1 hbefore.not_covers
    · exact absurd hcovers (horder c hc d hd hbefore _ hrc _ hhandler)
  rcases (rel_of_lt h.nested hi hj hlt r hr).2 s hs with hdisjoint | hcovers | hcovers
  · exact absurd hmeets hdisjoint
  · by_cases heq : r.span = s.span
    · exact hinner (heq ▸ hcovers)
    · exact (hcoherent c hc d hd hne _ hrc _ hsd ⟨hcovers, heq⟩ _ d.guardedSpan_mem_spans).1
  · exact hinner hcovers

private theorem spans_eq (h : b.Places t gs) (hG : G ∈ gs) :
    G.ranges.map ScopeRange.span =
      G.guard.span :: (b.clausesOf G.guard.span).flatMap Clause.handlerSpans := by
  rw [(h.stands G hG).spans, (MethodBody.mem_clauseGroups.mp (h.mem_clauseGroups hG)).1]

private theorem eq_of_meets (h : b.Places t gs) (hapart : b.SpansApart) (hG : G ∈ gs)
    (hr : r ∈ G.ranges) (hs : s ∈ G.ranges) (hmeets : r.span.Meets s.span) : r = s := by
  obtain ⟨c, hc, hguard, -⟩ := h.exists_clause hG hr
  have hpairs := hapart c hc
  rw [hguard, ← h.spans_eq hG, List.pairwise_map] at hpairs
  have hsymm : Std.Symm fun r s : ScopeRange => ¬ r.span.Meets s.span :=
    ⟨fun _ _ hdisjoint hmeets => hdisjoint hmeets.symm⟩
  by_contra hne
  exact hpairs.forall hr hs hne hmeets

end Places

end MethodBody

/-! ## Ranges of the groups before one -/

private theorem ScopeRange.length_congr {r s : ScopeRange} (h : r.span = s.span) :
    r.length = s.length := by
  obtain ⟨hstart, hstop⟩ := Span.mk.inj h
  unfold length
  rw [hstart, hstop]

private theorem ScopeRange.span_eq_of_covers {r s : ScopeRange} (h : r.span.Covers s.span)
    (hs : s.span.start < s.span.stop) (hle : r.length ≤ s.length) : r.span = s.span := by
  obtain ⟨a, b, _⟩ := r
  obtain ⟨c, d, _⟩ := s
  simp only [Span.Covers, span, length, Span.mk.injEq] at h hs hle ⊢
  omega

private theorem PlacedGroup.mem_flatMap_take {gs : List PlacedGroup} {k : Nat} {r : ScopeRange} :
    r ∈ (gs.take k).flatMap ranges ↔ ∃ i < k, ∃ G, gs[i]? = some G ∧ r ∈ G.ranges := by
  rw [List.mem_flatMap]
  constructor
  · rintro ⟨G, hG, hr⟩
    obtain ⟨i, hi⟩ := List.getElem?_of_mem hG
    rw [List.getElem?_take] at hi
    split at hi
    next hlt => exact ⟨i, hlt, G, hi, hr⟩
    next => exact nomatch hi
  · rintro ⟨i, hlt, G, hi, hr⟩
    refine ⟨G, List.mem_of_getElem? (i := i) ?_, hr⟩
    rw [List.getElem?_take, if_pos hlt, hi]

private theorem PlacedGroup.mem_ranges_of_take {gs : List PlacedGroup} {k : Nat} {r : ScopeRange}
    (h : r ∈ (gs.take k).flatMap ranges) : r ∈ gs.flatMap ranges := by
  obtain ⟨i, -, G, hi, hr⟩ := mem_flatMap_take.mp h
  exact List.mem_flatMap_of_mem (List.mem_of_getElem? hi) hr

namespace Placement

variable {t : RegionTree} {gs : List PlacedGroup}

/-- Scopes are numbered in the order of their ranges. -/
theorem numbered (h : Placement t gs) (k : Nat) :
    (((gs.take k).flatMap PlacedGroup.ranges).map ScopeRange.scope).Pairwise (· < ·) := by
  rw [List.pairwise_map, List.pairwise_flatMap]
  constructor
  · intro G hG
    exact List.pairwise_map.mp (h.stands G (List.mem_of_mem_take hG)).numbered
  · refine (h.nested.sublist (List.take_sublist k gs)).imp_of_mem ?_
    intro G H _ hH hnested r hr s hs
    exact (hnested r hr).1.trans ((h.stands H (List.mem_of_mem_take hH)).lt_scope s hs)

private theorem guarded_ne_scope (h : Placement t gs) {H : PlacedGroup} (hH : H ∈ gs)
    {r : ScopeRange} (hr : r ∈ gs.flatMap PlacedGroup.ranges) : H.guarded ≠ r.scope := by
  intro heq
  obtain ⟨G, hG, hrG⟩ := List.mem_flatMap.mp hr
  obtain ⟨p, handlers, hguarded, -⟩ := (h.stands H hH).guards
  obtain ⟨x, hx, hscope⟩ := ((h.stands G hG).hasScope r hrG).isScope
  rw [← heq, hguarded, Option.some.injEq] at hx
  subst hx
  exact nomatch hscope

/-- Scopes with smaller numbers than a guarded region are those of earlier groups. -/
theorem lt_of_scope_le (h : Placement t gs) {i j : Nat} {G H : PlacedGroup} {r : ScopeRange}
    (hi : gs[i]? = some G) (hr : r ∈ G.ranges) (hj : gs[j]? = some H) (hle : r.scope ≤ H.guarded) :
    i < j := by
  have hscope := (h.stands G (List.mem_of_getElem? hi)).lt_scope r hr
  rcases Nat.lt_trichotomy i j with hlt | rfl | hgt
  · exact hlt
  · obtain rfl := Option.some.inj (hi.symm.trans hj)
    omega
  · have hH := h.stands H (List.mem_of_getElem? hj)
    obtain ⟨p, -, -, hprotected⟩ := hH.guards
    have hbefore : H.guarded < r.scope :=
      calc H.guarded
          < p := hH.lt_scope _ hprotected
        _ < G.guarded := (rel_of_lt h.nested hj hi hgt _ hprotected).1
        _ < r.scope := hscope
    exact absurd hle hbefore.not_ge

private theorem eq_of_scope (h : Placement t gs) {r s : ScopeRange}
    (hr : r ∈ gs.flatMap PlacedGroup.ranges) (hs : s ∈ gs.flatMap PlacedGroup.ranges)
    (hscope : r.scope = s.scope) : r = s := by
  have hnumbered := h.numbered gs.length
  rw [List.take_length] at hnumbered
  exact List.inj_on_of_nodup_map (hnumbered.imp Nat.ne_of_lt) hr hs hscope

end Placement

/-- A region stands in the scope of a smallest range around a span, the scopes in the region itself
apart, and in the root if there is none. -/
def RegionTree.ChildOfSmallest (t : RegionTree) (ranges : List ScopeRange) (id : Nat) (s : Span) :
    Prop :=
  ∃ p, t.parent id = .ok (some p) ∧
    (p = root ∧ (∀ r ∈ ranges, r.span.Covers s → t.Within id r.scope) ∨
      ∃ r ∈ ranges, r.scope = p ∧ r.span.Covers s ∧
        ∀ r' ∈ ranges, r'.span.Covers s → t.Within id r'.scope ∨ r.length ≤ r'.length)

namespace MethodBody.Places

variable {b : MethodBody} {t : RegionTree} {gs : List PlacedGroup} {G H : PlacedGroup}
  {r s : ScopeRange} {i j : Nat}

private theorem span_nonempty (h : b.Places t gs)
    (hnonempty : ∀ c ∈ b.clauses, ∀ s ∈ c.spans, s.start < s.stop) (hG : G ∈ gs)
    (hr : r ∈ G.ranges) :
    r.span.start < r.span.stop ∧ G.guard.span.start < G.guard.span.stop := by
  obtain ⟨c, hc, hguard, hspan⟩ := h.exists_clause hG hr
  exact ⟨hnonempty c hc _ hspan, hguard ▸ hnonempty c hc _ c.guardedSpan_mem_spans⟩

/-! ## From ranges to regions -/

section Inward

variable (h : b.Places t gs) (hcoherent : b.Coherent) (hapart : b.SpansApart) (horder : b.InOrder)
  (hnonempty : ∀ c ∈ b.clauses, ∀ s ∈ c.spans, s.start < s.stop)
include h hcoherent hapart horder hnonempty

/-- A range of an earlier group around a common span is longer, or equal. -/
theorem span_eq_guard (hi : gs[i]? = some G) (hj : gs[j]? = some H) (hlt : i < j)
    (hr : r ∈ G.ranges) (hs : s ∈ H.ranges) (hmeets : r.span.Meets s.span)
    (hle : r.length ≤ s.length) : r.span = s.span := by
  have hcovers := h.covers_guard hcoherent horder hi hj hlt hr hs hmeets
  have hH := List.mem_of_getElem? hj
  obtain ⟨hspan, hguard⟩ := h.span_nonempty hnonempty hH hs
  -- Ranges of different groups nest, so three cases are left.
  rcases (rel_of_lt h.nested hi hj hlt r hr).2 s hs with hdisjoint | hrs | hsr
  · exact absurd hmeets hdisjoint
  · exact span_eq_of_covers hrs hspan hle
  · -- Then `s` is the guarded range, for it lies around it.
    obtain ⟨p, -, -, hprotected⟩ := (h.stands H hH).guards
    have heq := h.eq_of_meets hapart hH hs hprotected ((hsr.trans hcovers).meets hguard)
    have hrs : r.span.Covers s.span := by
      rw [heq]
      exact hcovers
    exact span_eq_of_covers hrs hspan hle

/-- The scopes of all ranges around a span, of the first groups, stand above the scope of the
narrowest. -/
theorem within_narrowest
    (hlength : ∀ r ∈ gs.flatMap PlacedGroup.ranges, r.length ≤ ScopeRange.whole.length)
    (k : Nat) {q : Span} (hq : q.start < q.stop) (hr : r ∈ (gs.take k).flatMap PlacedGroup.ranges)
    (hcovers : r.span.Covers q) :
    t.Within r.scope
      (ScopeRange.narrowest ((gs.take k).flatMap PlacedGroup.ranges) q).scope := by
  induction k using Nat.strong_induction_on generalizing q r with
  | _ k ih =>
      have hspec := narrowest_spec (s := q)
        (fun r hr => hlength r (mem_ranges_of_take hr)) (h.numbered k)
      generalize narrowest ((gs.take k).flatMap ranges) q = p at hspec ⊢
      obtain ⟨-, hnone⟩ | ⟨hp, hpq, hleast⟩ := hspec
      · exact absurd hcovers (hnone r hr)
      obtain ⟨i, hik, G, hi, hrG⟩ := mem_flatMap_take.mp hr
      obtain ⟨j, hjk, H, hj, hpH⟩ := mem_flatMap_take.mp hp
      have hmeets := hcovers.meets_of_covers hpq hq
      rcases Nat.lt_trichotomy i j with hlt | rfl | hgt
      · -- The range is around the group of the narrowest one, and so around its guarded region.
        have hH := List.mem_of_getElem? hj
        have hguard := h.covers_guard hcoherent horder hi hj hlt hrG hpH hmeets
        have habove := ih j hjk (h.span_nonempty hnonempty hH hpH).2
          (mem_flatMap_take.mpr ⟨i, hlt, G, hi, hrG⟩) hguard
        exact (RegionTree.Within.step (h.under j H hj) habove).trans
          ((h.stands H hH).hasScope p hpH).within
      · obtain rfl := Option.some.inj (hi.symm.trans hj)
        rw [h.eq_of_meets hapart (List.mem_of_getElem? hi) hrG hpH hmeets]
        exact .refl
      · -- Of two equal ranges the one of the later group is taken.
        have hleast := hleast r hr hcovers
        have heq := h.span_eq_guard hcoherent hapart horder hnonempty hj hi hgt hpH hrG hmeets.symm
          (by omega)
        have hlength : p.length = r.length := length_congr heq
        have hscopes := (rel_of_lt h.nested hj hi hgt p hpH).1
        have hlater := (h.stands G (List.mem_of_getElem? hi)).lt_scope r hrG
        omega

/-- A guarded region stands in the scope of a smallest range around its own. -/
theorem childOfSmallest
    (hlength : ∀ r ∈ gs.flatMap PlacedGroup.ranges, r.length ≤ ScopeRange.whole.length)
    {k : Nat} (hk : gs[k]? = some G) :
    t.ChildOfSmallest (gs.flatMap PlacedGroup.ranges) G.guarded G.guard.span := by
  have hG := List.mem_of_getElem? hk
  obtain ⟨scope, -, -, hprotected⟩ := (h.stands G hG).guards
  have hguard := (h.span_nonempty hnonempty hG hprotected).2
  -- A later group has no range around the guarded one, and those of the group stand in the region.
  have hothers : ∀ r ∈ gs.flatMap ranges, r.span.Covers G.guard.span →
      t.Within G.guarded r.scope ∨ r ∈ (gs.take k).flatMap ranges := by
    intro r hr hcovers
    obtain ⟨H, hH, hrH⟩ := List.mem_flatMap.mp hr
    obtain ⟨j, hj⟩ := List.getElem?_of_mem hH
    rcases Nat.lt_trichotomy j k with hlt | rfl | hgt
    · exact .inr (mem_flatMap_take.mpr ⟨j, hlt, H, hj, hrH⟩)
    · obtain rfl := Option.some.inj (hk.symm.trans hj)
      exact .inl ((h.stands G hG).hasScope r hrH).within
    · have hinner : G.guard.span.Covers H.guard.span :=
        h.covers_guard hcoherent horder hk hj hgt hprotected hrH (hcovers.meets hguard).symm
      obtain ⟨scope', -, -, hprotected'⟩ := (h.stands H hH).guards
      have heq := h.eq_of_meets hapart hH hrH hprotected'
        ((hcovers.trans hinner).meets (h.span_nonempty hnonempty hH hrH).2)
      have hcovers' : H.guard.span.Covers G.guard.span := by
        rw [heq] at hcovers
        exact hcovers
      exact absurd hcovers' (rel_of_lt h.before hk hj hgt).not_covers
  refine ⟨_, RegionTree.parent_eq_ok.mpr (h.under k G hk), ?_⟩
  have hspec := narrowest_spec (s := G.guard.span)
    (fun r hr => hlength r (mem_ranges_of_take hr)) (h.numbered k)
  rcases hspec with ⟨hwhole, hnone⟩ | ⟨hmem, hcovers, hleast⟩
  · refine .inl ⟨by rw [hwhole]; rfl, fun r hr hcovers => ?_⟩
    exact (hothers r hr hcovers).resolve_right fun hr => hnone r hr hcovers
  · refine .inr ⟨_, mem_ranges_of_take hmem, rfl, hcovers, fun r hr hcovers' => ?_⟩
    refine (hothers r hr hcovers').imp_right fun hr => ?_
    have hle := hleast r hr hcovers'
    omega

end Inward

/-! ## From regions to ranges -/

section Outward

variable (h : b.Places t gs)
include h

/-- A range that lies around the guarded range of a later group lies around its other ranges. -/
theorem covers_of_covers_guard (hcoherent : b.Coherent) {i m : Nat} {G K : PlacedGroup}
    {r p : ScopeRange} (hi : gs[i]? = some G) (hm : gs[m]? = some K) (hlt : i < m)
    (hr : r ∈ G.ranges) (hp : p ∈ K.ranges) (hcovers : r.span.Covers K.guard.span)
    (hne : r.span ≠ K.guard.span) : r.span.Covers p.span := by
  obtain ⟨c, hc, hcguard, hrc⟩ := h.exists_clause (List.mem_of_getElem? hi) hr
  obtain ⟨d, hd, hdguard, hpd⟩ := h.exists_clause (List.mem_of_getElem? hm) hp
  have hclauses : c ≠ d := by
    rintro rfl
    exact (rel_of_lt h.before hi hm hlt).ne (hcguard.symm.trans hdguard)
  exact (hcoherent c hc d hd hclauses _ hrc _ d.guardedSpan_mem_spans
    ⟨hdguard ▸ hcovers, hdguard ▸ hne⟩ _ hpd).1

/-- A scope above the guarded region of a group is that of a range around the guarded range, or
there is another scope for the same span, made before the region, that does not stand above it. -/
theorem covers_or_twin (hcoherent : b.Coherent) (hj : gs[j]? = some H)
    (hr : r ∈ gs.flatMap PlacedGroup.ranges) (hwithin : t.Within r.scope H.guarded) :
    r.span.Covers H.guard.span ∨
      ∃ z ∈ gs.flatMap PlacedGroup.ranges, z.span = r.span ∧ z.scope < H.guarded ∧
        ¬ t.Within z.scope H.guarded := by
  induction j using Nat.strong_induction_on generalizing H with
  | _ j ih =>
      have hunder := h.under j H hj
      -- What stands above the guarded region stands above the scope `p` that it was put into.
      have hstep : ∀ x ∈ gs.flatMap ranges, t.Within x.scope H.guarded →
          t.Within x.scope (narrowest ((gs.take j).flatMap ranges)
            H.guard.span).scope := fun x hx hwithin =>
        (hwithin.eq_or_of_parent hunder).resolve_left
          (h.guarded_ne_scope (List.mem_of_getElem? hj) hx)
      have hinner := narrowest_eq_whole_or ((gs.take j).flatMap ranges)
        H.guard.span
      generalize narrowest ((gs.take j).flatMap ranges) H.guard.span = p
        at hstep hinner
      obtain ⟨G, hG, hrG⟩ := List.mem_flatMap.mp hr
      rcases hinner with rfl | ⟨hp, hcovers⟩
      · -- Above the root there is no scope of a range.
        have hle := (hstep r hr hwithin).le h.sound
        have hlt := (h.stands G hG).lt_scope r hrG
        exact absurd (hlt.trans_le hle) (Nat.not_lt_zero _)
      obtain ⟨m, hmj, K, hm, hpK⟩ := mem_flatMap_take.mp hp
      have hK := List.mem_of_getElem? hm
      have hp := mem_ranges_of_take hp
      have hearlier := rel_of_lt h.nested hm hj hmj
      -- And what stands above `p` is `p`, or it stands above the guarded region of its group `K`.
      have habove : ∀ x ∈ gs.flatMap ranges, t.Within x.scope H.guarded →
          x = p ∨ t.Within x.scope K.guarded := by
        intro x hx hwithin
        obtain ⟨X, hX, hxX⟩ := List.mem_flatMap.mp hx
        refine (((h.stands K hK).hasScope p hpK).above
          ((h.stands X hX).hasScope x hxX).isScope (hstep x hx hwithin)).imp_left ?_
        exact fun hscope => h.eq_of_scope hx hp hscope
      rcases habove r hr hwithin with rfl | hwithin'
      · exact .inl hcovers
      rcases ih m hmj hm hwithin' with hguard | ⟨z, hz, hspan, hlt, hnot⟩
      · by_cases heq : r.span = K.guard.span
        · by_cases hpguard : p.span = K.guard.span
          · exact .inl (heq.trans hpguard.symm ▸ hcovers)
          · -- The region stands in a handler of the group, and not in its protected scope.
            obtain ⟨scope, -, -, hprotected⟩ := (h.stands K hK).guards
            refine .inr ⟨_, List.mem_flatMap_of_mem hK hprotected, heq.symm,
              (hearlier _ hprotected).1, fun hwithin => ?_⟩
            have hscope := (h.stands K hK).eq_of_within h.sound hprotected hpK
              (hstep _ (List.mem_flatMap_of_mem hK hprotected) hwithin)
            rw [← h.eq_of_scope (List.mem_flatMap_of_mem hK hprotected) hp hscope] at hpguard
            exact hpguard rfl
        · -- The range lies around a clause of the group, and so around its other ranges.
          obtain ⟨i, hi⟩ := List.getElem?_of_mem hG
          have hlt := h.lt_of_scope_le hi hrG hm (hwithin'.le h.sound)
          have hcovers' := h.covers_of_covers_guard hcoherent hi hm hlt hrG hpK hguard heq
          exact .inl (hcovers'.trans hcovers)
      · -- The twin at `K` is one at `H` too, unless it stands above `H`, and then it is `p`.
        by_cases hwithin'' : t.Within z.scope H.guarded
        · rcases habove z hz hwithin'' with rfl | habove
          · exact .inl (hspan ▸ hcovers)
          · exact absurd habove hnot
        · have hbefore : z.scope < H.guarded :=
            calc z.scope
                < K.guarded := hlt
              _ < p.scope := (h.stands K hK).lt_scope p hpK
              _ < H.guarded := (hearlier p hpK).1
          exact .inr ⟨z, hz, hspan, hbefore, hwithin''⟩

variable (hnonempty : ∀ c ∈ b.clauses, ∀ s ∈ c.spans, s.start < s.stop)
  (hcomparable : ∀ r ∈ gs.flatMap PlacedGroup.ranges, ∀ s ∈ gs.flatMap PlacedGroup.ranges,
    r.span.Meets s.span → t.Within r.scope s.scope ∨ t.Within s.scope r.scope)
include hcomparable

private theorem spansApart : b.SpansApart := by
  intro c hc
  obtain ⟨G, hG, hguard, -⟩ := h.exists_group hc
  rw [← hguard, ← h.spans_eq hG, List.pairwise_map]
  refine (List.pairwise_map.mp (h.stands G hG).numbered).imp_of_mem ?_
  intro r s hr hs hlt hmeets
  rcases hcomparable r (List.mem_flatMap_of_mem hG hr) s (List.mem_flatMap_of_mem hG hs) hmeets with
    hwithin | hwithin
  · exact hlt.ne ((h.stands G hG).eq_of_within h.sound hr hs hwithin)
  · exact hlt.ne' ((h.stands G hG).eq_of_within h.sound hs hr hwithin)

include hnonempty in
private theorem inOrder (hcoherent : b.Coherent) : b.InOrder := by
  intro c hc d hd hbefore u hu v hv hcovers
  obtain ⟨G, hG, hguard, -⟩ := h.exists_group hc
  obtain ⟨H, hH, hguard', -⟩ := h.exists_group hd
  obtain ⟨r, hr, rfl⟩ := h.exists_range hG hc hguard.symm hu
  obtain ⟨s, hs, rfl⟩ := h.exists_range hH hd hguard'.symm (List.mem_cons_of_mem _ hv)
  obtain ⟨j, hj⟩ := List.getElem?_of_mem hH
  have hspan := (h.span_nonempty hnonempty hG hr).1
  -- A range of an earlier group with the span of `r` has its scope above the later region.
  have habove : ∀ x ∈ gs.flatMap ranges, x.span = r.span → x.scope < H.guarded →
      t.Within x.scope H.guarded := by
    intro x hx heq hlt
    obtain ⟨X, hX, hxX⟩ := List.mem_flatMap.mp hx
    have hscope := (h.stands H hH).lt_scope s hs
    have hmeets : x.span.Meets s.span := heq ▸ (hcovers.meets hspan).symm
    rcases hcomparable x hx s (List.mem_flatMap_of_mem hH hs) hmeets with hwithin | hwithin
    · refine (((h.stands H hH).hasScope s hs).above
        ((h.stands X hX).hasScope x hxX).isScope hwithin).resolve_left ?_
      omega
    · have hle := hwithin.le h.sound
      omega
  have hearlier : r.scope < H.guarded := by
    obtain ⟨i, hi⟩ := List.getElem?_of_mem hG
    rcases Nat.lt_trichotomy i j with hlt | rfl | hgt
    · exact (rel_of_lt h.nested hi hj hlt r hr).1
    · obtain rfl := Option.some.inj (hi.symm.trans hj)
      exact absurd (hguard.symm.trans hguard') hbefore.ne
    · have hafter := rel_of_lt h.before hj hi hgt
      rw [hguard, hguard'] at hafter
      exact absurd hafter hbefore.asymm
  have hrs := List.mem_flatMap_of_mem (f := ranges) hG hr
  -- Either the handler overlaps the guarded range, or the twin contradicts what was just shown.
  rcases h.covers_or_twin hcoherent hj hrs (habove r hrs rfl hearlier) with
    hguarded | ⟨z, hz, heq, hlt, hnot⟩
  · have hpairs := List.pairwise_cons.mp (h.spansApart hcomparable d hd)
    have hmeets := (hcovers.trans hguarded).meets (h.span_nonempty hnonempty hH hs).2
    rw [hguard'] at hmeets
    exact hpairs.1 _ (List.mem_flatMap_of_mem (mem_clausesOf.mpr ⟨hd, rfl⟩) hv) hmeets.symm
  · exact hnot (habove z hz heq hlt)

end Outward

end MethodBody.Places

/-! ## The blocks of a method in its regions -/

/-- A guarded region stands for a clause: its protected scope has the guarded range, and it has a
handler for the clause. -/
structure RegionTree.StandsFor (t : RegionTree) (guarded : Nat) (c : Clause)
    (ranges : List ScopeRange) : Prop where
  guards : ∃ protectedScope handlers,
    t.regions[guarded]? = some (.guarded protectedScope handlers) ∧
      ⟨c.tryStart, c.tryEnd, protectedScope⟩ ∈ ranges
  handles : t.Handles guarded c ranges

private theorem MethodBody.Places.standsFor {b : MethodBody} {t : RegionTree}
    {gs : List PlacedGroup} {G : PlacedGroup} (h : b.Places t gs) (hG : G ∈ gs) {c : Clause}
    (hc : c ∈ G.clauses) (hguard : G.guard.span = c.guardedSpan) :
    t.StandsFor G.guarded c (gs.flatMap PlacedGroup.ranges) := by
  obtain ⟨hstart, hstop⟩ := Span.mk.inj hguard
  obtain ⟨p, handlers, hguarded, hprotected⟩ := (h.stands G hG).guards
  refine ⟨⟨p, handlers, hguarded, ?_⟩, ?_⟩
  · rw [← hstart, ← hstop]
    exact List.mem_flatMap_of_mem hG hprotected
  · exact ((h.stands G hG).handles c hc).mono fun r hr => List.mem_flatMap_of_mem hG hr

namespace ControlFlowGraph

variable {b : MethodBody} {g : ControlFlowGraph Instruction}

/-- Every block stands in the scopes of all ranges around its offset. -/
def Mirrors (g : ControlFlowGraph Instruction) (ranges : List ScopeRange) : Prop :=
  ∀ offset node, g.graph.vertex offset = .ok node →
    ∀ r ∈ ranges, r.span.Contains offset → g.regions.Within r.scope node.region

/-- The region tree of a graph has the groups of the method placed, and blocks in the narrowest
scopes. -/
theorem places_ofBody (hg : ofBody b = .ok g) :
    ∃ gs t, b.clauseRegions = .ok (gs.flatMap PlacedGroup.ranges, t) ∧ b.Places g.regions gs ∧
      ∀ offset node, g.graph.vertex offset = .ok node → node.region =
        (ScopeRange.narrowest (gs.flatMap PlacedGroup.ranges) ⟨offset, offset + 1⟩).scope := by
  obtain ⟨first, graph, -, -, -, hregions, -⟩ := ofBody_eq_ok hg
  have hsound := (MethodBody.regions_sound hregions).1
  obtain ⟨⟨ranges, t⟩, hclauses, hrest⟩ := bind_eq_ok hregions
  obtain ⟨t', hblocks, hsort⟩ := bind_eq_ok hrest
  have hsorted : t'.sortChildren = g.regions := Except.ok.inj hsort
  rcases b.clauseRegions_eq with ⟨gs, t₁, hok, hplaces⟩ | ⟨e, herror, -⟩
  · obtain ⟨rfl, rfl⟩ := Prod.mk.inj (Except.ok.inj (hclauses.symm.trans hok))
    obtain ⟨hextends, -, hplaced⟩ := RegionTree.foldlM_addBlock_get? hblocks
    have hlater := hplaces.toPlacement.later
      (hsorted ▸ hextends.trans t'.sortChildren_extends) hsound
    refine ⟨gs, t, hok, ⟨hlater, hplaces.groups⟩, fun offset node hnode => ?_⟩
    obtain ⟨block, hblock, rfl, -⟩ := (vertex_ofBody hg).mp hnode
    have hregion := (inScope_ofBody hg hnode).1
    unfold RegionTree.regionOf? at hregion
    rw [← hsorted, RegionTree.blocks_sortChildren, hplaced block hblock] at hregion
    exact (Option.some.inj hregion).symm
  · cases hclauses.symm.trans herror

/-- A block starts where the range of a clause does. -/
theorem vertex_of_mem_spans (hb : b.Ascending) (hsize : b.Sized)
    (hg : ofBody b = .ok g) {c : Clause} (hc : c ∈ b.clauses) {s : Span} (hs : s ∈ c.spans) :
    ∃ node, g.graph.vertex s.start = .ok node := by
  obtain ⟨hspan, hbounds⟩ := MethodBody.checkClause_eq_ok (checkClause_ofBody hg hc)
  obtain ⟨hstart, hstop⟩ := MethodBody.bounds_of_mem_spans hs
  have hle : s.stop ≤ b.endOffset := by
    rcases hbounds _ hstop with hoffset | heq
    · obtain ⟨i, hi, hoffset⟩ := MethodBody.isOffset_iff.mp hoffset
      exact hoffset ▸ (MethodBody.offset_lt_endOffset hb hsize hi).le
    · exact heq.le
  -- The range is not empty, so it does not start where the method ends.
  have hlt := hspan s hs
  have hoffset := (hbounds _ hstart).resolve_right (by omega)
  obtain ⟨i, hi, hoffset⟩ := MethodBody.isOffset_iff.mp hoffset
  obtain ⟨block, hblock, hhead⟩ := (MethodBody.head?_block_iff hb hsize hi).mpr
    (.bound hc (hoffset ▸ hstart))
  refine ⟨_, (vertex_ofBody hg).mpr ⟨block, hblock, ?_, rfl⟩⟩
  rw [MethodBody.offset_of_head? hblock hhead, hoffset]

/-- Let the ranges of each clause stand in the same ranges of other clauses.  Every clause has its
guarded region, handler and scopes.  Blocks stand in the scopes of all ranges around them, and
guarded regions in the scope of the smallest range around theirs, if the ranges of each group are
apart and no clause stands in a handler of one that is taken after it.  The blocks do so only
then. -/
theorem mirrors_iff_inOrder (hg : ofBody b = .ok g)
    (hbounds : ∀ c ∈ b.clauses, ∀ o ∈ MethodBody.clauseBounds c, o ≤ RegionTree.greatestOffset)
    (hcoherent : b.Coherent) :
    ∃ ranges t, b.clauseRegions = .ok (ranges, t) ∧
      (∀ c ∈ b.clauses, ∃ guarded, g.regions.StandsFor guarded c ranges ∧
        (b.SpansApart → b.InOrder →
          g.regions.ChildOfSmallest ranges guarded c.guardedSpan)) ∧
      (b.SpansApart → b.InOrder → g.Mirrors ranges) ∧
      (b.Ascending → b.Sized → g.Mirrors ranges → b.SpansApart ∧ b.InOrder) := by
  obtain ⟨gs, t, hok, hplaces, hnodes⟩ := places_ofBody hg
  have hnonempty : ∀ c ∈ b.clauses, ∀ s ∈ c.spans, s.start < s.stop := fun c hc =>
    (MethodBody.checkClause_eq_ok (checkClause_ofBody hg hc)).1
  have hlength : ∀ r ∈ gs.flatMap ranges, r.length ≤ whole.length := by
    intro r hr
    obtain ⟨G, hG, hr⟩ := List.mem_flatMap.mp hr
    obtain ⟨c, hc, -, hspan⟩ := hplaces.exists_clause hG hr
    have hstop := hbounds c hc _ (MethodBody.bounds_of_mem_spans hspan).2
    exact (Nat.sub_le _ _).trans hstop
  refine ⟨_, t, hok, fun c hc => ?_, fun hapart horder offset node hnode r hr hcontains => ?_,
    fun hb hsize hmirrors => ?_⟩
  · obtain ⟨G, hG, hguard, hmem⟩ := hplaces.exists_group hc
    refine ⟨G.guarded, hplaces.standsFor hG hmem hguard, fun hapart horder => ?_⟩
    obtain ⟨k, hk⟩ := List.getElem?_of_mem hG
    rw [← hguard]
    exact hplaces.childOfSmallest hcoherent hapart horder hnonempty hlength hk
  · have hwithin := hplaces.within_narrowest hcoherent hapart horder hnonempty hlength gs.length
      (q := ⟨offset, offset + 1⟩) (Nat.lt_succ_self _) (r := r) (by rwa [List.take_length])
      ⟨hcontains.1, hcontains.2⟩
    rwa [List.take_length, ← hnodes offset node hnode] at hwithin
  · have hcomparable : ∀ r ∈ gs.flatMap ranges, ∀ s ∈ gs.flatMap ranges,
        r.span.Meets s.span → g.regions.Within r.scope s.scope ∨
          g.regions.Within s.scope r.scope := by
      intro r hr s hs hmeets
      obtain ⟨G, hG, hrG⟩ := List.mem_flatMap.mp hr
      obtain ⟨H, hH, hsH⟩ := List.mem_flatMap.mp hs
      obtain ⟨c, hc, -, hrc⟩ := hplaces.exists_clause hG hrG
      obtain ⟨d, hd, -, hsd⟩ := hplaces.exists_clause hH hsH
      obtain ⟨hrmax, hsmax⟩ := hmeets.contains (hnonempty c hc _ hrc) (hnonempty d hd _ hsd)
      -- A block starts where the later of two overlapping ranges does, and it stands in both
      -- scopes.
      obtain ⟨node, hnode⟩ : ∃ node, g.graph.vertex (max r.span.start s.span.start) = .ok node := by
        rcases max_choice r.span.start s.span.start with hmax | hmax
        · rw [hmax]
          exact vertex_of_mem_spans hb hsize hg hc hrc
        · rw [hmax]
          exact vertex_of_mem_spans hb hsize hg hd hsd
      exact (hmirrors _ node hnode r hr hrmax).total (hmirrors _ node hnode s hs hsmax)
    exact ⟨hplaces.spansApart hcomparable, hplaces.inOrder hnonempty hcomparable hcoherent⟩

/-- A guarded range in the handler of another. -/
def nestedInHandler : MethodBody :=
  idle 12 [⟨.finalizes, 0, 2, 4, 10⟩, ⟨.finalizes, 5, 6, 7, 8⟩]

theorem mirrors_iff_inOrder_nestedInHandler :
    nestedInHandler.Coherent ∧ ∃ g ranges t, ofBody nestedInHandler = .ok g ∧
      nestedInHandler.clauseRegions = .ok (ranges, t) ∧ g.Mirrors ranges := by
  obtain ⟨g, hg, -⟩ := exists_of_map_eq_ok (r := ofBody nestedInHandler) (f := fun _ => ())
    (y := ()) (by decide +kernel)
  obtain ⟨ranges, t, hranges, -, hmirrors, -⟩ :=
    mirrors_iff_inOrder hg (by decide) (by decide)
  exact ⟨by decide, g, ranges, t, hg, hranges, hmirrors (by decide) (by decide)⟩

/-- The same with the outer handler before the range that it guards. -/
def handlerFirst : MethodBody := idle 12 [⟨.finalizes, 8, 10, 0, 6⟩, ⟨.finalizes, 2, 3, 3, 4⟩]

/-- A clause in a handler that comes before its guarded range is not in the regions of it: the block
at 3 stands in the handler from 0 to 6, whose scope has a greater number than that of the block. -/
theorem not_mirrors_handlerFirst :
    (∀ c ∈ handlerFirst.clauses, ∀ d ∈ handlerFirst.clauses, ∀ r ∈ c.spans, ∀ s ∈ d.spans,
      r.Nests s) ∧ handlerFirst.Coherent ∧
    ∃ g ranges t, ofBody handlerFirst = .ok g ∧ handlerFirst.clauseRegions = .ok (ranges, t) ∧
      ¬ g.Mirrors ranges := by
  obtain ⟨g, hg, hregion⟩ := exists_of_map_eq_ok (r := ofBody handlerFirst)
    (f := fun g => (g.graph.vertex 3).toOption.map FlowNode.region) (y := some 4)
    (by decide +kernel)
  obtain ⟨⟨ranges, t⟩, hranges, rfl⟩ := exists_of_map_eq_ok (r := handlerFirst.clauseRegions)
    (f := Prod.fst) (y := [⟨2, 3, 2⟩, ⟨3, 4, 4⟩, ⟨8, 10, 6⟩, ⟨0, 6, 8⟩]) (by decide +kernel)
  refine ⟨by decide, by decide, g, _, t, hg, hranges, fun hmirrors => ?_⟩
  cases hnode : g.graph.vertex 3 with
  | error e =>
      rw [hnode] at hregion
      exact nomatch hregion
  | ok node =>
      rw [hnode] at hregion
      have hle := (hmirrors 3 node hnode ⟨0, 6, 8⟩ (by simp) (by decide)).le (regions_ofBody hg).1
      rw [Option.some.inj hregion] at hle
      exact absurd hle (by decide)

end ControlFlowGraph

end CilAnalysis
