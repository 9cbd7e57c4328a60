import CilAnalysis.Proofs.ControlFlow.Partition
import CilAnalysis.Proofs.ControlFlow.Placement

/-!
# Overlapping ranges

A method is refused if its clauses have ranges that cross and the guarded ranges of these clauses
differ (`ControlFlowGraph.overlap_across_groups_rejected`).  Ranges of clauses with the same guarded
range are never compared, those of one clause among them: a handler may reach into the range that it
guards (`ControlFlowGraph.ofBody_handlerInGuard`).

## Strategy

Both directions come from what is known once the regions of the clauses have been made
(`MethodBody.clauseRegions_eq`): either all groups are placed, or there is an error that names two
ranges which cross.

* If all groups are placed, the ranges of two groups nest, because the later group was compared with
  the earlier one.  Clauses with different guarded ranges are in different groups, so this covers
  all pairs in question (`MethodBody.Places.nestsAcross`); which of the two groups came first does
  not matter, since nesting is symmetric.
* A method that passes the other checks and has ranges that cross cannot have its groups placed, so
  it gets the error.

The first part of the module says what a clause that passed its check looks like
(`MethodBody.checkClause_eq_ok`), which the modules on reachability and on the nesting of regions
use too.
-/

namespace CilAnalysis

namespace MethodBody

variable {b : MethodBody} {c : Clause} {s : Span}

/-! ## Clauses that were checked -/

theorem isOffset_iff {offset : Nat} :
    b.isOffset offset = true ↔ ∃ i ∈ b.instructions, i.offset = offset := by
  simp [isOffset]

theorem bounds_of_mem_spans (hs : s ∈ c.spans) :
    s.start ∈ clauseBounds c ∧ s.stop ∈ clauseBounds c := by
  rcases Clause.mem_spans.mp hs with rfl | ⟨start, hstart, rfl⟩ | rfl
  · simp [clauseBounds]
  · simp [clauseBounds, hstart]
  · simp [clauseBounds]

/-- The ranges of a clause that was not refused have offsets in them, and start and stop at
instructions or at the end of the method. -/
theorem checkClause_eq_ok (h : b.checkClause c = .ok ()) :
    (∀ s ∈ c.spans, s.start < s.stop) ∧
      ∀ o ∈ clauseBounds c, b.isOffset o = true ∨ o = b.endOffset := by
  unfold checkClause at h
  split at h
  next => exact nomatch h
  next hbounds =>
    split at h
    next => exact nomatch h
    next hnonempty =>
      split at h
      next => exact nomatch h
      next hfilter =>
        refine ⟨fun s hs => ?_, fun o ho => ?_⟩
        · rcases Clause.mem_spans.mp hs with rfl | ⟨start, hstart, rfl⟩ | rfl
          · dsimp only
            omega
          · rw [hstart, Option.any_some, decide_eq_true_eq] at hfilter
            exact Nat.lt_of_not_le hfilter
          · dsimp only
            omega
        · have hbound := List.find?_eq_none.mp hbounds o ho
          rw [Bool.not_eq_true, Bool.not_eq_false', Bool.or_eq_true, beq_iff_eq] at hbound
          exact hbound

/-- The ranges of clauses with different guarded ranges are disjoint, or one lies in the other. -/
def NestsAcross (b : MethodBody) : Prop :=
  ∀ c ∈ b.clauses, ∀ d ∈ b.clauses, c.guardedSpan ≠ d.guardedSpan →
    ∀ r ∈ c.spans, ∀ s ∈ d.spans, r.Nests s

instance (b : MethodBody) : Decidable b.NestsAcross :=
  inferInstanceAs
    (Decidable (∀ c ∈ b.clauses, ∀ d ∈ b.clauses, _ → ∀ r ∈ c.spans, ∀ s ∈ d.spans, _))

private theorem Places.nestsAcross {t : RegionTree} {gs : List PlacedGroup} (h : b.Places t gs) :
    b.NestsAcross := by
  intro c hc d hd hguards r hr s hs
  obtain ⟨G, hG, hguard, -⟩ := h.exists_group hc
  obtain ⟨H, hH, hguard', -⟩ := h.exists_group hd
  obtain ⟨x, hx, rfl⟩ := h.exists_range hG hc hguard.symm hr
  obtain ⟨y, hy, rfl⟩ := h.exists_range hH hd hguard'.symm hs
  obtain ⟨i, hi⟩ := List.getElem?_of_mem hG
  obtain ⟨j, hj⟩ := List.getElem?_of_mem hH
  -- The later of the two groups was compared with the earlier one.
  rcases Nat.lt_trichotomy i j with hlt | rfl | hgt
  · exact (rel_of_lt h.nested hi hj hlt x hx).2 y hy
  · obtain rfl := Option.some.inj (hi.symm.trans hj)
    exact absurd (hguard.symm.trans hguard') hguards
  · exact ((rel_of_lt h.nested hj hi hgt y hy).2 x hx).symm

end MethodBody

namespace ControlFlowGraph

/-- A method with a graph has no ranges that cross among clauses of different guarded ranges, and
one that is otherwise in order but has such ranges is refused for two of them. -/
theorem overlap_across_groups_rejected (b : MethodBody) :
    (∀ g, ofBody b = .ok g → b.NestsAcross) ∧
      (b.instructions ≠ [] → b.checkTargets = .ok () → b.clauses.forM b.checkClause = .ok () →
        ¬ b.NestsAcross → ∃ e, ofBody b = .error e ∧ b.Crossed e) := by
  constructor
  · intro g hg
    obtain ⟨first, graph, -, -, -, hregions, -⟩ := ofBody_eq_ok hg
    obtain ⟨⟨ranges, t⟩, hclauses, -⟩ := bind_eq_ok hregions
    rcases b.clauseRegions_eq with ⟨gs, t', -, hplaces⟩ | ⟨e, herror, -⟩
    · exact hplaces.nestsAcross
    · cases hclauses.symm.trans herror
  · intro hne htargets hchecks hcross
    obtain ⟨first, rest, hfirst⟩ := List.exists_cons_of_ne_nil hne
    rcases b.clauseRegions_eq with ⟨gs, t', -, hplaces⟩ | ⟨e, herror, hcrossed⟩
    · exact absurd hplaces.nestsAcross hcross
    · refine ⟨e, ?_, hcrossed⟩
      rw [ofBody_eq_bind (by rw [hfirst]; rfl), htargets, hchecks]
      unfold MethodBody.regions
      rw [herror]
      rfl

/-- A method that does nothing in a number of instructions, with clauses. -/
def idle (count : Nat) (clauses : List Clause) : MethodBody where
  instructions := (List.range count).map (⟨·, .nop, .none, 1⟩) ++ [⟨count, .ret, .none, 1⟩]
  clauses := clauses

/-- Two guarded ranges that cross. -/
def crossingGuards : MethodBody := idle 12 [⟨.finalizes, 0, 4, 8, 10⟩, ⟨.finalizes, 2, 6, 10, 12⟩]

theorem overlap_across_groups_rejected_crossingGuards :
    (∃ e, ofBody crossingGuards = .error e ∧ crossingGuards.Crossed e) ∧
      filteredSwitch.NestsAcross := by
  obtain ⟨g, hg, -⟩ := exists_of_map_eq_ok (r := ofBody filteredSwitch) (f := fun _ => ()) (y := ())
    (by decide +kernel)
  exact ⟨(overlap_across_groups_rejected crossingGuards).2 (by decide) (by decide +kernel)
      (by decide +kernel) (by decide),
    (overlap_across_groups_rejected filteredSwitch).1 g hg⟩

/-- A handler that reaches into the range it guards. -/
def handlerInGuard : MethodBody := idle 8 [⟨.finalizes, 0, 4, 2, 6⟩]

/-- Ranges of one clause may cross. -/
theorem ofBody_handlerInGuard :
    (∃ g, ofBody handlerInGuard = .ok g) ∧
      ∃ c ∈ handlerInGuard.clauses, ∃ r ∈ c.spans, ∃ s ∈ c.spans, ¬ r.Nests s := by
  obtain ⟨g, hg, -⟩ := exists_of_map_eq_ok (r := ofBody handlerInGuard) (f := fun _ => ()) (y := ())
    (by decide +kernel)
  exact ⟨⟨g, hg⟩, by decide⟩

end ControlFlowGraph

end CilAnalysis
