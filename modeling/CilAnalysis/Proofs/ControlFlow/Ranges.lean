import CilAnalysis.ControlFlow.Build
import CilAnalysis.Proofs.Result
import CilAnalysis.Proofs.SortedMap

/-!
# The ranges of exception clauses

A clause has a guarded range, the range of its handler and, for a filter, that of the prologue.  The
clauses are taken in groups, one for each guarded range: a range that starts earlier comes first,
and of those that start together the longer one.

This module says what the three computations on ranges give, in terms of spans of offsets:

* `ScopeRange.checkNested_eq`: a range is refused if it crosses one of those before it, and the
  error names where the two start;
* `ScopeRange.narrowest_spec`: the search for a scope gives a least range around a span, and the
  last made among those;
* `MethodBody.mem_clauseGroups` and `MethodBody.clauseGroups_ordered`: there is a group for each
  guarded range with its clauses in their order, and the groups are taken in the order of
  `Span.Before`.

## Strategy

Both searches are folds.  The search for the narrowest range is a fold from the left in which a
later range replaces an equal one, so its lemma goes by induction from the end of the list: the last
range is the one to be compared with the best of those before.

The groups are collected in a map whose entries grow at the end.  The induction is on the clauses
still to come and is stated for any groups there are already (`get?_foldl_insert`): what is found
under a range is what was there, followed by the clauses with that range.
-/

namespace CilAnalysis

/-- The offsets from a first one on and before a last one. -/
structure Span where
  start : Nat
  stop : Nat
  deriving DecidableEq

namespace Span

/-- Whether an offset lies in a span. -/
def Contains (r : Span) (offset : Nat) : Prop := r.start ≤ offset ∧ offset < r.stop

/-- Whether another span lies in this one. -/
def Covers (r s : Span) : Prop := r.start ≤ s.start ∧ s.stop ≤ r.stop

/-- Whether two spans overlap. -/
def Meets (r s : Span) : Prop := r.start < s.stop ∧ s.start < r.stop

/-- Two spans are disjoint, or one lies in the other. -/
def Nests (r s : Span) : Prop := ¬ r.Meets s ∨ r.Covers s ∨ s.Covers r

/-- Whether this one is taken first: it starts earlier, or it is the longer one of two that start
together. -/
def Before (r s : Span) : Prop := r.start < s.start ∨ r.start = s.start ∧ s.stop < r.stop

instance (r : Span) (offset : Nat) : Decidable (r.Contains offset) :=
  inferInstanceAs (Decidable (_ ∧ _))

instance (r s : Span) : Decidable (r.Covers s) := inferInstanceAs (Decidable (_ ∧ _))

instance (r s : Span) : Decidable (r.Meets s) := inferInstanceAs (Decidable (_ ∧ _))

instance (r s : Span) : Decidable (r.Nests s) := inferInstanceAs (Decidable (_ ∨ _))

instance (r s : Span) : Decidable (r.Before s) := inferInstanceAs (Decidable (_ ∨ _))

variable {r s : Span}

theorem Meets.symm (h : r.Meets s) : s.Meets r := ⟨h.2, h.1⟩

theorem Nests.symm (h : r.Nests s) : s.Nests r := by
  rcases h with hdisjoint | hcovers | hcovers
  · exact .inl fun hmeets => hdisjoint hmeets.symm
  · exact .inr (.inr hcovers)
  · exact .inr (.inl hcovers)

/-- Spans with offsets in them overlap where they have one in common: where the later one starts. -/
theorem Meets.contains (h : r.Meets s) (hr : r.start < r.stop) (hs : s.start < s.stop) :
    r.Contains (max r.start s.start) ∧ s.Contains (max r.start s.start) := by
  unfold Meets at h
  unfold Contains
  omega

theorem Covers.meets (h : r.Covers s) (hs : s.start < s.stop) : r.Meets s := by
  unfold Covers at h
  unfold Meets
  omega

theorem Before.ne (h : r.Before s) : r ≠ s := by
  rintro rfl
  unfold Before at h
  omega

end Span

namespace ScopeRange

/-- The offsets of a range. -/
def span (r : ScopeRange) : Span := ⟨r.start, r.stop⟩

theorem covers_iff {r : ScopeRange} {s : Span} :
    r.covers s.start s.stop = true ↔ r.span.Covers s := by
  simp [covers, span, Span.Covers]

private theorem crosses_iff {r : ScopeRange} {s : Span} :
    r.crosses s.start s.stop = true ↔ ¬ r.span.Nests s := by
  simp only [crosses, covers, span, Span.Nests, Span.Meets, Span.Covers, Bool.and_eq_true,
    Bool.not_eq_true', Bool.and_eq_false_imp, decide_eq_true_eq, decide_eq_false_iff_not]
  omega

/-- A range is refused if it crosses one of the others. -/
theorem checkNested_eq (ranges : List ScopeRange) (s : Span) :
    checkNested ranges s.start s.stop = .ok () ∧ (∀ r ∈ ranges, r.span.Nests s) ∨
      ∃ r ∈ ranges, ¬ r.span.Nests s ∧
        checkNested ranges s.start s.stop = .error (.overlappingRegions r.start s.start) := by
  unfold checkNested
  cases hfind : ranges.find? fun r => r.crosses s.start s.stop with
  | none =>
      refine .inl ⟨rfl, fun r hr => ?_⟩
      by_contra hcross
      exact List.find?_eq_none.mp hfind r hr (crosses_iff.mpr hcross)
  | some r =>
      refine .inr ⟨r, List.mem_of_find?_eq_some hfind, ?_, rfl⟩
      have hcross : r.crosses s.start s.stop = true := by simpa using List.find?_some hfind
      exact crosses_iff.mp hcross

/-! ## The narrowest range -/

/-- The smallest range that covers a span; of two that are equal the later one. -/
def narrowest (ranges : List ScopeRange) (s : Span) : ScopeRange :=
  ranges.foldl
    (fun best r => if r.covers s.start s.stop && r.length ≤ best.length then r else best) whole

/-- Among ranges whose scopes are numbered in their order, the narrowest that covers a span is the
least by length, and the last of those. -/
theorem narrowest_spec {ranges : List ScopeRange} {s : Span}
    (hlength : ∀ r ∈ ranges, r.length ≤ whole.length)
    (hscopes : (ranges.map scope).Pairwise (· < ·)) :
    (narrowest ranges s = whole ∧ ∀ r ∈ ranges, ¬ r.span.Covers s) ∨
      narrowest ranges s ∈ ranges ∧ (narrowest ranges s).span.Covers s ∧
        ∀ r ∈ ranges, r.span.Covers s → (narrowest ranges s).length < r.length ∨
          (narrowest ranges s).length = r.length ∧ r.scope ≤ (narrowest ranges s).scope := by
  induction ranges using List.reverseRecOn with
  | nil => exact .inl ⟨rfl, fun r hr => absurd hr List.not_mem_nil⟩
  | append_singleton ranges x ih =>
      rw [List.map_append, List.pairwise_append] at hscopes
      obtain ⟨hscopes, -, hlast⟩ := hscopes
      have hlast : ∀ r ∈ ranges, r.scope < x.scope := fun r hr =>
        hlast _ (List.mem_map_of_mem hr) _ (List.mem_map_of_mem List.mem_cons_self)
      have hstep : narrowest (ranges ++ [x]) s =
          if x.covers s.start s.stop && x.length ≤ (narrowest ranges s).length then x
          else narrowest ranges s := by
        unfold narrowest
        rw [List.foldl_append]
        rfl
      specialize ih (fun r hr => hlength r (List.mem_append_left _ hr)) hscopes
      rw [hstep, List.forall_mem_append, List.forall_mem_singleton, List.forall_mem_append,
        List.forall_mem_singleton, List.mem_append, List.mem_singleton]
      split
      next htaken =>
        -- The new range covers the span and is as short as the one found so far.
        rw [Bool.and_eq_true, covers_iff, decide_eq_true_eq] at htaken
        refine .inr ⟨.inr rfl, htaken.1, fun r hr hcovers => ?_, fun _ => .inr ⟨rfl, le_rfl⟩⟩
        rcases ih with ⟨-, hnone⟩ | ⟨-, -, hleast⟩
        · exact absurd hcovers (hnone r hr)
        · have hless := hleast r hr hcovers
          have hlater := hlast r hr
          omega
      next hkept =>
        rw [Bool.and_eq_true, covers_iff, decide_eq_true_eq] at hkept
        have hlong : x.span.Covers s → (narrowest ranges s).length < x.length := fun hcovers =>
          Nat.lt_of_not_le fun hle => hkept ⟨hcovers, hle⟩
        -- The new range covers the span only if it is longer than the one found so far.
        rcases ih with ⟨hwhole, hnone⟩ | ⟨hmem, hcovers, hleast⟩
        · refine .inl ⟨hwhole, hnone, fun hcovers => ?_⟩
          have hlong := hlong hcovers
          have hshort := hlength x (List.mem_append_right _ List.mem_cons_self)
          rw [hwhole] at hlong
          omega
        · exact .inr ⟨.inl hmem, hcovers, hleast, fun hcovers => .inl (hlong hcovers)⟩

end ScopeRange

/-! ## Groups of clauses -/

namespace GuardedRange

/-- The offsets of a range. -/
def span (r : GuardedRange) : Span := ⟨r.start, r.stop⟩

private theorem compare_eq (r s : GuardedRange) :
    compare r s = (compare r.start s.start).then (compare r.earliness s.earliness) := rfl

instance : Std.LawfulEqOrd GuardedRange where
  compare_self := Std.ReflCmp.compare_self
  eq_of_compare := by
    rintro ⟨a, b⟩ ⟨c, d⟩ h
    rw [compare_eq, Ordering.then_eq_eq, Nat.compare_eq_eq, Int.compare_eq_eq] at h
    obtain ⟨rfl, hstop⟩ := h
    obtain rfl : b = d := Int.ofNat_inj.mp (neg_inj.mp hstop)
    rfl

theorem compare_eq_lt {r s : GuardedRange} : compare r s = .lt ↔ r.span.Before s.span := by
  rw [compare_eq, Ordering.then_eq_lt, Nat.compare_eq_lt, Nat.compare_eq_eq, Int.compare_eq_lt]
  unfold earliness Span.Before span
  dsimp only
  omega

end GuardedRange

namespace Clause

/-- The range in which exceptions are handled. -/
def guardedSpan (c : Clause) : Span := ⟨c.tryStart, c.tryEnd⟩

/-- The range of the filter, if there is one, and that of the handler. -/
def handlerSpans (c : Clause) : List Span :=
  (c.filterStart?.map fun start => ⟨start, c.handlerStart⟩).toList ++
    [⟨c.handlerStart, c.handlerEnd⟩]

/-- The ranges of a clause. -/
def spans (c : Clause) : List Span := c.guardedSpan :: c.handlerSpans

theorem guardedSpan_mem_spans (c : Clause) : c.guardedSpan ∈ c.spans := List.mem_cons_self

theorem mem_spans {c : Clause} {s : Span} :
    s ∈ c.spans ↔ s = ⟨c.tryStart, c.tryEnd⟩ ∨
      (∃ start, c.filterStart? = some start ∧ s = ⟨start, c.handlerStart⟩) ∨
        s = ⟨c.handlerStart, c.handlerEnd⟩ := by
  simp [spans, handlerSpans, guardedSpan, eq_comm]

end Clause

namespace MethodBody

variable {b : MethodBody}

/-- The clauses of a method with a guarded range. -/
def clausesOf (b : MethodBody) (r : Span) : List Clause :=
  b.clauses.filter fun c => c.guardedSpan = r

theorem mem_clausesOf {r : Span} {c : Clause} :
    c ∈ b.clausesOf r ↔ c ∈ b.clauses ∧ c.guardedSpan = r := by
  simp [clausesOf]

private theorem get?_foldl_insert (l : List Clause)
    {groups : SortedMap GuardedRange (List Clause)}
    (hgroups : ∀ r group, groups.get? r = some group → group ≠ []) {r : GuardedRange}
    {group : List Clause} :
    (l.foldl (fun groups c =>
        groups.insert ⟨c.tryStart, c.tryEnd⟩
          ((groups.get? ⟨c.tryStart, c.tryEnd⟩).getD [] ++ [c])) groups).get? r = some group ↔
      group = (groups.get? r).getD [] ++ l.filter (fun c => c.guardedSpan = r.span) ∧
        group ≠ [] := by
  induction l generalizing groups with
  | nil =>
      rw [List.foldl_nil, List.filter_nil, List.append_nil]
      cases hget : groups.get? r with
      | none => simp
      | some old =>
          have hold := hgroups r old hget
          simp only [Option.some.injEq, Option.getD_some]
          constructor
          · rintro rfl
            exact ⟨rfl, hold⟩
          · exact fun h => h.1.symm
  | cons c rest ih =>
      rw [List.foldl_cons, ih]
      · -- The clause goes to the group under its own range and to no other.
        have hkey : c.guardedSpan = r.span ↔ r = ⟨c.tryStart, c.tryEnd⟩ := by
          obtain ⟨a, b⟩ := r
          simp only [Clause.guardedSpan, GuardedRange.span, Span.mk.injEq,
            GuardedRange.mk.injEq, eq_comm]
        rw [SortedMap.get?_insert, List.filter_cons]
        by_cases hr : r = ⟨c.tryStart, c.tryEnd⟩
        · subst hr
          simp [Clause.guardedSpan, GuardedRange.span]
        · rw [if_neg hr, if_neg (by simpa [hkey] using hr)]
      · intro r' group' hget
        rw [SortedMap.get?_insert] at hget
        split at hget
        next =>
          obtain rfl := Option.some.inj hget
          simp
        next => exact hgroups r' group' hget

/-- There is a group for each guarded range, which has its clauses in their order. -/
theorem mem_clauseGroups {r : GuardedRange} {group : List Clause} :
    (r, group) ∈ b.clauseGroups.entries ↔ group = b.clausesOf r.span ∧ group ≠ [] :=
  calc (r, group) ∈ b.clauseGroups.entries
      ↔ b.clauseGroups.get? r = some group := SortedMap.get?_eq_some_iff.symm
    _ ↔ group = b.clausesOf r.span ∧ group ≠ [] :=
        get?_foldl_insert b.clauses fun r group h => by simp at h

/-- The groups are taken in the order of their ranges. -/
theorem clauseGroups_ordered (b : MethodBody) :
    b.clauseGroups.entries.Pairwise fun e e' => e.1.span.Before e'.1.span :=
  b.clauseGroups.sorted.imp GuardedRange.compare_eq_lt.mp

end MethodBody

end CilAnalysis
