import CilAnalysis.Proofs.DataFlow.Fixpoint

/-!
# The collection of sources ends

Left to itself the loop over the queue ends, with an empty queue or an error, because every
iteration lowers the potential (`FlowProgress.Valid.exists_runs`).  The number of visits that
`DataFlowGraph.ofBody` allows is never what stops it (`DataFlowGraph.ofBody_terminates`).

## Strategy

The loop that makes the graph counts its visits down, so that it ends by definition.  What has to be
shown is that the count does not matter.  So the loop is stated once more without a count, as the
relation `FlowProblem.Runs`, whose derivations are runs that end by themselves: with an empty queue,
or with a visit that fails.

* A run that ends after some iterations is what the loop with a count computes, if the count is not
  smaller (`FlowProblem.Runs.visitAll_eq`).
* Every state that the loop comes to satisfies the invariant, and from such a state there is a run
  that ends, with no more iterations than the potential (`FlowProgress.Valid.exists_runs`, by
  induction on the potential).
* At the start the potential is at most the number of visits that are allowed.
-/

namespace CilAnalysis

namespace FlowProblem

variable {p : FlowProblem} {x y : FlowProgress}

/-- One iteration of the loop: the first queued instruction is taken from the queue and visited.
There is none once the queue is empty. -/
def iterate? (p : FlowProblem) (x : FlowProgress) : Option (Except Error FlowProgress) :=
  x.queue.first?.map fun e => p.visit (x.dequeue e.1) e.1

/-- An iteration that does not fail. -/
def Steps (p : FlowProblem) (x y : FlowProgress) : Prop := p.iterate? x = some (.ok y)

/-- The loop goes on while there is something in the queue and no visit fails.  It has come to its
end after a number of iterations, with a result. -/
inductive Runs (p : FlowProblem) : FlowProgress → Nat → Except Error FlowProgress → Prop where
  | rest {x : FlowProgress} (h : p.iterate? x = none) : Runs p x 0 (.ok x)
  | fail {x : FlowProgress} {e : Error} (h : p.iterate? x = some (.error e)) :
      Runs p x 1 (.error e)
  | next {x y : FlowProgress} {iterations : Nat} {r : Except Error FlowProgress}
      (h : p.Steps x y) (later : Runs p y iterations r) :
      Runs p x (iterations + 1) r

private theorem visitAll_succ (p : FlowProblem) (visits : Nat) (x : FlowProgress) :
    p.visitAll (visits + 1) x = (p.iterate? x).elim (.ok x) (· >>= p.visitAll visits) := by
  rw [visitAll, iterate?]
  cases x.queue.first? with
  | none => rfl
  | some e =>
      dsimp only [Option.map_some, Option.elim_some, FlowProgress.dequeue]
      cases p.visit { x with queue := x.queue.erase e.1 } e.1 with
      | ok y => rfl
      | error e => rfl

/-- As many visits as the loop makes, or more, lead to its result. -/
theorem Runs.visitAll_eq {iterations : Nat} {r : Except Error FlowProgress}
    (h : p.Runs x iterations r) {visits : Nat} (hvisits : iterations ≤ visits) :
    p.visitAll visits x = r := by
  induction h generalizing visits with
  | rest h =>
      cases visits with
      | zero => rfl
      | succ visits =>
          rw [visitAll_succ, h]
          rfl
  | fail h =>
      cases visits with
      | zero => exact absurd hvisits (Nat.not_succ_le_zero 0)
      | succ visits =>
          rw [visitAll_succ, h]
          rfl
  | next h _ ih =>
      cases visits with
      | zero => exact absurd hvisits (Nat.not_succ_le_zero _)
      | succ visits =>
          rw [visitAll_succ, h]
          exact ih (Nat.le_of_succ_le_succ hvisits)

/-- A loop that has an end cannot go on for ever. -/
theorem Runs.not_forever {iterations : Nat} {r : Except Error FlowProgress}
    (h : p.Runs x iterations r) (xs : Nat → FlowProgress) (hstart : xs 0 = x) :
    ¬ ∀ k, p.Steps (xs k) (xs (k + 1)) := by
  intro hsteps
  induction h generalizing xs with
  | rest h =>
      subst hstart
      exact absurd ((hsteps 0).symm.trans h) (Option.some_ne_none _)
  | fail h =>
      subst hstart
      cases (hsteps 0).symm.trans h
  | next h _ ih =>
      subst hstart
      have hsame := Option.some.inj ((hsteps 0).symm.trans h)
      exact ih (fun k => xs (k + 1)) (Except.ok.inj hsame) fun k => hsteps (k + 1)

end FlowProblem

namespace FlowProgress

variable {b : MethodBody} {graph : Nat} {x₀ x y : FlowProgress}

/-- An iteration lowers the potential: what it queues again has gained a fact. -/
theorem Valid.step (hb : b.Ascending) (hx : Valid b graph x₀ x)
    (hentries : HasEntries b b.clauses x₀) (hstep : (FlowProblem.ofBody graph b).Steps x y) :
    Valid b graph x₀ y ∧ potential b y < potential b x := by
  obtain ⟨e, hfirst, hvisit⟩ := Option.map_eq_some_iff.mp hstep
  exact hx.visit hb hentries (SortedMap.mem_of_first? hfirst) hvisit

theorem Valid.steps (hb : b.Ascending) (hx : Valid b graph x₀ x)
    (hentries : HasEntries b b.clauses x₀)
    (hsteps : Relation.ReflTransGen (FlowProblem.ofBody graph b).Steps x y) :
    Valid b graph x₀ y := by
  induction hsteps with
  | refl => exact hx
  | tail _ hstep ih => exact (ih.step hb hentries hstep).1

/-- The potential bounds the number of iterations. -/
theorem Valid.exists_runs (hb : b.Ascending) (hx : Valid b graph x₀ x)
    (hentries : HasEntries b b.clauses x₀) :
    ∃ iterations r, iterations ≤ potential b x ∧
      (FlowProblem.ofBody graph b).Runs x iterations r := by
  induction hpotential : potential b x using Nat.strong_induction_on generalizing x with
  | _ bound ih =>
      subst hpotential
      -- An iteration that fails has spent the place it took from the queue, and one that succeeds
      -- has lowered the potential.
      cases hstep : (FlowProblem.ofBody graph b).iterate? x with
      | none => exact ⟨0, .ok x, Nat.zero_le _, .rest hstep⟩
      | some outcome =>
          cases outcome with
          | error e =>
              obtain ⟨e', hfirst, -⟩ := Option.map_eq_some_iff.mp hstep
              have hspent := potential_dequeue (b := b) (SortedMap.mem_of_first? hfirst)
              exact ⟨1, .error e, by omega, .fail hstep⟩
          | ok y =>
              obtain ⟨hy, hless⟩ := hx.step hb hentries hstep
              obtain ⟨iterations, r, hle, hruns⟩ := ih _ hless hy rfl
              exact ⟨iterations + 1, r, by omega, .next hstep hruns⟩

end FlowProgress

namespace DataFlowGraph

/-- The collection of sources ends for every method whose offsets ascend, whatever its branches and
clauses are.  A method without instructions is refused, as is one with a clause whose handler starts
nowhere.  Otherwise the loop over the queue ends by itself after a bounded number of iterations, and
the result is the graph of the nodes found then or the error of the visit that failed.  Every
iteration lowers the number of queued instructions and of the facts that may still be gained, so
that they cannot go on for ever. -/
theorem ofBody_terminates {b : MethodBody} (hb : b.Ascending) (id : Nat) :
    (b.instructions = [] → ofBody b id = .error .emptyMethodBody) ∧
      (b.instructions ≠ [] →
        (∀ e, (FlowProblem.ofBody id b).start = .error e → ofBody b id = .error e) ∧
        ∀ x₀, (FlowProblem.ofBody id b).start = .ok x₀ →
          (∃ iterations r, iterations ≤ (FlowProblem.ofBody id b).visitBound ∧
            (FlowProblem.ofBody id b).Runs x₀ iterations r ∧
            ofBody b id = r.map fun x => ⟨id, x.nodes⟩) ∧
          (∀ x y, Relation.ReflTransGen (FlowProblem.ofBody id b).Steps x₀ x →
            (FlowProblem.ofBody id b).Steps x y →
            FlowProgress.potential b y < FlowProgress.potential b x) ∧
          ∀ xs : Nat → FlowProgress, xs 0 = x₀ →
            ¬ ∀ k, (FlowProblem.ofBody id b).Steps (xs k) (xs (k + 1))) := by
  refine ⟨?_, fun hnonempty => ⟨?_, ?_⟩⟩
  · intro hempty
    unfold ofBody
    rw [if_pos (List.isEmpty_iff.mpr hempty)]
    rfl
  all_goals
    have hbody : ofBody b id = (FlowProblem.ofBody id b).start >>= fun x₀ =>
        (FlowProblem.ofBody id b).visitAll (FlowProblem.ofBody id b).visitBound x₀ >>= fun x =>
          .ok ⟨id, x.nodes⟩ := by
      unfold ofBody
      rw [if_neg fun hempty => hnonempty (List.isEmpty_iff.mp hempty)]
      rfl
  · intro e hstart
    rw [hbody, hstart]
    rfl
  · intro x₀ hstart
    have hentered := FlowProblem.entered_start hb hstart
    have hvalid : FlowProgress.Valid b id x₀ x₀ := hentered.valid hnonempty
    obtain ⟨iterations, r, hle, hruns⟩ := hvalid.exists_runs hb hentered.entries
    have hbound : iterations ≤ (FlowProblem.ofBody id b).visitBound :=
      hle.trans hentered.potential_le
    refine ⟨⟨iterations, r, hbound, hruns, ?_⟩, ?_, hruns.not_forever⟩
    · calc ofBody b id
          = (FlowProblem.ofBody id b).visitAll (FlowProblem.ofBody id b).visitBound x₀ >>=
              fun x => .ok ⟨id, x.nodes⟩ := by
            rw [hbody, hstart]
            rfl
        _ = r >>= fun x => .ok ⟨id, x.nodes⟩ := by rw [hruns.visitAll_eq hbound]
        _ = r.map fun x => ⟨id, x.nodes⟩ := by cases r <;> rfl
    · intro x y hsteps hstep
      exact ((hvalid.steps hb hentered.entries hsteps).step hb hentered.entries hstep).2

/-- A method that stores to a variable in a loop, guarded by a clause that also guards its own
handler, in which there is another loop. -/
def selfGuarded : MethodBody where
  instructions :=
    [⟨0, .ldc_i4_1, .none, 1⟩, ⟨1, .stloc_0, .none, 1⟩, ⟨2, .ldloc_0, .none, 1⟩,
      ⟨3, .brtrue_s, .target 0, 2⟩, ⟨5, .leave_s, .target 12, 2⟩, ⟨7, .pop, .none, 1⟩,
      ⟨8, .ldloc_0, .none, 1⟩, ⟨9, .stloc_0, .none, 1⟩, ⟨10, .br_s, .target 8, 2⟩,
      ⟨12, .ret, .none, 1⟩]
  clauses := [⟨.filters 7, 0, 12, 7, 12⟩]
  locals := [.int32]

/-- The loop makes more iterations than there are instructions, and ends. -/
theorem ofBody_terminates_selfGuarded :
    selfGuarded.Ascending ∧ ∃ x₀ x iterations,
      (FlowProblem.ofBody 0 selfGuarded).start = .ok x₀ ∧
      selfGuarded.instructions.length < iterations ∧ iterations ≤ 9313 ∧
      (FlowProblem.ofBody 0 selfGuarded).Runs x₀ iterations (.ok x) ∧
      ofBody selfGuarded = .ok ⟨0, x.nodes⟩ ∧ x.nodes.size = 10 := by
  have hascending : selfGuarded.Ascending := by decide
  have hqueue : ((FlowProblem.ofBody 0 selfGuarded).start >>= fun x₀ =>
      (FlowProblem.ofBody 0 selfGuarded).visitAll 10 x₀).map (·.queue.isEmpty) = .ok false := by
    decide +kernel
  have hbuilds : ((FlowProblem.ofBody 0 selfGuarded).start >>= fun x₀ =>
      (FlowProblem.ofBody 0 selfGuarded).visitAll 9313 x₀).map
        (fun x => (x.queue.isEmpty, x.nodes.size)) = .ok (true, 10) := by
    decide +kernel
  cases hstart : (FlowProblem.ofBody 0 selfGuarded).start with
  | error e =>
      rw [hstart] at hqueue
      cases hqueue
  | ok x₀ =>
      rw [hstart] at hqueue hbuilds
      obtain ⟨-, hloop⟩ := ofBody_terminates hascending 0
      obtain ⟨⟨iterations, r, hbound, hruns, hgraph⟩, -⟩ := (hloop (by decide)).2 x₀ hstart
      have hbound : iterations ≤ 9313 := hbound
      obtain ⟨x, hx, hfound⟩ := exists_of_map_eq_ok hbuilds
      obtain ⟨hempty, hsize⟩ := Prod.mk.inj hfound
      obtain rfl : r = .ok x := (hruns.visitAll_eq hbound).symm.trans hx
      refine ⟨hascending, x₀, x, iterations, rfl, ?_, hbound, hruns, hgraph, hsize⟩
      -- With no more visits than instructions something would be left in the queue.
      by_contra hfew
      obtain ⟨y, hy, hleft⟩ := exists_of_map_eq_ok hqueue
      have hsame := (hruns.visitAll_eq (Nat.le_of_not_lt hfew)).symm.trans hy
      rw [Except.ok.inj hsame, hleft] at hempty
      cases hempty

end DataFlowGraph

end CilAnalysis
