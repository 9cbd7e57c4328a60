import CilAnalysis.Proofs.Machine.Step

/-!
# The effect of a step on the stack

`Step.HasEffect x pops pushes` says that `x`, when it succeeds, takes `pops` values from the stack
and puts `pushes` new ones on what is left, and that it finds too few values only if there are fewer
than `pops`.

## The judgement

An effect is not additive along `bind` in general: a value that was pushed may be taken again, and
then neither number counts it.  Instructions, however, take their values first and push last, so
that two rules put their effects together.

* `HasEffect.pop_bind` counts a value that is taken before all that follows, and `popMany_bind`
  counts several.
* `HasEffect.bind` passes over a step that leaves the stack alone (`SparesStack`), and
  `HasEffect.bind_spares` over one at the end.

About faults only one thing is said.  A step may fault for many reasons at any time, but that the
stack is too small is found only where it is: so an underflow is the one fault that has to be kept
out of everything that is not a `pop`.  `NoUnderflow` says this of a computation on values.  The
errors of the analyses are none (`NoUnderflow.ofError`), so reading and writing the heap spares the
stack whatever becomes of it.
-/

namespace CilAnalysis

/-! ## Faults other than an underflow -/

/-- The result is not the fault that the stack holds too few values. -/
def NoUnderflow {α : Type} (r : Except Fault α) : Prop := r ≠ .error .stackUnderflow

namespace NoUnderflow

variable {α β : Type}

theorem ok (v : α) : NoUnderflow (.ok v) := nofun

theorem error {fault : Fault} (h : fault ≠ .stackUnderflow) :
    NoUnderflow (.error fault : Except Fault α) := by
  intro heq
  exact h (Except.error.inj heq)

theorem bind {r : Except Fault α} {f : α → Except Fault β} (h : NoUnderflow r)
    (hf : ∀ v, NoUnderflow (f v)) : NoUnderflow (r >>= f) := by
  cases r with
  | ok v => exact hf v
  | error fault =>
      intro heq
      have hfault : fault = .stackUnderflow := Except.error.inj heq
      exact h (by rw [hfault])

/-- The errors of the analyses are never about the stack. -/
theorem ofError (r : Except Error α) : NoUnderflow (r.mapError Fault.ofError) := by
  cases r with
  | ok v => exact ok v
  | error e => exact error (by cases e <;> exact nofun)

end NoUnderflow

namespace Step

/-! ## The judgement -/

variable {α β : Type}

/-- A step that succeeds takes `pops` values and leaves `pushes` new ones on the rest; one that
underflows found fewer than `pops` values. -/
def HasEffect (x : Step α) (pops pushes : Nat) : Prop :=
  ∀ m, match x.run m with
    | (.ok _, m') => pops ≤ m.stack.length ∧
        ∃ new, new.length = pushes ∧ m'.stack = new ++ m.stack.drop pops
    | (.error fault, _) => fault = .stackUnderflow → m.stack.length < pops

/-- A step that leaves the stack as it is and never finds it too small. -/
abbrev SparesStack (x : Step α) : Prop := HasEffect x 0 0

namespace HasEffect

variable {x : Step α} {f : α → Step β} {pops pushes : Nat}

private theorem of_stack_eq (h : ∀ m, (x.run m).2.stack = m.stack ∧ NoUnderflow (x.run m).1) :
    SparesStack x := by
  intro m
  obtain ⟨hstack, hfault⟩ := h m
  revert hstack hfault
  rcases x.run m with ⟨fault | v, m'⟩
  · intro _ hfault heq
    rw [heq] at hfault
    exact absurd rfl hfault
  · intro hstack _
    exact ⟨Nat.zero_le _, [], rfl, hstack⟩

theorem pure (v : α) : SparesStack (pure v : Step α) := of_stack_eq fun _ => ⟨rfl, nofun⟩

theorem modify {g : Machine → Machine} (h : ∀ m, (g m).stack = m.stack) :
    SparesStack (modify g : Step Unit) := of_stack_eq fun m => ⟨h m, nofun⟩

theorem get : SparesStack (get : Step Machine) := of_stack_eq fun _ => ⟨rfl, nofun⟩

theorem attempt {r : Except Fault α} (h : NoUnderflow r) : SparesStack (attempt r) :=
  of_stack_eq fun _ => ⟨rfl, h⟩

/-- A step that faults for another reason may have been meant to have any effect. -/
theorem throw {fault : Fault} (h : fault ≠ .stackUnderflow) :
    HasEffect (throw fault : Step α) pops pushes := by
  intro m heq
  exact absurd heq h

/-- A step that leaves the stack alone adds nothing to the effect of what follows. -/
theorem bind (hx : SparesStack x) (hf : ∀ v, HasEffect (f v) pops pushes) :
    HasEffect (x >>= f) pops pushes := by
  intro m
  have hstep := hx m
  rw [run_bind]
  revert hstep
  rcases x.run m with ⟨fault | v, m'⟩
  · intro hstep heq
    exact absurd (hstep heq) (Nat.not_lt_zero _)
  · rintro ⟨-, new, hnew, hstack⟩
    -- The first step left the stack as it was, so the second finds what there was at the start.
    obtain rfl := List.length_eq_zero_iff.mp hnew
    have hrest := hf v m'
    rwa [show m'.stack = m.stack from hstack] at hrest

/-- What is done last does not touch the stack. -/
theorem bind_spares (hx : HasEffect x pops pushes) (hf : ∀ v, SparesStack (f v)) :
    HasEffect (x >>= f) pops pushes := by
  intro m
  have hstep := hx m
  rw [run_bind]
  revert hstep
  rcases x.run m with ⟨fault | v, m'⟩
  · exact id
  · rintro ⟨hpops, new, hnew, hstack⟩
    dsimp only
    have hrest := hf v m'
    revert hrest
    rcases (f v).run m' with ⟨fault | u, m''⟩
    · intro hrest heq
      exact absurd (hrest heq) (Nat.not_lt_zero _)
    · rintro ⟨-, none, hnone, hstack'⟩
      obtain rfl := List.length_eq_zero_iff.mp hnone
      exact ⟨hpops, new, hnew, hstack'.trans hstack⟩

/-! ### Values taken and pushed -/

theorem popMany_bind {count : Nat} {f : List Value → Step β}
    (hf : ∀ vs, HasEffect (f vs) pops pushes) :
    HasEffect (popMany count >>= f) (count + pops) pushes := by
  intro m
  rw [run_bind, run_popMany]
  by_cases hcount : m.stack.length < count
  · simp only [hcount, if_true]
    intro _
    omega
  · simp only [hcount, if_false]
    have hrest := hf (m.stack.take count).reverse { m with stack := m.stack.drop count }
    revert hrest
    rcases (f (m.stack.take count).reverse).run { m with stack := m.stack.drop count } with
      ⟨fault | v, m'⟩
    · -- The values that were taken first and those that are missing now were all missing at the
      -- start.
      intro hrest heq
      have hfew := hrest heq
      simp only [List.length_drop] at hfew
      omega
    · rintro ⟨hpops, new, hnew, hstack⟩
      simp only [List.length_drop] at hpops
      refine ⟨by omega, new, hnew, ?_⟩
      rw [hstack, List.drop_drop]

/-- A value that is taken first counts as one more. -/
theorem pop_bind {f : Value → Step β} (hf : ∀ v, HasEffect (f v) pops pushes) :
    HasEffect (pop >>= f) (pops + 1) pushes := by
  intro m
  rw [run_bind]
  cases hm : m.stack with
  | nil =>
      rw [run_pop_nil hm]
      intro _
      exact Nat.zero_lt_succ _
  | cons v rest =>
      rw [run_pop_cons hm]
      dsimp only
      have hrest := hf v { m with stack := rest }
      revert hrest
      rcases (f v).run { m with stack := rest } with ⟨fault | u, m'⟩
      · intro hrest heq
        exact Nat.succ_lt_succ (hrest heq)
      · rintro ⟨hpops, new, hnew, hstack⟩
        exact ⟨Nat.succ_le_succ hpops, new, hnew, hstack⟩

theorem pop : HasEffect pop 1 0 := by
  have hpop := pop_bind fun v : Value => pure v
  rwa [bind_pure] at hpop

theorem push (s : Setting) (v : Value) : HasEffect (s.push v) 0 1 := by
  intro m
  rw [run_push]
  by_cases hlimit : s.options.maxStackDepth ≤ m.stack.length
  · simp only [hlimit, if_true]
    exact nofun
  · simp only [hlimit, if_false]
    exact ⟨Nat.zero_le _, [v], rfl, rfl⟩

/-- A copy of the value on top takes the value and pushes it twice. -/
theorem duplicate (s : Setting) : HasEffect s.duplicate 1 2 := by
  intro m
  unfold Setting.duplicate
  rw [run_bind]
  cases hm : m.stack with
  | nil =>
      rw [run_peek_nil hm]
      intro _
      exact Nat.zero_lt_one
  | cons v rest =>
      rw [run_peek_cons hm]
      dsimp only
      rw [run_push]
      by_cases hlimit : s.options.maxStackDepth ≤ m.stack.length
      · simp only [hlimit, if_true]
        exact nofun
      · simp only [hlimit, if_false]
        refine ⟨Nat.le_add_left 1 _, [v, v], rfl, ?_⟩
        rw [hm]
        rfl

/-- The value that is checked stays where it is. -/
theorem checkFinite (i : Instruction)
    (hfinite : ∀ v : Value, NoUnderflow (v.requireFinite i.opcode)) :
    HasEffect (checkFinite i) 1 1 := by
  intro m
  unfold Step.checkFinite
  rw [run_bind]
  cases hm : m.stack with
  | nil =>
      rw [run_peek_nil hm]
      intro _
      exact Nat.zero_lt_one
  | cons v rest =>
      rw [run_peek_cons hm]
      dsimp only
      rw [run_attempt]
      cases hcheck : v.requireFinite i.opcode with
      | error fault =>
          intro heq
          exact absurd (heq ▸ hcheck) (hfinite v)
      | ok _ => exact ⟨Nat.le_add_left 1 _, [v], rfl, by rw [hm]; rfl⟩

/-! ### Variables, heap and environment -/

theorem operand {i : Instruction} {kind : String} (named : Option α) :
    SparesStack (operand i kind named) := by
  cases named with
  | none => exact throw nofun
  | some v => exact pure v

/-- What an instruction does with its operand matters only if the operand is of the right kind. -/
theorem operand_bind {i : Instruction} {kind : String} {named : Option α}
    (hf : ∀ v, named = some v → HasEffect (f v) pops pushes) :
    HasEffect (Step.operand i kind named >>= f) pops pushes := by
  cases named with
  | none =>
      intro m heq
      exact absurd heq nofun
  | some v =>
      intro m
      exact hf v rfl m

theorem cell (slot : Variable) : SparesStack (cell slot) := by
  refine of_stack_eq fun m => ?_
  rw [run_cell]
  cases m.frame.cell? slot with
  | none => exact ⟨rfl, nofun⟩
  | some c => exact ⟨rfl, nofun⟩

theorem ofResult (r : Except Error α) : SparesStack (ofResult r) := attempt (.ofError r)

theorem askHeap (f : Heap → Except Error α) : SparesStack (askHeap f) :=
  get.bind fun m => ofResult (f m.heap)

theorem updateHeap (f : Heap → Except Error Heap) : SparesStack (updateHeap f) :=
  (askHeap f).bind fun _ => modify fun _ => rfl

theorem setObject (handle : Handle) (object : HeapObject) : SparesStack (setObject handle object) :=
  modify fun _ => rfl

theorem allocate (object : HeapObject) : SparesStack (allocate object) :=
  of_stack_eq fun _ => ⟨rfl, nofun⟩

end HasEffect

end Step

end CilAnalysis
