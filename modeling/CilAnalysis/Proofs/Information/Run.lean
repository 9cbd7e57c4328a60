import CilAnalysis.Proofs.Information.Steps
import CilAnalysis.Proofs.Instruction.Expand
import CilAnalysis.Proofs.Machine.Successor

/-!
# Runs and information

A method is run in two states, of which the first knows at least as much as the second.  The more
informed run may fault at any point, and where the less informed run cannot tell how a branch goes,
the more informed one may take one of the ways.  In all other cases both end alike, and what the
more informed run ends with refines what the other ends with.  The main result is
`Interpreter.runWith_refines`, for methods that leave the heap alone.

## Strategy

`Continues` says what two executions of one instruction have in common, from the point of view of
the run they belong to: the runs go on together, fork in the same way, one goes on where the other
forks, or both return or throw.  There are three layers.

* Each kind of instruction establishes it.  Most of them fall through, and for these it is enough
  that the states stay related (`thenNext_continues`).  A branch asks for a condition, which is
  refined like any answer; if the less informed do not know it, they fork to both places, and one of
  these is where the other run goes (`branchIf_continues`).
* `Setting.perform_continues` collects these cases for every operation that leaves the heap alone.
* `Interpreter.runFrom_refines` is the induction on the steps left.
-/

namespace CilAnalysis

open Step

/-- The operations that neither read nor write the heap, the static fields or the environment. -/
def Operation.isHeapFree : Operation → Bool
  | nop | dup | pop | loadNull | loadInt32 | loadInt64 | loadFloat => true
  | loadVariable | storeVariable | loadVariableAddress => true
  | binary _ | shift _ | negate | complement | compare .. => true
  | convertInteger .. | convertFloat _ | checkFinite => true
  | branch | leave | branchOnValue _ | branchOnComparison .. | switch => true
  | ret | throws false => true
  | _ => false

/-! ## What one instruction does to both runs -/

/-- The value that a return leaves: one that was taken from the stack, or else the one that the
state held before. -/
def ReturnRefines (takesValue : Bool) (before : Option Value × Option Value)
    (more less : Option Value) : Prop :=
  if takesValue then ∃ v u, more = some v ∧ less = some u ∧ v.Refines u
  else more = before.1 ∧ less = before.2

/-- How two runs go on after the instruction at an offset, and the states they are in. -/
inductive Continues (takesValue : Bool) (before : Option Value × Option Value) (offset : Nat) :
    Nat ⊕ RunOutcome → Nat ⊕ RunOutcome → Machine → Machine → Prop
  | together {next : Nat} {c a : Machine} (hca : c.Follows before a) :
      Continues takesValue before offset (.inl next) (.inl next) c a
  | forked {targets : List Nat} {c a : Machine} (hca : c.Follows before a) :
      Continues takesValue before offset (.inr (.forked offset targets))
        (.inr (.forked offset targets)) c a
  | decided {next : Nat} {targets : List Nat} {c a : Machine} (hnext : next ∈ targets)
      (hca : c.Follows before a) :
      Continues takesValue before offset (.inl next) (.inr (.forked offset targets)) c a
  | returned {c a : Machine} (h : ReturnRefines takesValue before c.returned a.returned) :
      Continues takesValue before offset (.inr (.returned c.returned))
        (.inr (.returned a.returned)) c a
  | threw {v u : Value} {c a : Machine} (hvu : v.Refines u) :
      Continues takesValue before offset (.inr (.threw (some v))) (.inr (.threw (some u))) c a

section Control

variable {s : Setting} {i : Instruction} {before : Option Value × Option Value}

/-- The judgement about an instruction: both executions succeed with successors by which the runs
continue as `Continues` says, or the more informed one faults. -/
abbrev ControlRelated (s : Setting) (i : Instruction) (before : Option Value × Option Value)
    (P : Machine → Machine → Prop) (x y : Step Successor) : Prop :=
  Related P x y fun t u c a =>
    Continues s.returnsValue before i.offset (Interpreter.continuation i c t)
      (Interpreter.continuation i a u) c a

private theorem thenNext_continues {step : Step Unit} (h : Setting.Keeps before step) :
    ControlRelated s i before (Machine.Follows before) (thenNext step) (thenNext step) := by
  refine h.bind ?_
  intro _ _
  exact .pure fun _ _ hca => .together hca

private theorem branch_continues :
    ControlRelated s i before (Machine.Follows before) (Step.branch i) (Step.branch i) := by
  refine (Related.operand i.target?).bind_and ?_
  rintro target _ rfl
  exact .pure fun _ _ hca => .together hca

private theorem leave_continues :
    ControlRelated s i before (Machine.Follows before) (Step.leave i) (Step.leave i) := by
  refine (Related.operand i.target?).bind_and ?_
  rintro target _ rfl
  refine Related.clearStack.bind ?_
  intro _ _
  exact .pure fun _ _ hca => .together hca

private theorem branchIf_continues {t u : Ternary} (h : t.Refines u) :
    ControlRelated s i before (Machine.Follows before) (branchIf i t) (branchIf i u) := by
  refine (Related.operand i.target?).bind_and ?_
  rintro target _ rfl
  rcases h with rfl | rfl
  · -- The less informed run forks, and the other one may know which way to go.
    cases t with
    | true => exact .pure fun _ _ hca => .decided (by simp) hca
    | false => exact .pure fun _ _ hca => .decided (by simp) hca
    | unknown => exact .pure fun _ _ hca => .forked hca
  · cases t with
    | true => exact .pure fun _ _ hca => .together hca
    | false => exact .pure fun _ _ hca => .together hca
    | unknown => exact .pure fun _ _ hca => .forked hca

/-- A condition and its negation are refined alike. -/
theorem Ternary.Refines.ite_not {t u : Ternary} (h : t.Refines u) (asked : Bool) :
    Ternary.Refines (if asked then t else t.not) (if asked then u else u.not) := by
  cases asked with
  | true => exact h
  | false => exact h.not

private theorem branchOnValue_continues (whenZero : Bool) :
    ControlRelated s i before (Machine.Follows before) (branchOnValue i whenZero)
      (branchOnValue i whenZero) := by
  refine Related.pop.bind_and ?_
  intro v u hvu
  exact branchIf_continues (hvu.isZero.ite_not whenZero)

private theorem branchOnComparison_continues (comparison : Comparison) (unsigned whenHolds : Bool) :
    ControlRelated s i before (Machine.Follows before)
      (s.branchOnComparison i comparison unsigned whenHolds)
      (s.branchOnComparison i comparison unsigned whenHolds) := by
  refine Related.pop.bind_and ?_
  intro rhs rhs' hrhs
  refine Related.pop.bind_and ?_
  intro lhs lhs' hlhs
  refine (Related.attempt (comparison.decide_refines s.width unsigned hlhs hrhs)).bind_and ?_
  intro t u htu
  exact branchIf_continues (htu.ite_not whenHolds)

/-- Whatever the index is, a switch goes to one of the places it forks to when it is unknown. -/
theorem switchTo_continues (table : List Nat) (index : Option Nat) {c a : Machine}
    (hca : c.Follows before a) :
    Continues s.returnsValue before i.offset (Interpreter.continuation i c (switchTo i table index))
      (Interpreter.continuation i a (switchTo i table none)) c a := by
  cases index with
  | none => exact .forked hca
  | some n =>
      simp only [switchTo]
      cases htarget : table[n]? with
      | none => exact .decided (mem_withoutRepeats.mpr (by simp)) hca
      | some target =>
          have hmem : target ∈ table := List.mem_of_getElem? htarget
          exact .decided (mem_withoutRepeats.mpr (by simp [hmem])) hca

private theorem switch_continues :
    ControlRelated s i before (Machine.Follows before) (Step.switch i) (Step.switch i) := by
  refine (Related.operand i.table?).bind_and ?_
  rintro table _ rfl
  refine Related.pop.bind_and ?_
  intro v u hvu
  refine (Related.attempt (hvu.index? .unsigned)).bind_and ?_
  intro n k hnk
  refine .pure ?_
  intro c a hca
  rcases hnk with rfl | rfl
  · exact switchTo_continues table _ hca
  · cases n with
    | none => exact switchTo_continues table none hca
    | some n =>
        simp only [Option.map_some, switchTo]
        cases table[n.toNat]? with
        | none => exact .together hca
        | some target => exact .together hca

private theorem ret_continues :
    ControlRelated s i before (Machine.Follows before) s.ret s.ret := by
  unfold Setting.ret
  by_cases hvalue : s.returnsValue
  · simp only [hvalue, if_true]
    refine Related.pop.bind_and ?_
    intro v u hvu c a _
    refine .returned ?_
    rw [ReturnRefines, if_pos hvalue]
    exact ⟨v, u, rfl, rfl, hvu⟩
  · simp only [hvalue, Bool.false_eq_true, if_false]
    refine .pure ?_
    intro c a hca
    refine .returned ?_
    rw [ReturnRefines, if_neg hvalue]
    exact ⟨hca.returned_more, hca.returned_less⟩

private theorem throws_continues :
    ControlRelated s i before (Machine.Follows before) (Step.throws false) (Step.throws false) := by
  refine Related.pop.bind_and ?_
  intro v u hvu
  by_cases hnull : v.isZero = .true
  · simp only [hnull, if_true]
    exact .throw .nullReference
  · -- A value that is known to be null is so in every refinement.
    have hnull' : u.isZero ≠ .true := by
      intro hzero
      rcases hvu.isZero with hunknown | heq
      · rw [hzero] at hunknown
        exact nomatch hunknown
      · exact hnull (heq.trans hzero)
    simp only [hnull, hnull', if_false]
    intro c a _
    exact .threw hvu

/-- Executed as an operation that leaves the heap alone, an instruction keeps the two runs
together, or ends them in ways that correspond. -/
theorem Setting.perform_continues {o : Operation} (hfree : o.isHeapFree) :
    ControlRelated s i before (Machine.Follows before) (s.perform i o) (s.perform i o) := by
  cases o with
  | nop => exact .pure fun _ _ hca => .together hca
  | dup => exact thenNext_continues s.keeps_duplicate
  | pop => exact thenNext_continues keeps_pop
  | loadNull => exact thenNext_continues (Related.push s (.refl _))
  | loadInt32 => exact thenNext_continues (s.keeps_loadInt32 i)
  | loadInt64 => exact thenNext_continues (s.keeps_loadInt64 i)
  | loadFloat => exact thenNext_continues (s.keeps_loadFloat i)
  | loadVariable => exact thenNext_continues (s.keeps_loadVariable i)
  | storeVariable => exact thenNext_continues (s.keeps_storeVariable i)
  | loadVariableAddress => exact thenNext_continues (s.keeps_loadVariableAddress i)
  | binary op =>
      refine thenNext_continues (s.keeps_onTopTwo ?_)
      intro v u v' u' hvu hvu'
      exact op.apply_refines s.width i.opcode hvu hvu'
  | shift shift =>
      refine thenNext_continues (s.keeps_onTopTwo ?_)
      intro v u v' u' hvu hvu'
      exact shift.apply_refines s.width i.opcode hvu hvu'
  | negate => exact thenNext_continues (s.keeps_onTop fun _ _ h => Value.negate_refines _ _ h)
  | complement => exact thenNext_continues (s.keeps_onTop fun _ _ h => Value.complement_refines _ h)
  | compare comparison unsigned =>
      exact thenNext_continues (s.keeps_compareTopTwo comparison unsigned)
  | convertInteger target check =>
      refine thenNext_continues (s.keeps_onTop ?_)
      intro v u hvu
      exact Value.toIntegerTarget_refines s.width i.opcode target check hvu
  | convertFloat target =>
      refine thenNext_continues (s.keeps_onTop ?_)
      intro v u hvu
      exact Value.toFloatTarget_refines s.width i.opcode target hvu
  | checkFinite => exact thenNext_continues (keeps_checkFinite i)
  | branch => exact branch_continues
  | leave => exact leave_continues
  | branchOnValue whenZero => exact branchOnValue_continues whenZero
  | branchOnComparison comparison unsigned whenHolds =>
      exact branchOnComparison_continues comparison unsigned whenHolds
  | switch => exact switch_continues
  | ret => exact ret_continues
  | throws again =>
      cases again with
      | false => exact throws_continues
      | true => exact nomatch hfree
  | _ => exact nomatch hfree

end Control

/-! ## Whole runs -/

namespace Interpreter

/-- How a more informed run ends, given how a less informed one does, where `before` holds what the
two states had returned at the start.  The more informed run may fault in any case.  Where the other
run forks, it forks too, or it goes on to one of the targets from a state that refines the one in
which the other stopped. -/
def RunRefines (p : Interpreter) (s : Setting) (b : MethodBody)
    (before : Option Value × Option Value) (more less : Except Error RunOutcome × Machine) : Prop :=
  (∃ offset fault, more.1 = .ok (.faulted offset fault)) ∨
    match less.1 with
    | .ok (.returned u) =>
      ∃ v, more.1 = .ok (.returned v) ∧ ReturnRefines s.returnsValue before v u
    | .ok (.threw exception) =>
      ∃ v u, exception = some u ∧ more.1 = .ok (.threw (some v)) ∧ v.Refines u
    | .ok (.forked offset targets) =>
      more.1 = .ok (.forked offset targets) ∨
        ∃ next ∈ targets, ∃ steps < p.options.maxSteps, ∃ m : Machine,
          m.Refines less.2 ∧ more = p.runFrom s b steps next m
    | .ok (.stepLimit offset) => more.1 = .ok (.stepLimit offset)
    | .ok (.faulted ..) | .ok (.handlerExit ..) => False
    | .error e => more.1 = .error e

variable {p : Interpreter} {b : MethodBody} {before : Option Value × Option Value}

private theorem executeBare_continues {s : Setting} {i : Instruction}
    (hfree : i.opcode.operation.isHeapFree) :
    ControlRelated s i before (Machine.Follows before) (p.executeBare s i) (p.executeBare s i) := by
  unfold executeBare Setting.execute
  by_cases hhas : p.has i.opcode.operation
  · simp only [hhas, if_true]
    exact Setting.perform_continues hfree
  · simp only [hhas, Bool.false_eq_true, if_false]
    exact .throw _

private theorem runFrom_refines {s : Setting} (hhooks : p.hooks = [])
    (hfree : ∀ i ∈ b.instructions, i.opcode.operation.isHeapFree) {steps : Nat}
    (hsteps : steps ≤ p.options.maxSteps) (offset : Nat) {c a : Machine}
    (hca : c.Follows before a) :
    p.RunRefines s b before (p.runFrom s b steps offset c) (p.runFrom s b steps offset a) := by
  induction steps generalizing offset c a with
  | zero => exact Or.inr rfl
  | succ steps ih =>
      simp only [runFrom]
      cases hat : b.instructionAt offset with
      | error e => exact Or.inr rfl
      | ok i =>
          obtain ⟨hmem, rfl⟩ := MethodBody.of_instructionAt hat
          have hstep := executeBare_continues (p := p) (s := s) (hfree i hmem) c a hca
          rw [← dispatch_eq_executeBare hhooks] at hstep
          dsimp only
          revert hstep
          rcases (p.dispatch s i).run c with ⟨fault | t, c'⟩
          · -- The more informed run may fault whatever the other does.
            exact fun _ => Or.inl ⟨i.offset, fault, rfl⟩
          rcases (p.dispatch s i).run a with ⟨_ | u, a'⟩
          · exact False.elim
          -- Both instructions succeeded, so the runs go on together or end.
          dsimp only
          generalize continuation i c' t = onward
          generalize continuation i a' u = onward'
          intro hstep
          cases hstep with
          | together hca' => exact ih (by omega) _ hca'
          | forked _ => exact Or.inr (Or.inl rfl)
          | decided hnext hca' =>
              exact Or.inr (Or.inr ⟨_, hnext, steps, hsteps, c', hca'.toRefines, rfl⟩)
          | returned h => exact Or.inr ⟨_, rfl, h⟩
          | threw hvu => exact Or.inr ⟨_, _, rfl, rfl, hvu⟩

/-- Running a method that leaves the heap alone in a state that says more gives a result that says
more: whatever the run in the less informed state establishes holds of the other run as well, unless
that faults. -/
theorem runWith_refines (p : Interpreter) (hhooks : p.hooks = []) (b : MethodBody)
    (hfree : ∀ i ∈ b.instructions, i.opcode.operation.isHeapFree) (c a : Machine)
    (hca : c.Refines a) :
    p.RunRefines (p.setting b) b.expand (c.returned, a.returned) (p.runWith b c)
      (p.runWith b a) := by
  have hfree' : ∀ i ∈ b.expand.instructions, i.opcode.operation.isHeapFree := by
    intro i hi
    obtain ⟨j, hj, rfl⟩ := List.mem_map.mp hi
    rw [Instruction.operation_expand]
    exact hfree j hj
  unfold runWith
  cases hcode : b.expand.instructions with
  | nil => exact Or.inr rfl
  | cons first rest => exact runFrom_refines hhooks hfree' le_rfl _ ⟨hca, rfl, rfl⟩

/-- A method that returns its argument if that is odd, and zero if not. -/
def oddOrZero : MethodBody where
  instructions :=
    [⟨0, .ldarg_0, .none, 1⟩, ⟨1, .ldc_i4_1, .none, 1⟩, ⟨2, .and, .none, 1⟩,
      ⟨3, .brtrue_s, .target 7, 2⟩, ⟨5, .ldc_i4_0, .none, 1⟩, ⟨6, .ret, .none, 1⟩,
      ⟨7, .ldarg_0, .none, 1⟩, ⟨8, .ret, .none, 1⟩]
  parameters := [.int32]
  returnType := .int32

/-- The state before a call of `oddOrZero` with an argument. -/
def oddOrZeroWith (x : KnownBits 32) : Machine where
  frame := ⟨[], [⟨.int32, .int32 x⟩]⟩

/-- Of an argument only the lowest bit is known, which decides the branch; the run with the argument
five returns a value with that bit. -/
theorem runWith_refines_oddOrZero :
    (oddOrZeroWith (.exact 5)).Refines (oddOrZeroWith (.masked 1 1)) ∧
      (({} : Interpreter).runWith oddOrZero (oddOrZeroWith (.masked 1 1))).1 =
        .ok (.returned (some (.int32 (.masked 1 1)))) ∧
      ({} : Interpreter).RunRefines (({} : Interpreter).setting oddOrZero) oddOrZero.expand
        (none, none) (({} : Interpreter).runWith oddOrZero (oddOrZeroWith (.exact 5)))
        (({} : Interpreter).runWith oddOrZero (oddOrZeroWith (.masked 1 1))) := by
  have hbits : (KnownBits.exact (5 : BitVec 32)).Refines (.masked 1 1) := by decide
  have hstates : (oddOrZeroWith (.exact 5)).Refines (oddOrZeroWith (.masked 1 1)) :=
    ⟨.nil, .nil, .cons ⟨rfl, .int32 hbits⟩ .nil⟩
  exact ⟨hstates, rfl, runWith_refines {} rfl oddOrZero (by decide) _ _ hstates⟩

end Interpreter

end CilAnalysis
