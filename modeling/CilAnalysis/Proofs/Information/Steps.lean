import CilAnalysis.Proofs.Information.Numbers
import CilAnalysis.Proofs.Machine.Step

/-!
# Two interpreters side by side

An instruction is executed in two states, of which the first refines the second.  `Step.Related` is
the judgement about such a pair of steps: started in states related by `P`, the more informed step
faults, or both succeed and end with results and states related by `Q`.  What faults for the less
informed therefore faults for the more informed.

## Strategy

The judgement is established for the steps from which instructions are made, and for instructions by
`Step.Related.bind`.  Where the results of the first step are related whatever the states are, the
rule `Step.Related.bind_and` keeps them apart from the states.

States are related if their stacks have one height, their variables the same types, and each value
says at least as much as its counterpart (`Machine.Refines`).  The height decides whether a push
finds room, and the types decide how a store converts, so that neither can go differently on the two
sides.  Heap, static fields and environment are not compared: the instructions that are followed
here do not use them.

What a state has returned is fixed during a run until its end, and `Machine.Follows` carries it
along.
-/

namespace CilAnalysis

/-! ## The order on states -/

/-- A cell of the same type whose value says at least as much. -/
structure Cell.Refines (c a : Cell) : Prop where
  type_eq : c.type = a.type
  value : c.value.Refines a.value

/-- The stacks are of one height and the variables of the same types, and every value of the first
state says at least as much as its counterpart. -/
structure Machine.Refines (c a : Machine) : Prop where
  stack : List.Forall₂ Value.Refines c.stack a.stack
  locals : List.Forall₂ Cell.Refines c.frame.locals a.frame.locals
  arguments : List.Forall₂ Cell.Refines c.frame.arguments a.frame.arguments

/-- The states between two instructions: the first refines the second, and neither has returned
anything since the start. -/
structure Machine.Follows (before : Option Value × Option Value) (c a : Machine) : Prop
    extends Machine.Refines c a where
  returned_more : c.returned = before.1
  returned_less : a.returned = before.2

section Slots

variable {α β : Type} {R : α → β → Prop} {l : List α} {l' : List β}

private theorem getElem?_of_forall₂ (h : List.Forall₂ R l l') (n : Nat) :
    (∃ v u, l[n]? = some v ∧ l'[n]? = some u ∧ R v u) ∨ (l[n]? = none ∧ l'[n]? = none) := by
  induction h generalizing n with
  | nil => exact Or.inr ⟨rfl, rfl⟩
  | cons hhead _ ih =>
      cases n with
      | zero => exact Or.inl ⟨_, _, rfl, rfl, hhead⟩
      | succ n => simpa using ih n

private theorem forall₂_modify (h : List.Forall₂ R l l') (n : Nat) {f : α → α} {g : β → β}
    (hfg : ∀ v u, R v u → R (f v) (g u)) : List.Forall₂ R (l.modify n f) (l'.modify n g) := by
  induction h generalizing n with
  | nil => simp
  | cons hhead htail ih =>
      cases n with
      | zero => simpa using ⟨hfg _ _ hhead, htail⟩
      | succ n => simpa using ⟨hhead, ih n⟩

end Slots

theorem Machine.Refines.cell? {c a : Machine} (h : c.Refines a) (slot : Variable) :
    (∃ x y, c.frame.cell? slot = some x ∧ a.frame.cell? slot = some y ∧ x.Refines y) ∨
      (c.frame.cell? slot = none ∧ a.frame.cell? slot = none) := by
  cases slot with
  | loc index => exact getElem?_of_forall₂ h.locals index
  | arg index => exact getElem?_of_forall₂ h.arguments index

theorem Machine.Refines.setCell {c a : Machine} (h : c.Refines a) (slot : Variable) {v u : Value}
    (hvu : v.Refines u) :
    Machine.Refines { c with frame := c.frame.set slot v }
      { a with frame := a.frame.set slot u } := by
  have hput : ∀ x y : Cell, x.Refines y →
      Cell.Refines { x with value := v } { y with value := u } :=
    fun _ _ hxy => ⟨hxy.type_eq, hvu⟩
  cases slot with
  | loc index => exact ⟨h.stack, forall₂_modify h.locals index hput, h.arguments⟩
  | arg index => exact ⟨h.stack, h.locals, forall₂_modify h.arguments index hput⟩

/-- An index that is read is unknown to the less informed, or the same for both. -/
theorem Value.Refines.index? {v u : Value} (h : v.Refines u) (sign : Signedness) :
    ResultRefines (fun n k => k = none ∨ n = k) (v.index? sign) (u.index? sign) := by
  have hbits {w : Nat} {x y : KnownBits w} (hxy : x.Refines y) :
      y.toBitVec?.map sign.read = none ∨
        x.toBitVec?.map sign.read = y.toBitVec?.map sign.read := by
    rcases hxy.toBitVec?_eq_none_or with hnone | heq
    · exact Or.inl (by rw [hnone]; rfl)
    · exact Or.inr (by rw [heq])
  cases h with
  | int32 hxy => exact hbits hxy
  | nativeInt hxy => exact hbits hxy
  | int64 | float | object | pointer => trivial

/-! ## The judgement -/

namespace Step

variable {α β α' β' : Type}

/-- From states related by `P`, the step `x` faults, or both steps succeed and `Q` relates their
results and the states they leave. -/
def Related (P : Machine → Machine → Prop) (x : Step α) (y : Step β)
    (Q : α → β → Machine → Machine → Prop) : Prop :=
  ∀ c a, P c a →
    match x.run c, y.run a with
    | (.error _, _), _ => True
    | (.ok v, c'), (.ok u, a') => Q v u c' a'
    | (.ok _, _), (.error _, _) => False

namespace Related

variable {P : Machine → Machine → Prop} {x : Step α} {y : Step β}
  {Q : α → β → Machine → Machine → Prop}

theorem mono {Q' : α → β → Machine → Machine → Prop} (h : Related P x y Q)
    (hle : ∀ v u c a, Q v u c a → Q' v u c a) : Related P x y Q' := by
  intro c a hca
  have hstep := h c a hca
  revert hstep
  rcases x.run c with ⟨_ | v, c'⟩ <;> rcases y.run a with ⟨_ | u, a'⟩
  · exact fun _ => trivial
  · exact fun _ => trivial
  · exact id
  · exact hle v u c' a'

theorem pure {v : α} {u : β} (h : ∀ c a, P c a → Q v u c a) :
    Related P (pure v) (pure u) Q := by
  intro c a hca
  exact h c a hca

theorem throw (fault : Fault) : Related P (throw fault : Step α) y Q := by
  intro c a _
  trivial

theorem bind {f : α → Step α'} {g : β → Step β'} {Q' : α' → β' → Machine → Machine → Prop}
    (h : Related P x y Q) (hfg : ∀ v u, Related (Q v u) (f v) (g u) Q') :
    Related P (x >>= f) (y >>= g) Q' := by
  intro c a hca
  have hstep := h c a hca
  rw [run_bind, run_bind]
  revert hstep
  rcases x.run c with ⟨_ | v, c'⟩ <;> rcases y.run a with ⟨_ | u, a'⟩
  · exact fun _ => trivial
  · exact fun _ => trivial
  · exact False.elim
  · exact hfg v u c' a'

/-- The same, where the results are related whatever the states. -/
theorem bind_and {R : α → β → Prop} {P' : Machine → Machine → Prop} {f : α → Step α'}
    {g : β → Step β'} {Q' : α' → β' → Machine → Machine → Prop}
    (h : Related P x y fun v u c a => R v u ∧ P' c a)
    (hfg : ∀ v u, R v u → Related P' (f v) (g u) Q') : Related P (x >>= f) (y >>= g) Q' := by
  refine h.bind ?_
  intro v u c a hca
  exact hfg v u hca.1 c a hca.2

theorem attempt {R : α → β → Prop} {r : Except Fault α} {r' : Except Fault β}
    (h : ResultRefines R r r') :
    Related P (attempt r) (attempt r') fun v u c a => R v u ∧ P c a := by
  intro c a hca
  cases r with
  | error => trivial
  | ok v =>
      cases r' with
      | error => exact h
      | ok u => exact ⟨h, hca⟩

theorem operand {i : Instruction} {kind : String} (named : Option α) :
    Related P (operand i kind named) (operand i kind named) fun v u c a => v = u ∧ P c a := by
  intro c a hca
  cases named with
  | none => trivial
  | some v => exact ⟨rfl, hca⟩

/-! ### Steps on the stack -/

variable {before : Option Value × Option Value}

theorem pop : Related (Machine.Follows before) Step.pop Step.pop
    fun v u c a => v.Refines u ∧ c.Follows before a := by
  intro c a hca
  cases hc : c.stack with
  | nil => rw [run_pop_nil hc]; trivial
  | cons v rest =>
      have hstack := hca.stack
      rw [hc] at hstack
      obtain ⟨u, rest', hvu, hrest, ha⟩ := List.forall₂_cons_left_iff.mp hstack
      rw [run_pop_cons hc, run_pop_cons ha]
      exact ⟨hvu, ⟨hrest, hca.locals, hca.arguments⟩, hca.returned_more, hca.returned_less⟩

theorem peek : Related (Machine.Follows before) Step.peek Step.peek
    fun v u c a => v.Refines u ∧ c.Follows before a := by
  intro c a hca
  cases hc : c.stack with
  | nil => rw [run_peek_nil hc]; trivial
  | cons v rest =>
      have hstack := hca.stack
      rw [hc] at hstack
      obtain ⟨u, rest', hvu, -, ha⟩ := List.forall₂_cons_left_iff.mp hstack
      rw [run_peek_cons hc, run_peek_cons ha]
      exact ⟨hvu, hca⟩

theorem push (s : Setting) {v u : Value} (hvu : v.Refines u) :
    Related (Machine.Follows before) (s.push v) (s.push u) fun _ _ c a => c.Follows before a := by
  intro c a hca
  rw [run_push, run_push, ← hca.stack.length_eq]
  by_cases hlimit : s.options.maxStackDepth ≤ c.stack.length
  · simp only [hlimit, if_true]
  · simp only [hlimit, if_false]
    exact ⟨⟨.cons hvu hca.stack, hca.locals, hca.arguments⟩, hca.returned_more, hca.returned_less⟩

theorem clearStack : Related (Machine.Follows before) Step.clearStack Step.clearStack
    fun _ _ c a => c.Follows before a := by
  intro c a hca
  exact ⟨⟨.nil, hca.locals, hca.arguments⟩, hca.returned_more, hca.returned_less⟩

/-! ### Steps on variables -/

theorem cell (slot : Variable) :
    Related (Machine.Follows before) (Step.cell slot) (Step.cell slot)
      fun x y c a => x.Refines y ∧ c.Follows before a := by
  intro c a hca
  rw [run_cell, run_cell]
  rcases hca.cell? slot with ⟨x, y, hx, hy, hxy⟩ | ⟨hx, hy⟩
  · rw [hx, hy]
    exact ⟨hxy, hca⟩
  · rw [hx]
    trivial

theorem setCell (slot : Variable) {v u : Value} (hvu : v.Refines u) :
    Related (Machine.Follows before) (Step.setCell slot v) (Step.setCell slot u)
      fun _ _ c a => c.Follows before a := by
  intro c a hca
  exact ⟨hca.toRefines.setCell slot hvu, hca.returned_more, hca.returned_less⟩

end Related

end Step

/-! ## Instructions that load, store and compute -/

namespace Setting

open Step

variable (s : Setting) (i : Instruction) {before : Option Value × Option Value}

/-- A step that leads from one instruction to the next keeps the states related. -/
abbrev Keeps (before : Option Value × Option Value) (step : Step Unit) : Prop :=
  Related (Machine.Follows before) step step fun _ _ c a => c.Follows before a

private theorem keeps_setVariable (slot : Variable) {v u : Value} (hvu : v.Refines u) :
    Related (Machine.Follows before) (s.setVariable slot v) (s.setVariable slot u)
      fun _ _ c a => c.Follows before a := by
  refine (Related.cell slot).bind_and ?_
  intro x y hxy
  rw [hxy.type_eq]
  exact .setCell slot (hvu.coerce s.width y.type)

theorem keeps_duplicate : Keeps before s.duplicate := by
  refine Related.peek.bind_and ?_
  intro v u hvu
  exact .push s hvu

theorem keeps_pop : Keeps before (do let _ ← Step.pop) := by
  refine Related.pop.bind_and ?_
  intro v u _
  exact .pure fun _ _ hca => hca

theorem keeps_loadInt32 : Keeps before (s.loadInt32 i) := by
  refine (Related.operand i.constant?).bind_and ?_
  rintro n _ rfl
  exact .push s (.refl _)

theorem keeps_loadInt64 : Keeps before (s.loadInt64 i) := by
  refine (Related.operand i.longConstant?).bind_and ?_
  rintro n _ rfl
  exact .push s (.refl _)

theorem keeps_loadFloat : Keeps before (s.loadFloat i) := by
  refine (Related.operand i.floatConstant?).bind_and ?_
  rintro x _ rfl
  exact .push s (.refl _)

theorem keeps_loadVariable : Keeps before (s.loadVariable i) := by
  refine (Related.operand i.slot?).bind_and ?_
  rintro slot _ rfl
  refine (Related.cell slot).bind_and ?_
  intro x y hxy
  exact .push s hxy.value

theorem keeps_storeVariable : Keeps before (s.storeVariable i) := by
  refine (Related.operand i.slot?).bind_and ?_
  rintro slot _ rfl
  refine Related.pop.bind_and ?_
  intro v u hvu
  exact s.keeps_setVariable slot hvu

theorem keeps_loadVariableAddress : Keeps before (s.loadVariableAddress i) := by
  refine (Related.operand i.slot?).bind_and ?_
  rintro slot _ rfl
  have hforget : Keeps before (s.forgetVariable slot) := by
    refine (Related.cell slot).bind_and ?_
    intro x y hxy
    rw [hxy.type_eq]
    exact .setCell slot (.refl _)
  refine hforget.bind ?_
  intro _ _
  exact .push s (.refl _)

theorem keeps_onTop {f : Value → Except Fault Value}
    (hf : ∀ v u, v.Refines u → ResultRefines Value.Refines (f v) (f u)) :
    Keeps before (s.onTop f) := by
  refine Related.pop.bind_and ?_
  intro v u hvu
  refine (Related.attempt (hf v u hvu)).bind_and ?_
  intro v' u' hvu'
  exact .push s hvu'

theorem keeps_onTopTwo {f : Value → Value → Except Fault Value}
    (hf : ∀ v u v' u', v.Refines u → v'.Refines u' →
      ResultRefines Value.Refines (f v v') (f u u')) : Keeps before (s.onTopTwo f) := by
  refine Related.pop.bind_and ?_
  intro rhs rhs' hrhs
  refine Related.pop.bind_and ?_
  intro lhs lhs' hlhs
  refine (Related.attempt (hf lhs lhs' rhs rhs' hlhs hrhs)).bind_and ?_
  intro v u hvu
  exact .push s hvu

theorem keeps_compareTopTwo (comparison : Comparison) (unsigned : Bool) :
    Keeps before (s.compareTopTwo comparison unsigned) := by
  refine s.keeps_onTopTwo ?_
  intro v u v' u' hvu hvu'
  refine (comparison.decide_refines s.width unsigned hvu hvu').bind ?_
  intro t t' ht
  exact .int32 (KnownBits.ofTernary_refines ht)

theorem keeps_checkFinite : Keeps before (checkFinite i) := by
  refine Related.peek.bind_and ?_
  intro v u hvu
  refine (Related.attempt (Value.requireFinite_refines i.opcode hvu)).mono ?_
  intro _ _ c a hca
  exact hca.2

end Setting

end CilAnalysis
