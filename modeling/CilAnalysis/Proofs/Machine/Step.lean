import CilAnalysis.Machine.Interpreter
import Mathlib

/-!
# What steps do

The equations by which the steps of the interpreter are computed: a step applied to a state gives an
outcome and the state it leaves.  Everything that is proved of instructions is put together from
these, so that no later proof looks into the monad.

There are equations of two kinds.

* For the ways of combining steps: `run_bind` says that what follows is run in the state that was
  left, unless there was a fault, and that the state before a fault is kept.  `run_thenNext_of_ok`
  and `run_thenNext_of_error` are its special cases for an instruction after which control goes on
  to the next.
* For each primitive step: what it does to the stack, the heap, the variables and the static fields.
  Those that may fault have one equation for each outcome, or one with a condition.

Equations without a condition are simplification rules.  The others are stated for a stack or a heap
of known shape, so that a proof which knows the shape rewrites with them.

At the end stand two facts about variables (`Frame.cell?_set_self`, `Frame.cell?_set`) and two about
interpreters: without hooks an instruction is executed and nothing else happens.
-/

namespace CilAnalysis

namespace Step

variable {α β : Type}

@[simp] theorem run_pure (v : α) (m : Machine) : (pure v : Step α).run m = (.ok v, m) := rfl

@[simp] theorem run_throw (fault : Fault) (m : Machine) :
    (throw fault : Step α).run m = (.error fault, m) := rfl

@[simp] theorem run_attempt (r : Except Fault α) (m : Machine) : (attempt r).run m = (r, m) := rfl

/-- A step after another one is made in the state that the first leaves, unless that faults. -/
theorem run_bind (x : Step α) (f : α → Step β) (m : Machine) :
    (x >>= f).run m =
      match x.run m with
      | (.ok v, m') => (f v).run m'
      | (.error fault, m') => (.error fault, m') := by
  change (match x.run m with | (r, m') => (ExceptT.bindCont f r : StateM Machine _) m') = _
  rcases x.run m with ⟨r, m'⟩
  cases r <;> rfl

theorem run_attempt_bind {r : Except Fault α} {a : α} (hr : r = .ok a) (f : α → Step β)
    (m : Machine) : (attempt r >>= f).run m = (f a).run m := by
  rw [run_bind, run_attempt, hr]

@[simp] theorem run_get (m : Machine) : (get : Step Machine).run m = (.ok m, m) := rfl

@[simp] theorem run_modify (f : Machine → Machine) (m : Machine) :
    (modify f : Step Unit).run m = (.ok (), f m) := rfl

/-! ## The stack -/

theorem run_pop_nil {m : Machine} (h : m.stack = []) :
    pop.run m = (.error .stackUnderflow, m) := by
  simp only [pop, run_bind, run_get, h, run_throw]

theorem run_pop_cons {m : Machine} {v : Value} {rest : List Value} (h : m.stack = v :: rest) :
    pop.run m = (.ok v, { m with stack := rest }) := by
  simp only [pop, run_bind, run_get, h, run_modify, run_pure]

theorem run_pop_stack (v : Value) (rest : List Value) (m : Machine) :
    pop.run { m with stack := v :: rest } = (.ok v, { m with stack := rest }) :=
  run_pop_cons rfl

/-- A step that takes a value first goes on with it above the rest of the stack. -/
theorem run_pop_bind {m : Machine} {v : Value} {rest : List Value} (h : m.stack = v :: rest)
    (f : Value → Step α) : (pop >>= f).run m = (f v).run { m with stack := rest } := by
  rw [run_bind, run_pop_cons h]

theorem run_peek_nil {m : Machine} (h : m.stack = []) :
    peek.run m = (.error .stackUnderflow, m) := by
  simp only [peek, run_bind, run_get, h, run_throw]

theorem run_peek_cons {m : Machine} {v : Value} {rest : List Value} (h : m.stack = v :: rest) :
    peek.run m = (.ok v, m) := by
  simp only [peek, run_bind, run_get, h, run_pure]

theorem run_popMany (count : Nat) (m : Machine) :
    (popMany count).run m =
      if m.stack.length < count then (.error .stackUnderflow, m)
      else (.ok (m.stack.take count).reverse, { m with stack := m.stack.drop count }) := by
  by_cases hcount : m.stack.length < count <;>
    simp only [popMany, run_bind, run_get, hcount, run_throw, run_modify, run_pure, if_true,
      if_false]

theorem run_push (s : Setting) (v : Value) (m : Machine) :
    (s.push v).run m =
      let limit := s.options.maxStackDepth
      if limit ≤ m.stack.length then
        (.error (.invalidProgram s!"stack grew past {limit} values"), m)
      else (.ok (), { m with stack := v :: m.stack }) := by
  by_cases hlimit : s.options.maxStackDepth ≤ m.stack.length <;>
    simp only [Setting.push, run_bind, run_get, hlimit, run_throw, run_modify, if_true, if_false]

theorem run_push_of_lt {s : Setting} {m : Machine} (v : Value)
    (hroom : m.stack.length < s.options.maxStackDepth) :
    (s.push v).run m = (.ok (), { m with stack := v :: m.stack }) := by
  rw [run_push]
  exact if_neg (Nat.not_le.mpr hroom)

/-! ## The heap -/

theorem run_askHeap (f : Heap → Except Error α) (m : Machine) :
    (askHeap f).run m = ((f m.heap).mapError Fault.ofError, m) := rfl

theorem run_updateHeap (f : Heap → Except Error Heap) (m : Machine) :
    (updateHeap f).run m =
      match f m.heap with
      | .ok heap => (.ok (), { m with heap })
      | .error e => (.error (.ofError e), m) := by
  cases h : f m.heap <;>
    simp only [updateHeap, run_bind, run_askHeap, h, Except.mapError, run_modify]

@[simp] theorem run_setObject (handle : Handle) (o : HeapObject) (m : Machine) :
    (setObject handle o).run m = (.ok (), { m with heap := m.heap.set handle o }) := rfl

@[simp] theorem run_allocate (o : HeapObject) (m : Machine) :
    (allocate o).run m =
      (.ok (m.heap.allocate o).1, { m with heap := (m.heap.allocate o).2 }) := rfl

/-! ## Variables and operands -/

theorem run_cell (slot : Variable) (m : Machine) :
    (cell slot).run m =
      match m.frame.cell? slot with
      | some cell => (.ok cell, m)
      | none => (.error (.unknownVariable slot), m) := by
  cases h : m.frame.cell? slot <;> simp only [cell, run_bind, run_get, h, run_throw, run_pure]

@[simp] theorem run_setCell (slot : Variable) (v : Value) (m : Machine) :
    (setCell slot v).run m = (.ok (), { m with frame := m.frame.set slot v }) := rfl

@[simp] theorem run_setStatic (field : FieldRef) (v : Value) (m : Machine) :
    (setStatic field v).run m =
      (.ok (), { m with statics := m.statics.insert field.token.key v }) := rfl

@[simp] theorem run_operand_some (i : Instruction) (kind : String) (a : α) (m : Machine) :
    (operand i kind (some a)).run m = (.ok a, m) := rfl

theorem run_thenNext_of_ok {step : Step Unit} {m m' : Machine} (h : step.run m = (.ok (), m')) :
    (thenNext step).run m = (.ok .fallThrough, m') := by
  simp only [thenNext, run_bind, h, run_pure]

theorem run_thenNext_of_error {step : Step Unit} {m m' : Machine} {fault : Fault}
    (h : step.run m = (.error fault, m')) : (thenNext step).run m = (.error fault, m') := by
  simp only [thenNext, run_bind, h]

theorem run_thenNext_congr {step step' : Step Unit} {m m' : Machine}
    (h : step.run m = step'.run m') : (thenNext step).run m = (thenNext step').run m' := by
  simp only [thenNext, run_bind, h]

end Step

namespace Frame

/-- The cell of a variable that was stored in keeps its type. -/
theorem cell?_set_self {f : Frame} {slot : Variable} {cell : Cell} (v : Value)
    (hcell : f.cell? slot = some cell) :
    (f.set slot v).cell? slot = some { cell with value := v } := by
  cases slot with
  | loc index => exact (List.getElem?_modify_eq ..).trans (congrArg _ hcell)
  | arg index => exact (List.getElem?_modify_eq ..).trans (congrArg _ hcell)

/-- Storing in a variable leaves the others as they are. -/
theorem cell?_set {f : Frame} {slot other : Variable} (v : Value) (hne : other ≠ slot) :
    (f.set slot v).cell? other = f.cell? other := by
  cases slot with
  | loc index =>
      cases other with
      | loc index' =>
          exact List.getElem?_modify_ne _ _ fun heq => hne (heq ▸ rfl)
      | arg => rfl
  | arg index =>
      cases other with
      | loc => rfl
      | arg index' =>
          exact List.getElem?_modify_ne _ _ fun heq => hne (heq ▸ rfl)

end Frame

/-- Where no hook acts, an instruction is executed and nothing else is done. -/
theorem Interpreter.dispatch_eq_executeBare {p : Interpreter} (hhooks : p.hooks = []) (s : Setting)
    (i : Instruction) : p.dispatch s i = p.executeBare s i := by
  unfold dispatch
  rw [hhooks]
  rfl

/-- An interpreter that was given nothing but options has all operations and no hooks. -/
theorem Interpreter.dispatch_eq_execute (options : Options) (s : Setting) (i : Instruction) :
    ({ options } : Interpreter).dispatch s i = s.execute i := by
  rw [dispatch_eq_executeBare rfl]
  rfl

end CilAnalysis
