import CilAnalysis.Proofs.Machine.FrameIndependence

/-!
# What instructions do with variables

`Instruction.variablesRead` and `Instruction.variablesWritten` are lists of what an instruction
reads and writes, and the data flow of a method is computed from them.  Here they are compared with
what executing the instruction does (`Interpreter.dispatch_listsVariables`).  A variable that is not
listed as written keeps its value, unless its address is taken; of one that is not listed as read,
nothing but the variable itself depends.

## Strategy

The operations that do not use variables are done with in `Setting.perform_ignoresFrame`.  Four are
left, and two properties of steps are used for them.

* `Step.KeepsFrame`: no variable changes.  It holds of a load and of a jump, which look at
  variables.
* `Step.IgnoresValue`: with another value in a variable the outcome is the same and so is the state,
  but for the value of that variable.  The value that it has in the end may be the other one or not:
  a store in the variable overwrites both.

A store and the taking of an address both put a value in a variable that is made for the type of it,
and they are handled together (`Step.setTyped`).

A jump is an exception: it hands on all arguments and is not listed as reading any.
-/

namespace CilAnalysis

/-! ## The cells of a frame -/

namespace Frame

variable {f f' : Frame} {slot other : Variable}

private theorem ext_cell? (h : ∀ slot, f.cell? slot = f'.cell? slot) : f = f' := by
  have hlocals : f.locals = f'.locals := List.ext_getElem? fun n => h (.loc n)
  have harguments : f.arguments = f'.arguments := List.ext_getElem? fun n => h (.arg n)
  cases f
  simp_all

/-- Frames have the same variables if their cells have the same types. -/
theorem types_eq_of_cell?
    (h : ∀ slot, (f.cell? slot).map Cell.type = (f'.cell? slot).map Cell.type) :
    f.locals.map Cell.type = f'.locals.map Cell.type ∧
      f.arguments.map Cell.type = f'.arguments.map Cell.type := by
  constructor
  · refine List.ext_getElem? fun n => ?_
    rw [List.getElem?_map, List.getElem?_map]
    exact h (.loc n)
  · refine List.ext_getElem? fun n => ?_
    rw [List.getElem?_map, List.getElem?_map]
    exact h (.arg n)

/-- A value that is put in a variable is found there, if there is such a variable, and nowhere
else. -/
theorem cell?_set_eq_ite (f : Frame) (slot other : Variable) (v : Value) :
    (f.set slot v).cell? other =
      if other = slot then (f.cell? slot).map fun cell => { cell with value := v }
      else f.cell? other := by
  split
  next heq =>
    subst heq
    cases other with
    | loc index => exact List.getElem?_modify_eq ..
    | arg index => exact List.getElem?_modify_eq ..
  next hne => exact cell?_set v hne

private theorem type_cell?_set (f : Frame) (slot other : Variable) (v : Value) :
    ((f.set slot v).cell? other).map Cell.type = (f.cell? other).map Cell.type := by
  rw [cell?_set_eq_ite]
  split
  next heq =>
    rw [heq, Option.map_map]
    rfl
  next => rfl

private theorem set_set_self (f : Frame) (slot : Variable) (v v' : Value) :
    (f.set slot v).set slot v' = f.set slot v' := by
  refine ext_cell? fun other => ?_
  by_cases heq : other = slot
  · simp only [cell?_set_eq_ite, heq, if_true, Option.map_map]
    rfl
  · simp only [cell?_set_eq_ite, heq, if_false]

private theorem set_comm (hne : slot ≠ other) (f : Frame) (v v' : Value) :
    (f.set slot v).set other v' = (f.set other v').set slot v := by
  refine ext_cell? fun third => ?_
  simp only [cell?_set_eq_ite]
  grind

end Frame

namespace Step

variable {α β : Type} {x : Step α} {k : α → Step β} {slot other : Variable}

/-! ## Steps that keep the variables -/

/-- The step changes no variable, though it may look at them. -/
def KeepsFrame (x : Step α) : Prop := ∀ m, (x.run m).2.frame = m.frame

private theorem IgnoresFrame.keepsFrame (hx : IgnoresFrame x) : KeepsFrame x := by
  intro m
  rw [show x.run m = _ from hx m m.frame]

theorem KeepsFrame.bind (hx : KeepsFrame x) (hk : ∀ v, KeepsFrame (k v)) :
    KeepsFrame (x >>= k) := by
  intro m
  have hm := hx m
  rw [run_bind]
  revert hm
  rcases x.run m with ⟨fault | v, m'⟩
  · exact id
  · exact fun hm => (hk v m').trans hm

theorem KeepsFrame.cell (slot : Variable) : KeepsFrame (cell slot) := by
  intro m
  rw [run_cell]
  split <;> rfl

private theorem state_thenNext (x : Step Unit) (m : Machine) :
    ((thenNext x).run m).2 = (x.run m).2 := by
  unfold thenNext
  rw [run_bind]
  rcases x.run m with ⟨fault | v, m'⟩ <;> rfl

/-! ## Steps that ignore the value of a variable -/

/-- Nothing but the variable itself depends on its value. -/
def IgnoresValue (slot : Variable) (x : Step α) : Prop :=
  ∀ m v, ∃ u, x.run { m with frame := m.frame.set slot v } =
    ((x.run m).1, { (x.run m).2 with frame := (x.run m).2.frame.set slot u })

private theorem IgnoresFrame.ignoresValue (hx : IgnoresFrame x) (slot : Variable) :
    IgnoresValue slot x := by
  intro m v
  refine ⟨v, ?_⟩
  rw [hx.keepsFrame m]
  exact hx m _

namespace IgnoresValue

theorem bind (hx : IgnoresValue slot x) (hk : ∀ v, IgnoresValue slot (k v)) :
    IgnoresValue slot (x >>= k) := by
  intro m v
  obtain ⟨u, hu⟩ := hx m v
  rw [run_bind, run_bind, hu]
  rcases x.run m with ⟨fault | a, m'⟩
  · exact ⟨u, rfl⟩
  · exact hk a m' u

theorem cell (hne : other ≠ slot) : IgnoresValue slot (cell other) := by
  intro m v
  refine ⟨v, ?_⟩
  simp only [run_cell, Frame.cell?_set v hne]
  split <;> rfl

end IgnoresValue

/-- Put in a variable a value that is made for its type. -/
def setTyped (slot : Variable) (g : TypeSig → Value) : Step Unit := do
  let cell ← cell slot
  setCell slot (g cell.type)

private theorem run_setTyped (slot : Variable) (g : TypeSig → Value) (m : Machine) :
    (setTyped slot g).run m =
      match m.frame.cell? slot with
      | some cell => (.ok (), { m with frame := m.frame.set slot (g cell.type) })
      | none => (.error (.unknownVariable slot), m) := by
  unfold setTyped
  rw [run_bind, run_cell]
  cases m.frame.cell? slot <;> rfl

/-- A value that depends on nothing but the type of a variable may go in the same variable or in
another one. -/
theorem IgnoresValue.setTyped (slot other : Variable) (g : TypeSig → Value) :
    IgnoresValue slot (setTyped other g) := by
  intro m v
  have htype := m.frame.type_cell?_set slot other v
  simp only [run_setTyped]
  cases hcell : m.frame.cell? other with
  | none =>
      rw [hcell, Option.map_none, Option.map_eq_none_iff] at htype
      rw [htype]
      exact ⟨v, rfl⟩
  | some cell =>
      rw [hcell, Option.map_some, Option.map_eq_some_iff] at htype
      obtain ⟨cell', hcell', htype⟩ := htype
      rw [hcell']
      dsimp only
      rw [htype]
      by_cases heq : slot = other
      · -- What was in the variable before is overwritten.
        subst heq
        refine ⟨g cell.type, ?_⟩
        rw [Frame.set_set_self, Frame.set_set_self]
      · refine ⟨v, ?_⟩
        rw [Frame.set_comm heq]

end Step

namespace Setting

open Step

variable (s : Setting) (i : Instruction) {slot : Variable}

/-! ## Loads, stores and addresses -/

private theorem keepsFrame_loadVariable : KeepsFrame (s.loadVariable i) := by
  refine (IgnoresFrame.operand _).keepsFrame.bind fun slot => ?_
  exact (KeepsFrame.cell slot).bind fun cell => (IgnoresFrame.push s _).keepsFrame

private theorem keepsFrame_jump : KeepsFrame (s.jump i) := by
  refine (IgnoresFrame.operand _).keepsFrame.bind fun method => ?_
  refine KeepsFrame.bind (fun _ => rfl) fun m => IgnoresFrame.keepsFrame ?_
  refine (IgnoresFrame.invoke s method _).bind fun result => .ite ?_ (.pure _)
  exact (IgnoresFrame.setReturned _).bind fun _ => .pure _

private theorem ignoresValue_loadVariable (hslot : i.slot? ≠ some slot) :
    IgnoresValue slot (s.loadVariable i) := by
  unfold loadVariable
  cases hnamed : i.slot? with
  | none => exact IgnoresFrame.ignoresValue (.throw _) slot
  | some other =>
      have hne : other ≠ slot := fun heq => hslot (heq ▸ hnamed)
      exact (IgnoresValue.cell hne).bind fun _ => (IgnoresFrame.push s _).ignoresValue slot

private theorem ignoresValue_storeVariable (slot : Variable) :
    IgnoresValue slot (s.storeVariable i) := by
  refine ((IgnoresFrame.operand _).ignoresValue slot).bind fun other => ?_
  refine (IgnoresFrame.pop.ignoresValue slot).bind fun v => ?_
  exact .setTyped slot other fun type => v.coerce s.width type

private theorem ignoresValue_loadVariableAddress (slot : Variable) :
    IgnoresValue slot (s.loadVariableAddress i) := by
  refine ((IgnoresFrame.operand _).ignoresValue slot).bind fun other => ?_
  refine IgnoresValue.bind (.setTyped slot other (.unknownOf s.width)) fun _ => ?_
  exact (IgnoresFrame.push s _).ignoresValue slot

/-- A store succeeds and leaves the value taken in the variable, or it faults and changes no
variable. -/
theorem run_storeVariable_cases (m : Machine) :
    (∃ slot v rest cell, i.slot? = some slot ∧ m.stack = v :: rest ∧
      m.frame.cell? slot = some cell ∧ (s.storeVariable i).run m =
        (.ok (), { m with
          stack := rest
          frame := m.frame.set slot (v.coerce s.width cell.type) })) ∨
      ∃ fault m', (s.storeVariable i).run m = (.error fault, m') ∧ m'.frame = m.frame := by
  unfold storeVariable
  cases hslot : i.slot? with
  | none => exact .inr ⟨_, _, rfl, rfl⟩
  | some slot =>
      simp only [run_bind, run_operand_some]
      cases hstack : m.stack with
      | nil => exact .inr ⟨_, m, by rw [run_pop_nil hstack], rfl⟩
      | cons v rest =>
          have hset : s.setVariable slot v = setTyped slot fun type => v.coerce s.width type := rfl
          simp only [run_pop_cons hstack, hset, run_setTyped]
          cases hcell : m.frame.cell? slot with
          | none => exact .inr ⟨_, _, rfl, rfl⟩
          | some cell => exact .inl ⟨slot, v, rest, cell, rfl, rfl, hcell, rfl⟩

/-- A variable whose address is taken is unknown from then on, also if the address finds no room on
the stack. -/
theorem cell?_loadVariableAddress (m : Machine) (slot : Variable) :
    ((s.loadVariableAddress i).run m).2.frame.cell? slot =
      if i.slot? = some slot then
        (m.frame.cell? slot).map fun cell => { cell with value := .unknownOf s.width cell.type }
      else m.frame.cell? slot := by
  unfold loadVariableAddress
  cases hslot : i.slot? with
  | none => rfl
  | some named =>
      have hset : s.forgetVariable named = setTyped named (.unknownOf s.width) := rfl
      simp only [run_bind, run_operand_some, hset, run_setTyped]
      cases hcell : m.frame.cell? named with
      | none =>
          dsimp only
          split
          next heq =>
            rw [← Option.some.inj heq, hcell]
            rfl
          next => rfl
      | some cell =>
          dsimp only [pushUnknownAddress]
          -- The variable is forgotten before the push, which may fault.
          rw [(IgnoresFrame.push s _).keepsFrame, Frame.cell?_set_eq_ite]
          split
          next heq =>
            subst heq
            rw [if_pos rfl, hcell]
            rfl
          next hne => rw [if_neg fun heq => hne (Option.some.inj heq).symm]

/-! ## All operations -/

private theorem perform_keepsFrame {o : Operation} (hstore : o ≠ .storeVariable)
    (haddress : o ≠ .loadVariableAddress) : KeepsFrame (s.perform i o) := by
  cases huses : o.usesVariables with
  | false => exact (s.perform_ignoresFrame i huses).keepsFrame
  | true =>
      cases o with
      | loadVariable =>
          exact (s.keepsFrame_loadVariable i).bind fun _ => (IgnoresFrame.pure _).keepsFrame
      | jump => exact s.keepsFrame_jump i
      | storeVariable => exact absurd rfl hstore
      | loadVariableAddress => exact absurd rfl haddress
      | _ => exact nomatch huses

private theorem perform_ignoresValue {o : Operation} (hjump : o ≠ .jump)
    (hslot : o = .loadVariable → i.slot? ≠ some slot) : IgnoresValue slot (s.perform i o) := by
  have hnext {x : Step Unit} (hx : IgnoresValue slot x) : IgnoresValue slot (thenNext x) :=
    hx.bind fun _ => (IgnoresFrame.pure _).ignoresValue slot
  cases huses : o.usesVariables with
  | false => exact (s.perform_ignoresFrame i huses).ignoresValue slot
  | true =>
      cases o with
      | loadVariable => exact hnext (s.ignoresValue_loadVariable i (hslot rfl))
      | storeVariable => exact hnext (s.ignoresValue_storeVariable i slot)
      | loadVariableAddress => exact hnext (s.ignoresValue_loadVariableAddress i slot)
      | jump => exact absurd rfl hjump
      | _ => exact nomatch huses

end Setting

/-! ## Instructions -/

namespace Opcode

variable {opcode : Opcode}

/-- The opcodes that load a variable. -/
def variableLoads : List Opcode :=
  [ldarg_0, ldarg_1, ldarg_2, ldarg_3, ldarg_s, ldarg,
    ldloc_0, ldloc_1, ldloc_2, ldloc_3, ldloc_s, ldloc]

/-- The opcodes that store in a variable. -/
def variableStores : List Opcode :=
  [starg_s, starg, stloc_0, stloc_1, stloc_2, stloc_3, stloc_s, stloc]

/-- The opcodes that take the address of a variable. -/
def variableAddresses : List Opcode := [ldarga_s, ldarga, ldloca_s, ldloca]

private theorem operation_eq_loadVariable_iff :
    opcode.operation = .loadVariable ↔ opcode ∈ variableLoads := by
  cases opcode <;> decide

private theorem operation_eq_storeVariable_iff :
    opcode.operation = .storeVariable ↔ opcode ∈ variableStores := by
  cases opcode <;> decide

private theorem operation_eq_loadVariableAddress_iff :
    opcode.operation = .loadVariableAddress ↔ opcode ∈ variableAddresses := by
  cases opcode <;> decide

private theorem operation_eq_jump_iff : opcode.operation = .jump ↔ opcode = .jmp := by
  cases opcode <;> decide

end Opcode

namespace Instruction

variable {i : Instruction} {slot : Variable}

private theorem mem_variablesRead_iff :
    slot ∈ i.variablesRead ↔ i.opcode.operation = .loadVariable ∧ i.slot? = some slot := by
  unfold variablesRead
  split <;> simp_all

private theorem mem_variablesWritten_iff :
    slot ∈ i.variablesWritten ↔ i.opcode.operation = .storeVariable ∧ i.slot? = some slot := by
  unfold variablesWritten
  split <;> simp_all

/-- What a step does with variables is what is listed for an instruction. -/
structure ListsVariables (i : Instruction) (s : Setting) (x : Step Successor) : Prop where
  /-- Listed as read is what a load names. -/
  read_iff (slot : Variable) :
    slot ∈ i.variablesRead ↔ i.opcode ∈ Opcode.variableLoads ∧ i.slot? = some slot
  /-- Listed as written is what a store names. -/
  written_iff (slot : Variable) :
    slot ∈ i.variablesWritten ↔ i.opcode ∈ Opcode.variableStores ∧ i.slot? = some slot
  /-- No variable is added or removed, and none gets another type. -/
  types (m : Machine) :
    (x.run m).2.frame.locals.map Cell.type = m.frame.locals.map Cell.type ∧
      (x.run m).2.frame.arguments.map Cell.type = m.frame.arguments.map Cell.type
  /-- A variable that is not listed as written keeps its value, unless its address is taken, after
  which nothing is known of it. -/
  unwritten (m : Machine) (slot : Variable) (hslot : slot ∉ i.variablesWritten) :
    (x.run m).2.frame.cell? slot =
      if i.opcode ∈ Opcode.variableAddresses ∧ i.slot? = some slot then
        (m.frame.cell? slot).map fun cell => { cell with value := .unknownOf s.width cell.type }
      else m.frame.cell? slot
  /-- After a success, a variable that is listed as written holds the value that was taken from the
  stack, converted to its type. -/
  written {m m' : Machine} {t : Successor} (hrun : x.run m = (.ok t, m')) (slot : Variable)
    (hslot : slot ∈ i.variablesWritten) :
    ∃ v cell, m.stack = v :: m'.stack ∧ m.frame.cell? slot = some cell ∧
      m'.frame.cell? slot = some { cell with value := v.coerce s.width cell.type }
  /-- A store that faults changes no variable. -/
  unchanged {m m' : Machine} {fault : Fault} (hrun : x.run m = (.error fault, m'))
    (slot : Variable) (hslot : slot ∈ i.variablesWritten) : m'.frame = m.frame
  /-- Of a variable that is not listed as read, nothing depends but the variable itself.  A jump
  hands all arguments on and lists none. -/
  unread (hjump : i.opcode ≠ .jmp) (slot : Variable) (hslot : slot ∉ i.variablesRead) :
    x.IgnoresValue slot

end Instruction

namespace Setting

open Step

variable (s : Setting) {i : Instruction}

private theorem execute_store_cases (hop : i.opcode.operation = .storeVariable) (m : Machine) :
    (∃ slot v rest cell, i.slot? = some slot ∧ m.stack = v :: rest ∧
      m.frame.cell? slot = some cell ∧ (s.execute i).run m =
        (.ok .fallThrough, { m with
          stack := rest
          frame := m.frame.set slot (v.coerce s.width cell.type) })) ∨
      ∃ fault m', (s.execute i).run m = (.error fault, m') ∧ m'.frame = m.frame := by
  have hexecute : s.execute i = thenNext (s.storeVariable i) := by
    rw [execute, hop]
    rfl
  rw [hexecute]
  rcases s.run_storeVariable_cases i m with
    ⟨slot, v, rest, cell, hslot, hstack, hcell, hrun⟩ | ⟨fault, m', hrun, hframe⟩
  · exact .inl ⟨slot, v, rest, cell, hslot, hstack, hcell, run_thenNext_of_ok hrun⟩
  · exact .inr ⟨fault, m', run_thenNext_of_error hrun, hframe⟩

private theorem cell?_execute_address (hop : i.opcode.operation = .loadVariableAddress)
    (m : Machine) (slot : Variable) :
    ((s.execute i).run m).2.frame.cell? slot =
      if i.slot? = some slot then
        (m.frame.cell? slot).map fun cell => { cell with value := .unknownOf s.width cell.type }
      else m.frame.cell? slot := by
  have hexecute : s.execute i = thenNext (s.loadVariableAddress i) := by
    rw [execute, hop]
    rfl
  rw [hexecute, state_thenNext]
  exact s.cell?_loadVariableAddress i m slot

private theorem type_cell?_execute (i : Instruction) (m : Machine) (slot : Variable) :
    (((s.execute i).run m).2.frame.cell? slot).map Cell.type =
      (m.frame.cell? slot).map Cell.type := by
  by_cases hstore : i.opcode.operation = .storeVariable
  · rcases s.execute_store_cases hstore m with
      ⟨named, v, rest, cell, -, -, -, hrun⟩ | ⟨fault, m', hrun, hframe⟩
    · rw [hrun]
      exact m.frame.type_cell?_set named slot _
    · rw [hrun, hframe]
  by_cases haddress : i.opcode.operation = .loadVariableAddress
  · rw [s.cell?_execute_address haddress m slot]
    split
    · rw [Option.map_map]
      rfl
    · rfl
  · rw [execute, s.perform_keepsFrame i hstore haddress m]

private theorem cell?_execute_of_not_mem {slot : Variable} (hslot : slot ∉ i.variablesWritten)
    (m : Machine) :
    ((s.execute i).run m).2.frame.cell? slot =
      if i.opcode.operation = .loadVariableAddress ∧ i.slot? = some slot then
        (m.frame.cell? slot).map fun cell => { cell with value := .unknownOf s.width cell.type }
      else m.frame.cell? slot := by
  by_cases hstore : i.opcode.operation = .storeVariable
  · have hother : i.opcode.operation ≠ .loadVariableAddress := by
      rw [hstore]
      exact nofun
    rw [if_neg fun h => hother h.1]
    rcases s.execute_store_cases hstore m with
      ⟨named, v, rest, cell, hnamed, -, -, hrun⟩ | ⟨fault, m', hrun, hframe⟩
    · rw [hrun]
      refine Frame.cell?_set _ ?_
      rintro rfl
      exact hslot (Instruction.mem_variablesWritten_iff.mpr ⟨hstore, hnamed⟩)
    · rw [hrun, hframe]
  by_cases haddress : i.opcode.operation = .loadVariableAddress
  · rw [s.cell?_execute_address haddress m slot]
    simp only [haddress, true_and]
  · rw [if_neg fun h => haddress h.1, execute, s.perform_keepsFrame i hstore haddress m]

end Setting

/-- The lists of variables that instructions read and write are right about what dispatching them
does, whether it succeeds or faults. -/
theorem Interpreter.dispatch_listsVariables (s : Setting) (i : Instruction) :
    i.ListsVariables s (({} : Interpreter).dispatch s i) := by
  rw [dispatch_eq_execute]
  refine ⟨fun slot => ?_, fun slot => ?_, fun m => ?_, fun m slot hslot => ?_,
    fun {m m' t} hrun slot hslot => ?_, fun {m m' fault} hrun slot hslot => ?_,
    fun hjump slot hslot => ?_⟩
  · rw [Instruction.mem_variablesRead_iff, Opcode.operation_eq_loadVariable_iff]
  · rw [Instruction.mem_variablesWritten_iff, Opcode.operation_eq_storeVariable_iff]
  · exact Frame.types_eq_of_cell? (s.type_cell?_execute i m)
  · rw [s.cell?_execute_of_not_mem hslot m]
    simp only [Opcode.operation_eq_loadVariableAddress_iff]
  · -- Written: the operation is a store, and it succeeded.
    obtain ⟨hop, hslot⟩ := Instruction.mem_variablesWritten_iff.mp hslot
    rcases s.execute_store_cases hop m with
      ⟨named, v, rest, cell, hnamed, hstack, hcell, hok⟩ | ⟨fault, m'', herror, -⟩
    · obtain rfl : named = slot := Option.some.inj (hnamed.symm.trans hslot)
      obtain rfl : _ = m' := congrArg Prod.snd (hok.symm.trans hrun)
      exact ⟨v, cell, hstack, hcell, Frame.cell?_set_self _ hcell⟩
    · exact absurd (congrArg Prod.fst (herror.symm.trans hrun)) nofun
  · -- Unchanged: the operation is a store, and it faulted.
    obtain ⟨hop, -⟩ := Instruction.mem_variablesWritten_iff.mp hslot
    rcases s.execute_store_cases hop m with
      ⟨_, _, _, _, -, -, -, hok⟩ | ⟨_, m'', herror, hframe⟩
    · exact absurd (congrArg Prod.fst (hok.symm.trans hrun)) nofun
    · obtain rfl : m'' = m' := congrArg Prod.snd (herror.symm.trans hrun)
      exact hframe
  · -- Unread: a load of the variable would be listed.
    have hop : i.opcode.operation ≠ .jump := mt Opcode.operation_eq_jump_iff.mp hjump
    refine s.perform_ignoresValue i hop fun hload hnamed => ?_
    exact hslot (Instruction.mem_variablesRead_iff.mpr ⟨hload, hnamed⟩)

/-- A number of more than eight bits before it is stored in a byte, with no room on the stack for
another value. -/
def beforeNarrowStore : Machine where
  stack := [.ofInt32 300]
  frame := ⟨[⟨.uint8, .ofInt32 7⟩, ⟨.int32, .ofInt32 5⟩], []⟩

/-- The store leaves the lowest byte, whatever was there, and spares the other variable; taking the
address of that one faults and forgets it all the same. -/
theorem Interpreter.dispatch_listsVariables_narrowStore :
    let s : Setting := { options := { maxStackDepth := 1 } }
    let store := ({} : Interpreter).dispatch s ⟨0, .stloc_0, .none, 1⟩
    let address := ({} : Interpreter).dispatch s ⟨1, .ldloca_s, .slot (.loc 1), 2⟩
    (∃ m', store.run beforeNarrowStore = (.ok .fallThrough, m') ∧
      m'.frame.cell? (.loc 0) = some ⟨.uint8, .ofInt32 44⟩ ∧
      m'.frame.cell? (.loc 1) = some ⟨.int32, .ofInt32 5⟩) ∧
    store.IgnoresValue (.loc 0) ∧
    (address.run beforeNarrowStore).1.isOk = false ∧
    (address.run beforeNarrowStore).2.frame.cell? (.loc 1) =
      some ⟨.int32, .unknownOf s.width .int32⟩ := by
  intro s store address
  have hstores := dispatch_listsVariables s ⟨0, .stloc_0, .none, 1⟩
  have haddress := dispatch_listsVariables s ⟨1, .ldloca_s, .slot (.loc 1), 2⟩
  have hrun : store.run beforeNarrowStore = (.ok .fallThrough, _) := rfl
  obtain ⟨v, cell, hstack, hcell, hafter⟩ := hstores.written hrun (.loc 0) (by decide)
  obtain rfl : Value.ofInt32 300 = v := (List.cons.inj hstack).1
  obtain rfl : (⟨.uint8, .ofInt32 7⟩ : Cell) = cell := Option.some.inj hcell
  have hbyte : (Value.ofInt32 300).coerce s.width .uint8 = .ofInt32 44 := by decide
  refine ⟨⟨_, hrun, ?_, hstores.unwritten beforeNarrowStore (.loc 1) (by decide)⟩,
    hstores.unread (by decide) (.loc 0) (by decide), rfl,
    haddress.unwritten beforeNarrowStore (.loc 1) (by decide)⟩
  rw [hafter, hbyte]

end CilAnalysis
