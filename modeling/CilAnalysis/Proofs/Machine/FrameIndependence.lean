import CilAnalysis.Proofs.Machine.Step

/-!
# Operations that ignore variables

All operations but four neither look at the variables of the method nor change them.  One equation
says both of a step: made with other variables, it has the same outcome and leaves the same state
with those other variables (`Step.IgnoresFrame`).  That no variable changes is the case of the same
variables.  The main result is `Setting.perform_ignoresFrame`.

## Strategy

The property goes through the structure of a step.  It holds of the primitive steps on the stack,
the heap, the static fields and the environment, because each changes one other part of the state,
and it is kept by `IgnoresFrame.bind`.  For an operation nothing is left but to follow its text.

Reading the state is the one primitive that does not ignore variables: it returns them.  The bind
after it therefore needs a rule of its own (`IgnoresFrame.get_bind`), which asks that what comes
next is the same step whatever the variables are.  Where the rest of the state only is used this is
true by definition.

The four operations that are left out load, store or take the address of a variable, or hand on all
arguments (`Operation.usesVariables`).
-/

namespace CilAnalysis

/-- The operation loads, stores or takes the address of a variable, or hands the arguments on. -/
def Operation.usesVariables : Operation → Bool
  | loadVariable | storeVariable | loadVariableAddress | jump => true
  | _ => false

namespace Step

variable {α β : Type}

/-! ## The judgement -/

/-- The step neither looks at the variables nor changes them. -/
def IgnoresFrame (x : Step α) : Prop :=
  ∀ m f, x.run { m with frame := f } = ((x.run m).1, { (x.run m).2 with frame := f })

namespace IgnoresFrame

variable {x : Step α} {k : α → Step β}

theorem pure (v : α) : IgnoresFrame (pure v : Step α) := fun _ _ => rfl

theorem throw (fault : Fault) : IgnoresFrame (throw fault : Step α) := fun _ _ => rfl

theorem attempt (r : Except Fault α) : IgnoresFrame (attempt r) := fun _ _ => rfl

theorem ofResult (r : Except Error α) : IgnoresFrame (ofResult r) := fun _ _ => rfl

theorem modify {g : Machine → Machine}
    (h : ∀ m f, g { m with frame := f } = { g m with frame := f }) :
    IgnoresFrame (modify g : Step Unit) := by
  intro m f
  rw [run_modify, run_modify, h]

theorem bind (hx : IgnoresFrame x) (hk : ∀ v, IgnoresFrame (k v)) : IgnoresFrame (x >>= k) := by
  intro m f
  rw [run_bind, run_bind, hx m f]
  rcases x.run m with ⟨fault | v, m'⟩
  · rfl
  · exact hk v m' f

/-- A step may look at the state if it does not come to look at the variables. -/
theorem get_bind {k : Machine → Step β} (hsame : ∀ m f, k { m with frame := f } = k m)
    (hk : ∀ m, IgnoresFrame (k m)) : IgnoresFrame (get >>= k) := by
  intro m f
  simp only [run_bind, run_get]
  rw [hsame, hk]

theorem ite {c : Prop} [Decidable c] {y : Step α} (hx : IgnoresFrame x) (hy : IgnoresFrame y) :
    IgnoresFrame (if c then x else y) := by
  split
  · exact hx
  · exact hy

theorem thenNext {x : Step Unit} (hx : IgnoresFrame x) : IgnoresFrame (thenNext x) :=
  hx.bind fun _ => pure _

/-! ### The stack and the heap -/

theorem pop : IgnoresFrame pop := by
  refine get_bind (fun _ _ => rfl) fun m => ?_
  split
  · exact (modify fun _ _ => rfl).bind fun _ => pure _
  · exact throw _

theorem popMany (count : Nat) : IgnoresFrame (popMany count) := by
  refine get_bind (fun _ _ => rfl) fun m => ?_
  exact ite (throw _) ((modify fun _ _ => rfl).bind fun _ => pure _)

theorem peek : IgnoresFrame peek := by
  refine get_bind (fun _ _ => rfl) fun m => ?_
  split
  · exact pure _
  · exact throw _

theorem push (s : Setting) (v : Value) : IgnoresFrame (s.push v) := by
  refine get_bind (fun _ _ => rfl) fun m => ?_
  exact ite (throw _) (modify fun _ _ => rfl)

theorem clearStack : IgnoresFrame clearStack := modify fun _ _ => rfl

theorem askHeap (f : Heap → Except Error α) : IgnoresFrame (askHeap f) :=
  get_bind (fun _ _ => rfl) fun _ => ofResult _

theorem updateHeap (f : Heap → Except Error Heap) : IgnoresFrame (updateHeap f) :=
  (askHeap f).bind fun _ => modify fun _ _ => rfl

theorem setObject (handle : Handle) (o : HeapObject) : IgnoresFrame (setObject handle o) :=
  modify fun _ _ => rfl

theorem allocate (o : HeapObject) : IgnoresFrame (allocate o) := fun _ _ => rfl

/-! ### Operands, static fields and the environment -/

theorem operand {i : Instruction} {kind : String} (named : Option α) :
    IgnoresFrame (operand i kind named) := by
  cases named with
  | none => exact throw _
  | some v => exact pure v

theorem setStatic (field : FieldRef) (v : Value) : IgnoresFrame (setStatic field v) :=
  modify fun _ _ => rfl

theorem note (question : Question) : IgnoresFrame (note question) := modify fun _ _ => rfl

theorem setReturned (v : Value) : IgnoresFrame (setReturned v) := modify fun _ _ => rfl

theorem loadStatic (s : Setting) (field : FieldRef) : IgnoresFrame (s.loadStatic field) := by
  refine get_bind (fun _ _ => rfl) fun m => ?_
  split
  · exact pure _
  · exact (note _).bind fun _ => (setStatic field _).bind fun _ => pure _

theorem resolve (s : Setting) (receiver : Option TypeSig) (method : MethodRef) :
    IgnoresFrame (s.resolve receiver method) :=
  (note _).bind fun _ => pure _

theorem invoke (s : Setting) (method : MethodRef) (arguments : List Value) :
    IgnoresFrame (s.invoke method arguments) :=
  (note _).bind fun _ => attempt _

theorem isInstance (s : Setting) (type target : TypeSig) :
    IgnoresFrame (s.isInstance type target) :=
  (note _).bind fun _ => pure _

end IgnoresFrame

end Step

namespace Setting

open Step

variable (s : Setting) (i : Instruction)

/-! ## Numbers and branches -/

private theorem ignoresFrame_onTop (f : Value → Except Fault Value) : IgnoresFrame (s.onTop f) :=
  IgnoresFrame.pop.bind fun _ => (IgnoresFrame.attempt _).bind fun v => .push s v

private theorem ignoresFrame_onTopTwo (f : Value → Value → Except Fault Value) :
    IgnoresFrame (s.onTopTwo f) := by
  refine IgnoresFrame.pop.bind fun rhs => IgnoresFrame.pop.bind fun lhs => ?_
  exact (IgnoresFrame.attempt _).bind fun v => .push s v

private theorem ignoresFrame_branchIf (condition : Ternary) :
    IgnoresFrame (branchIf i condition) := by
  refine (IgnoresFrame.operand _).bind fun target => ?_
  cases condition <;> exact .pure _

private theorem ignoresFrame_branchOnComparison (c : Comparison) (unsigned whenHolds : Bool) :
    IgnoresFrame (s.branchOnComparison i c unsigned whenHolds) := by
  refine IgnoresFrame.pop.bind fun rhs => IgnoresFrame.pop.bind fun lhs => ?_
  exact (IgnoresFrame.attempt _).bind fun _ => ignoresFrame_branchIf i _

private theorem ignoresFrame_switch : IgnoresFrame (Step.switch i) := by
  refine (IgnoresFrame.operand _).bind fun table => IgnoresFrame.pop.bind fun index => ?_
  exact (IgnoresFrame.attempt _).bind fun _ => .pure _

private theorem ignoresFrame_ret : IgnoresFrame s.ret := by
  unfold Setting.ret
  refine .ite ?_ (.pure _)
  exact IgnoresFrame.pop.bind fun v => (IgnoresFrame.setReturned v).bind fun _ => .pure _

private theorem ignoresFrame_throws (again : Bool) : IgnoresFrame (Step.throws again) := by
  unfold Step.throws
  refine .ite ?_ (.pure _)
  refine IgnoresFrame.pop.bind fun v => .ite (.throw _) ?_
  exact IgnoresFrame.bind (.modify fun _ _ => rfl) fun _ => .pure _

/-! ## Addresses -/

private theorem ignoresFrame_loadAt (type : TypeSig) (address : Value) :
    IgnoresFrame (s.loadAt type address) := by
  refine (IgnoresFrame.attempt _).bind fun pointer => ?_
  cases pointer with
  | none => exact .pure _
  | some p => exact .askHeap _

private theorem ignoresFrame_storeAt (type : TypeSig) (address v : Value) :
    IgnoresFrame (s.storeAt type address v) := by
  refine (IgnoresFrame.attempt _).bind fun pointer => ?_
  cases pointer with
  | none => exact .pure _
  | some p => exact .updateHeap _

private theorem ignoresFrame_loadIndirect (type : TypeSig) : IgnoresFrame (s.loadIndirect type) :=
  IgnoresFrame.pop.bind fun address =>
    (s.ignoresFrame_loadAt type address).bind fun v => .push s v

private theorem ignoresFrame_storeIndirect (type : TypeSig) : IgnoresFrame (s.storeIndirect type) :=
  IgnoresFrame.pop.bind fun v => IgnoresFrame.pop.bind fun address =>
    s.ignoresFrame_storeAt type address v

private theorem ignoresFrame_moveObject (move : ObjectMove) :
    IgnoresFrame (s.moveObject i move) := by
  refine (IgnoresFrame.operand _).bind fun type => ?_
  cases move with
  | load => exact s.ignoresFrame_loadIndirect type
  | store => exact s.ignoresFrame_storeIndirect type
  | copy =>
      refine IgnoresFrame.pop.bind fun source => IgnoresFrame.pop.bind fun destination => ?_
      exact (s.ignoresFrame_loadAt type source).bind fun v =>
        s.ignoresFrame_storeAt type destination v
  | init => exact IgnoresFrame.pop.bind fun address => s.ignoresFrame_storeAt type address _

private theorem ignoresFrame_localAlloc : IgnoresFrame s.localAlloc := by
  refine IgnoresFrame.pop.bind fun size => (IgnoresFrame.attempt _).bind fun count => ?_
  split
  · exact (IgnoresFrame.allocate _).bind fun _ => .push s _
  · exact .push s _

private theorem ignoresFrame_copyBlock : IgnoresFrame Step.copyBlock := by
  refine IgnoresFrame.pop.bind fun size => IgnoresFrame.pop.bind fun source => ?_
  refine IgnoresFrame.pop.bind fun destination => (IgnoresFrame.attempt _).bind fun count => ?_
  refine (IgnoresFrame.attempt _).bind fun target => ?_
  cases target with
  | none => exact .pure _
  | some p =>
      refine (IgnoresFrame.attempt _).bind fun origin => ?_
      split <;> exact .updateHeap _

private theorem ignoresFrame_initBlock : IgnoresFrame Step.initBlock := by
  refine IgnoresFrame.pop.bind fun size => IgnoresFrame.pop.bind fun v => ?_
  refine IgnoresFrame.pop.bind fun destination => (IgnoresFrame.attempt _).bind fun count => ?_
  refine (IgnoresFrame.attempt _).bind fun target => ?_
  split
  · exact .pure _
  · exact .updateHeap _
  · exact .updateHeap _

/-! ## Arrays -/

private theorem ignoresFrame_array (handle : Handle) : IgnoresFrame (Step.array handle) := by
  refine (IgnoresFrame.askHeap _).bind fun object => ?_
  split
  · exact .pure _
  · exact .throw _

private theorem ignoresFrame_element (array index : Value) :
    IgnoresFrame (Step.element array index) := by
  refine (IgnoresFrame.attempt _).bind fun named => ?_
  cases named with
  | none => exact .pure _
  | some handle =>
      refine (ignoresFrame_array handle).bind fun a => (IgnoresFrame.attempt _).bind fun place => ?_
      cases place with
      | none => exact .pure _
      | some n => exact .ite (.pure _) (.throw _)

private theorem ignoresFrame_newArray : IgnoresFrame (s.newArray i) := by
  refine (IgnoresFrame.operand _).bind fun element => IgnoresFrame.pop.bind fun length => ?_
  refine (IgnoresFrame.attempt _).bind fun count => ?_
  cases count with
  | none => exact .push s _
  | some n =>
      refine .ite (.throw _) (.ite ?_ (.push s _))
      exact (IgnoresFrame.allocate _).bind fun _ => .push s _

private theorem ignoresFrame_arrayLength : IgnoresFrame s.arrayLength := by
  refine IgnoresFrame.pop.bind fun v => (IgnoresFrame.attempt _).bind fun named => ?_
  cases named with
  | none => exact .push s _
  | some handle => exact (ignoresFrame_array handle).bind fun _ => .push s _

private theorem ignoresFrame_loadElement (type : Option TypeSig) :
    IgnoresFrame (s.loadElement i type) := by
  refine IgnoresFrame.pop.bind fun index => IgnoresFrame.pop.bind fun array => ?_
  refine (ignoresFrame_element array index).bind fun found => ?_
  split <;> exact .push s _

private theorem ignoresFrame_setElement (array index : Value) (v : TypeSig → Value) :
    IgnoresFrame (s.setElement array index v) := by
  refine (ignoresFrame_element array index).bind fun found => ?_
  split
  · exact (IgnoresFrame.ofResult _).bind fun _ => .setObject _ _
  · exact .setObject _ _
  · exact .pure _

private theorem ignoresFrame_storeElement : IgnoresFrame s.storeElement := by
  refine IgnoresFrame.pop.bind fun v => IgnoresFrame.pop.bind fun index => ?_
  exact IgnoresFrame.pop.bind fun array => s.ignoresFrame_setElement array index _

private theorem ignoresFrame_loadElementAddress : IgnoresFrame s.loadElementAddress := by
  refine IgnoresFrame.pop.bind fun index => IgnoresFrame.pop.bind fun array => ?_
  exact (s.ignoresFrame_setElement array index _).bind fun _ => .push s _

/-! ## Calls -/

private theorem ignoresFrame_popArguments (signature : MethodSignature) :
    IgnoresFrame (s.popArguments signature) :=
  (IgnoresFrame.popMany _).bind fun _ => .pure _

private theorem ignoresFrame_pushResult (signature : MethodSignature) (result : Option Value) :
    IgnoresFrame (s.pushResult signature result) := by
  refine .ite ?_ (.pure _)
  cases result <;> exact .push s _

private theorem ignoresFrame_receiverType? (arguments : List Value) :
    IgnoresFrame (receiverType? arguments) := by
  cases arguments with
  | nil => exact .pure _
  | cons v _ =>
      refine (IgnoresFrame.attempt _).bind fun receiver => ?_
      cases receiver with
      | none => exact .pure _
      | some handle => exact .askHeap _

private theorem ignoresFrame_call (virtual : Bool) : IgnoresFrame (s.call i virtual) := by
  refine (IgnoresFrame.operand _).bind fun method => ?_
  refine (s.ignoresFrame_popArguments _).bind fun arguments => ?_
  cases virtual with
  | false =>
      exact (IgnoresFrame.invoke s method arguments).bind fun _ => s.ignoresFrame_pushResult _ _
  | true =>
      refine (ignoresFrame_receiverType? arguments).bind fun receiver => ?_
      refine (IgnoresFrame.resolve s receiver method).bind fun target => ?_
      cases target with
      | method target =>
          exact (IgnoresFrame.invoke s target arguments).bind fun _ => s.ignoresFrame_pushResult _ _
      | signature signature => exact s.ignoresFrame_pushResult signature none
      | failure fault => exact .throw fault
      | unknownReceiver => exact s.ignoresFrame_pushResult _ none

private theorem ignoresFrame_callIndirect : IgnoresFrame (s.callIndirect i) := by
  refine (IgnoresFrame.operand _).bind fun signature => IgnoresFrame.pop.bind fun _ => ?_
  exact (s.ignoresFrame_popArguments _).bind fun _ => s.ignoresFrame_pushResult _ _

private theorem ignoresFrame_newObject : IgnoresFrame (s.newObject i) := by
  refine (IgnoresFrame.operand _).bind fun method => ?_
  refine (s.ignoresFrame_popArguments _).bind fun arguments => ?_
  refine (IgnoresFrame.allocate _).bind fun handle => ?_
  exact (IgnoresFrame.invoke s method _).bind fun _ => .push s _

/-! ## Fields, casts and boxes -/

private theorem ignoresFrame_popOwner (ofObject : Bool) : IgnoresFrame (popOwner ofObject) := by
  cases ofObject with
  | false => exact .pure _
  | true => exact IgnoresFrame.pop.bind fun _ => .pure _

private theorem ignoresFrame_owner? (owner : Option Value) : IgnoresFrame (owner? owner) := by
  cases owner with
  | none => exact .pure _
  | some v =>
      refine (IgnoresFrame.attempt _).bind fun receiver => ?_
      cases receiver with
      | none => exact .pure _
      | some handle =>
          refine (IgnoresFrame.askHeap _).bind fun object => ?_
          split <;> exact .pure _

private theorem ignoresFrame_setField (field : FieldRef) (owner : Option Value) (v : Value) :
    IgnoresFrame (setField field owner v) := by
  refine (ignoresFrame_owner? owner).bind fun found => ?_
  split
  · exact .setObject _ _
  · exact .pure _

private theorem ignoresFrame_loadField (ofObject : Bool) :
    IgnoresFrame (s.loadField i ofObject) := by
  refine (IgnoresFrame.operand _).bind fun field => (ignoresFrame_popOwner _).bind fun owner => ?_
  refine .ite ((IgnoresFrame.loadStatic s field).bind fun _ => .push s _) ?_
  refine (ignoresFrame_owner? owner).bind fun found => ?_
  split <;> exact .push s _

private theorem ignoresFrame_storeField (ofObject : Bool) :
    IgnoresFrame (s.storeField i ofObject) := by
  refine (IgnoresFrame.operand _).bind fun field => IgnoresFrame.pop.bind fun v => ?_
  refine (ignoresFrame_popOwner _).bind fun owner => ?_
  exact .ite (.setStatic field _) (ignoresFrame_setField field owner _)

private theorem ignoresFrame_loadFieldAddress (ofObject : Bool) :
    IgnoresFrame (s.loadFieldAddress i ofObject) := by
  refine (IgnoresFrame.operand _).bind fun field => (ignoresFrame_popOwner _).bind fun owner => ?_
  refine .ite ?_ ?_
  · exact (IgnoresFrame.setStatic field _).bind fun _ => .push s _
  · exact (ignoresFrame_setField field owner _).bind fun _ => .push s _

private theorem ignoresFrame_refersToInstance (r : Reference) (target : TypeSig) :
    IgnoresFrame (s.refersToInstance r target) := by
  cases r with
  | known handle => exact (IgnoresFrame.askHeap _).bind fun _ => .isInstance s _ target
  | null | unknown => exact .pure _

private theorem ignoresFrame_cast (orFault : Bool) : IgnoresFrame (s.cast i orFault) := by
  refine (IgnoresFrame.operand _).bind fun target => IgnoresFrame.pop.bind fun v => ?_
  refine (IgnoresFrame.attempt _).bind fun r => ?_
  refine (s.ignoresFrame_refersToInstance r target).bind fun verdict => ?_
  split
  · exact .push s _
  · exact .push s _
  · exact .ite (.throw _) (.push s _)
  · exact .push s _

private theorem ignoresFrame_box : IgnoresFrame (s.box i) := by
  refine (IgnoresFrame.operand _).bind fun type => IgnoresFrame.pop.bind fun v => ?_
  exact .ite ((IgnoresFrame.allocate _).bind fun _ => .push s _) (.push s v)

private theorem ignoresFrame_boxedValue (r : Reference) (type : TypeSig) :
    IgnoresFrame (s.boxedValue r type) := by
  cases r with
  | known handle =>
      refine (IgnoresFrame.askHeap _).bind fun object => ?_
      split
      · exact (IgnoresFrame.isInstance s _ type).bind fun _ => .ite (.throw _) (.pure _)
      · exact .pure _
  | null | unknown => exact .pure _

private theorem ignoresFrame_unbox (toValue : Bool) : IgnoresFrame (s.unbox i toValue) := by
  refine (IgnoresFrame.operand _).bind fun type => IgnoresFrame.pop.bind fun v => ?_
  refine (IgnoresFrame.attempt _).bind fun r => .ite ?_ (.ite (.throw _) (.ite ?_ (.push s _)))
  · refine (s.ignoresFrame_refersToInstance r type).bind fun verdict => ?_
    exact .ite (.throw _) (.push s _)
  · exact (s.ignoresFrame_boxedValue r type).bind fun u => .push s u

private theorem ignoresFrame_sizeOf : IgnoresFrame (s.sizeOf i) := by
  refine (IgnoresFrame.operand _).bind fun type => ?_
  split <;> exact .push s _

private theorem ignoresFrame_loadFunction (virtual : Bool) :
    IgnoresFrame (s.loadFunction i virtual) := by
  refine (IgnoresFrame.operand _).bind fun method => .ite ?_ (.push s _)
  refine IgnoresFrame.pop.bind fun v => (IgnoresFrame.attempt _).bind fun _ => ?_
  exact .push s _

private theorem ignoresFrame_typedReference (toAddress : Bool) :
    IgnoresFrame (s.typedReference toAddress) :=
  IgnoresFrame.pop.bind fun _ => .ite (.push s _) (.push s _)

/-! ## All operations -/

theorem perform_ignoresFrame {o : Operation} (ho : o.usesVariables = false) :
    IgnoresFrame (s.perform i o) := by
  cases o with
  | nop => exact .pure _
  | dup => exact .thenNext (IgnoresFrame.peek.bind fun v => .push s v)
  | pop => exact .thenNext (IgnoresFrame.pop.bind fun _ => .pure _)
  | loadNull | argumentList => exact .thenNext (.push s _)
  | loadInt32 | loadInt64 | loadFloat | loadToken =>
      exact .thenNext ((IgnoresFrame.operand _).bind fun _ => .push s _)
  | loadString =>
      refine .thenNext ((IgnoresFrame.operand _).bind fun text => ?_)
      exact (IgnoresFrame.allocate _).bind fun _ => .push s _
  | loadVariable | storeVariable | loadVariableAddress | jump => exact nomatch ho
  | binary | shift | compare => exact .thenNext (s.ignoresFrame_onTopTwo _)
  | negate | complement | convertInteger | convertFloat =>
      exact .thenNext (s.ignoresFrame_onTop _)
  | checkFinite => exact .thenNext (IgnoresFrame.peek.bind fun _ => .attempt _)
  | branch => exact (IgnoresFrame.operand _).bind fun _ => .pure _
  | leave =>
      refine (IgnoresFrame.operand _).bind fun target => ?_
      exact IgnoresFrame.clearStack.bind fun _ => .pure _
  | branchOnValue => exact IgnoresFrame.pop.bind fun _ => ignoresFrame_branchIf i _
  | branchOnComparison c unsigned whenHolds =>
      exact s.ignoresFrame_branchOnComparison i c unsigned whenHolds
  | switch => exact ignoresFrame_switch i
  | ret => exact s.ignoresFrame_ret
  | throws again => exact ignoresFrame_throws again
  | endFinally => exact IgnoresFrame.clearStack.bind fun _ => .pure _
  | endFilter => exact IgnoresFrame.pop.bind fun _ => .pure _
  | loadIndirect type => exact .thenNext (s.ignoresFrame_loadIndirect type)
  | storeIndirect type => exact .thenNext (s.ignoresFrame_storeIndirect type)
  | localAlloc => exact .thenNext s.ignoresFrame_localAlloc
  | copyBlock => exact .thenNext ignoresFrame_copyBlock
  | initBlock => exact .thenNext ignoresFrame_initBlock
  | newArray => exact .thenNext (s.ignoresFrame_newArray i)
  | arrayLength => exact .thenNext s.ignoresFrame_arrayLength
  | loadElement type => exact .thenNext (s.ignoresFrame_loadElement i type)
  | storeElement => exact .thenNext s.ignoresFrame_storeElement
  | loadElementAddress => exact .thenNext s.ignoresFrame_loadElementAddress
  | call virtual => exact .thenNext (s.ignoresFrame_call i virtual)
  | callIndirect => exact .thenNext (s.ignoresFrame_callIndirect i)
  | newObject => exact .thenNext (s.ignoresFrame_newObject i)
  | loadField ofObject => exact .thenNext (s.ignoresFrame_loadField i ofObject)
  | storeField ofObject => exact .thenNext (s.ignoresFrame_storeField i ofObject)
  | loadFieldAddress ofObject => exact .thenNext (s.ignoresFrame_loadFieldAddress i ofObject)
  | cast orFault => exact .thenNext (s.ignoresFrame_cast i orFault)
  | box => exact .thenNext (s.ignoresFrame_box i)
  | unbox toValue => exact .thenNext (s.ignoresFrame_unbox i toValue)
  | moveObject move => exact .thenNext (s.ignoresFrame_moveObject i move)
  | sizeOf => exact .thenNext (s.ignoresFrame_sizeOf i)
  | loadFunction virtual => exact .thenNext (s.ignoresFrame_loadFunction i virtual)
  | typedReference toAddress => exact .thenNext (s.ignoresFrame_typedReference toAddress)

end Setting

end CilAnalysis
