import CilAnalysis.Proofs.Machine.NoUnderflow

/-!
# The effects of operations

How many values each operation takes from the stack and leaves on it, read off what it does.
`Operation.pops` and `Operation.pushes` list this, one line for each operation, and
`Setting.perform_hasEffect` proves it, in an environment that knows nothing.

## Strategy

Every operation takes all its values before it pushes anything.  Its proof follows the steps of the
operation from the first to the last with two rules of `Effect.lean`: `HasEffect.pop_bind` where a
value is taken, and `HasEffect.bind` where a step spares the stack.  What is left at the end is a
push or nothing.  Three kinds of operations do not have this shape.

* **Numbers that depend on the operand.**  A call takes as many values as the signature of its
  method has parameters and leaves as many as it returns.  `HasEffect.operand_bind` brings the
  operand into the statement, and `hasEffect_popArguments_bind` counts the arguments.
* **Numbers that depend on a variant.**  Of the operations on fields, those on an object take one
  value more than those on a static field.  The number is `ofObject.toNat`, and
  `hasEffect_popOwner_bind` adds it.
* **Operations that empty the stack.**  `Operation.clears` singles them out, and `perform_clears`
  says of them what is needed instead.
-/

namespace CilAnalysis

open Step

/-! ## The lists -/

namespace Operation

/-- The number of values an operation takes, where `signature` is that of the method called. -/
def pops (returnsValue : Bool) (signature : Option MethodSignature) : Operation → Nat
  | nop | loadNull | loadInt32 | loadInt64 | loadFloat | loadString => 0
  | loadVariable | loadVariableAddress | argumentList | branch | leave | endFinally | jump => 0
  | sizeOf | loadToken => 0
  | dup | pop | storeVariable | negate | complement | convertInteger .. | convertFloat _ => 1
  | checkFinite | branchOnValue _ | switch | endFilter | loadIndirect _ | localAlloc => 1
  | newArray | arrayLength | cast _ | box | unbox _ | typedReference _ => 1
  | binary _ | shift _ | compare .. | branchOnComparison .. | storeIndirect _ => 2
  | loadElement _ | loadElementAddress => 2
  | copyBlock | initBlock | storeElement => 3
  | ret => returnsValue.toNat
  | throws again => (!again).toNat
  | call _ => (signature.map MethodSignature.argumentCount).getD 0
  | callIndirect => (signature.map MethodSignature.argumentCount).getD 0 + 1
  | newObject => (signature.map fun s => s.parameters.length).getD 0
  | loadField ofObject | loadFieldAddress ofObject => ofObject.toNat
  | storeField ofObject => ofObject.toNat + 1
  | moveObject .load | moveObject .init => 1
  | moveObject .store | moveObject .copy => 2
  | loadFunction virtual => virtual.toNat

/-- The number of values an operation leaves, where `signature` is that of the method called. -/
def pushes (signature : Option MethodSignature) : Operation → Nat
  | nop | pop | storeVariable | branch | leave | branchOnValue _ | branchOnComparison .. => 0
  | switch | ret | throws _ | endFinally | endFilter | storeIndirect _ | copyBlock => 0
  | initBlock | storeElement | jump | storeField _ => 0
  | moveObject .store | moveObject .copy | moveObject .init => 0
  | dup => 2
  | call _ | callIndirect => (signature.map fun s => s.returnsValue.toNat).getD 0
  | loadNull | loadInt32 | loadInt64 | loadFloat | loadString | loadVariable => 1
  | loadVariableAddress | argumentList | binary _ | shift _ | negate | complement => 1
  | compare .. | convertInteger .. | convertFloat _ | checkFinite | loadIndirect _ => 1
  | localAlloc | newArray | arrayLength | loadElement _ | loadElementAddress | newObject => 1
  | loadField _ | loadFieldAddress _ | cast _ | box | unbox _ | moveObject .load => 1
  | sizeOf | loadToken | loadFunction _ | typedReference _ => 1

/-- Whether an operation empties the stack. -/
def clears : Operation → Bool
  | leave | endFinally => true
  | _ => false

theorem pops_of_clears {returnsValue : Bool} {signature : Option MethodSignature} {o : Operation}
    (h : o.clears = true) : o.pops returnsValue signature = 0 := by
  cases o with
  | leave | endFinally => rfl
  | _ => exact nomatch h

theorem pushes_of_clears {signature : Option MethodSignature} {o : Operation}
    (h : o.clears = true) : o.pushes signature = 0 := by
  cases o with
  | leave | endFinally => rfl
  | _ => exact nomatch h

end Operation

namespace Instruction

variable (i : Instruction)

theorem signature?_of_method? {method : MethodRef} (h : i.method? = some method) :
    i.signature? = some method.signature := by
  rcases i with ⟨offset, opcode, operand, size⟩
  unfold method? at h
  unfold signature?
  cases operand with
  | signature => exact nomatch h
  | _ => exact congrArg (Option.map MethodRef.signature) h

end Instruction

namespace Setting

variable (s : Setting) (i : Instruction)

/-! ## Variables and numbers -/

private theorem hasEffect_loadVariable : HasEffect (s.loadVariable i) 0 1 := by
  refine (HasEffect.operand _).bind ?_
  intro slot
  refine (HasEffect.cell slot).bind ?_
  intro cell
  exact .push s cell.value

private theorem hasEffect_setVariable (slot : Variable) (v : Value) :
    SparesStack (s.setVariable slot v) :=
  (HasEffect.cell slot).bind fun _ => .modify fun _ => rfl

private theorem hasEffect_forgetVariable (slot : Variable) : SparesStack (s.forgetVariable slot) :=
  (HasEffect.cell slot).bind fun _ => .modify fun _ => rfl

private theorem hasEffect_storeVariable : HasEffect (s.storeVariable i) 1 0 := by
  refine (HasEffect.operand _).bind ?_
  intro slot
  refine .pop_bind ?_
  intro v
  exact s.hasEffect_setVariable slot v

private theorem hasEffect_loadVariableAddress : HasEffect (s.loadVariableAddress i) 0 1 := by
  refine (HasEffect.operand _).bind ?_
  intro slot
  refine (s.hasEffect_forgetVariable slot).bind ?_
  intro _
  exact .push s _

private theorem hasEffect_loadString : HasEffect (s.loadString i) 0 1 := by
  refine (HasEffect.operand _).bind ?_
  intro text
  refine (HasEffect.allocate _).bind ?_
  intro handle
  exact .push s _

private theorem hasEffect_onTop {f : Value → Except Fault Value} (hf : ∀ v, NoUnderflow (f v)) :
    HasEffect (s.onTop f) 1 1 := by
  refine .pop_bind ?_
  intro v
  refine (HasEffect.attempt (hf v)).bind ?_
  intro u
  exact .push s u

private theorem hasEffect_onTopTwo {f : Value → Value → Except Fault Value}
    (hf : ∀ v u, NoUnderflow (f v u)) : HasEffect (s.onTopTwo f) 2 1 := by
  refine .pop_bind ?_
  intro rhs
  refine .pop_bind ?_
  intro lhs
  refine (HasEffect.attempt (hf lhs rhs)).bind ?_
  intro v
  exact .push s v

private theorem hasEffect_compareTopTwo (c : Comparison) (unsigned : Bool) :
    HasEffect (s.compareTopTwo c unsigned) 2 1 := by
  refine s.hasEffect_onTopTwo ?_
  intro lhs rhs
  exact (c.decide_noUnderflow s.width unsigned lhs rhs).bind fun _ => .ok _

/-! ## Branches -/

private theorem hasEffect_branchIf (condition : Ternary) : SparesStack (branchIf i condition) := by
  refine (HasEffect.operand _).bind ?_
  intro target
  cases condition with
  | true => exact .pure _
  | false => exact .pure _
  | unknown => exact .pure _

private theorem hasEffect_branchOnValue (whenZero : Bool) :
    HasEffect (branchOnValue i whenZero) 1 0 := by
  refine .pop_bind ?_
  intro v
  exact hasEffect_branchIf i _

private theorem hasEffect_branchOnComparison (c : Comparison) (unsigned whenHolds : Bool) :
    HasEffect (s.branchOnComparison i c unsigned whenHolds) 2 0 := by
  refine .pop_bind ?_
  intro rhs
  refine .pop_bind ?_
  intro lhs
  refine (HasEffect.attempt (c.decide_noUnderflow s.width unsigned lhs rhs)).bind ?_
  intro holds
  exact hasEffect_branchIf i _

private theorem hasEffect_switch : HasEffect (Step.switch i) 1 0 := by
  refine (HasEffect.operand _).bind ?_
  intro table
  refine .pop_bind ?_
  intro v
  refine (HasEffect.attempt (v.index?_noUnderflow .unsigned)).bind ?_
  intro index
  exact .pure _

private theorem hasEffect_ret : HasEffect s.ret s.returnsValue.toNat 0 := by
  unfold Setting.ret
  cases s.returnsValue with
  | false => exact .pure _
  | true =>
      refine .pop_bind ?_
      intro v
      refine .bind (HasEffect.modify fun _ => rfl) ?_
      intro _
      exact .pure _

private theorem hasEffect_throws (again : Bool) :
    HasEffect (Step.throws again) (!again).toNat 0 := by
  unfold Step.throws
  cases again with
  | true => exact .pure _
  | false =>
      refine .pop_bind ?_
      intro v
      by_cases hnull : v.isZero = .true
      · simp only [hnull, if_true]
        exact .throw nofun
      · simp only [hnull, if_false]
        refine .bind (HasEffect.modify fun _ => rfl) ?_
        intro _
        exact .pure _

/-! ## Addresses -/

private theorem hasEffect_loadAt (type : TypeSig) (address : Value) :
    SparesStack (s.loadAt type address) := by
  refine (HasEffect.attempt address.address?_noUnderflow).bind ?_
  intro pointer
  cases pointer with
  | none => exact .pure _
  | some p => exact .askHeap _

private theorem hasEffect_storeAt (type : TypeSig) (address v : Value) :
    SparesStack (s.storeAt type address v) := by
  refine (HasEffect.attempt address.address?_noUnderflow).bind ?_
  intro pointer
  cases pointer with
  | none => exact .pure _
  | some p => exact .updateHeap _

private theorem hasEffect_loadIndirect (type : TypeSig) : HasEffect (s.loadIndirect type) 1 1 := by
  refine .pop_bind ?_
  intro address
  refine (s.hasEffect_loadAt type address).bind ?_
  intro v
  exact .push s v

private theorem hasEffect_storeIndirect (type : TypeSig) :
    HasEffect (s.storeIndirect type) 2 0 := by
  refine .pop_bind ?_
  intro v
  refine .pop_bind ?_
  intro address
  exact s.hasEffect_storeAt type address v

private theorem hasEffect_moveObject (move : ObjectMove) (signature : Option MethodSignature) :
    HasEffect (s.moveObject i move) ((Operation.moveObject move).pops s.returnsValue signature)
      ((Operation.moveObject move).pushes signature) := by
  refine (HasEffect.operand _).bind ?_
  intro type
  cases move with
  | load => exact s.hasEffect_loadIndirect type
  | store => exact s.hasEffect_storeIndirect type
  | copy =>
      refine .pop_bind ?_
      intro source
      refine .pop_bind ?_
      intro destination
      refine (s.hasEffect_loadAt type source).bind ?_
      intro v
      exact s.hasEffect_storeAt type destination v
  | init =>
      refine .pop_bind ?_
      intro address
      exact s.hasEffect_storeAt type address _

private theorem hasEffect_localAlloc : HasEffect s.localAlloc 1 1 := by
  refine .pop_bind ?_
  intro size
  refine (HasEffect.attempt size.size?_noUnderflow).bind ?_
  intro count
  split
  · exact (HasEffect.allocate _).bind fun _ => .push s _
  · exact .push s _

private theorem hasEffect_copyBlock : HasEffect Step.copyBlock 3 0 := by
  refine .pop_bind ?_
  intro size
  refine .pop_bind ?_
  intro source
  refine .pop_bind ?_
  intro destination
  refine (HasEffect.attempt size.size?_noUnderflow).bind ?_
  intro count
  refine (HasEffect.attempt destination.address?_noUnderflow).bind ?_
  intro target
  cases target with
  | none => exact .pure _
  | some p =>
      refine (HasEffect.attempt source.address?_noUnderflow).bind ?_
      intro origin
      split
      · exact .updateHeap _
      · exact .updateHeap _

private theorem hasEffect_initBlock : HasEffect Step.initBlock 3 0 := by
  refine .pop_bind ?_
  intro size
  refine .pop_bind ?_
  intro v
  refine .pop_bind ?_
  intro destination
  refine (HasEffect.attempt size.size?_noUnderflow).bind ?_
  intro count
  refine (HasEffect.attempt destination.address?_noUnderflow).bind ?_
  intro target
  split
  · exact .pure _
  · exact .updateHeap _
  · exact .updateHeap _

/-! ## Arrays -/

private theorem hasEffect_array (handle : Handle) : SparesStack (Step.array handle) := by
  refine (HasEffect.askHeap _).bind ?_
  intro object
  split
  · exact .pure _
  · exact .throw nofun

private theorem hasEffect_element (array index : Value) :
    SparesStack (Step.element array index) := by
  refine (HasEffect.attempt array.array?_noUnderflow).bind ?_
  intro named
  cases named with
  | none => exact .pure _
  | some handle =>
      refine (hasEffect_array handle).bind ?_
      intro a
      refine (HasEffect.attempt (index.index?_noUnderflow .signed)).bind ?_
      intro place
      cases place with
      | none => exact .pure _
      | some n =>
          dsimp only
          split
          · exact .pure _
          · exact .throw nofun

private theorem hasEffect_newArray : HasEffect (s.newArray i) 1 1 := by
  refine (HasEffect.operand _).bind ?_
  intro element
  refine .pop_bind ?_
  intro length
  refine (HasEffect.attempt (length.index?_noUnderflow .signed)).bind ?_
  intro count
  cases count with
  | none => exact .push s _
  | some n =>
      dsimp only
      split
      · exact .throw nofun
      split
      · exact (HasEffect.allocate _).bind fun _ => .push s _
      · exact .push s _

private theorem hasEffect_arrayLength : HasEffect s.arrayLength 1 1 := by
  refine .pop_bind ?_
  intro v
  refine (HasEffect.attempt v.array?_noUnderflow).bind ?_
  intro named
  cases named with
  | none => exact .push s _
  | some handle => exact (hasEffect_array handle).bind fun _ => .push s _

private theorem hasEffect_loadElement (type : Option TypeSig) :
    HasEffect (s.loadElement i type) 2 1 := by
  refine .pop_bind ?_
  intro index
  refine .pop_bind ?_
  intro array
  refine (hasEffect_element array index).bind ?_
  intro found
  split
  · exact .push s _
  · exact .push s _

private theorem hasEffect_setElement (array index : Value) (v : TypeSig → Value) :
    SparesStack (s.setElement array index v) := by
  refine (hasEffect_element array index).bind ?_
  intro found
  split
  · exact (HasEffect.ofResult _).bind fun _ => .setObject _ _
  · exact .setObject _ _
  · exact .pure _

private theorem hasEffect_storeElement : HasEffect s.storeElement 3 0 := by
  refine .pop_bind ?_
  intro v
  refine .pop_bind ?_
  intro index
  refine .pop_bind ?_
  intro array
  exact s.hasEffect_setElement array index _

private theorem hasEffect_loadElementAddress : HasEffect s.loadElementAddress 2 1 := by
  refine .pop_bind ?_
  intro index
  refine .pop_bind ?_
  intro array
  refine (s.hasEffect_setElement array index _).bind ?_
  intro _
  exact .push s _

/-! ## Calls -/

private theorem hasEffect_popArguments_bind {β : Type} (signature : MethodSignature)
    {f : List Value → Step β} {pushes : Nat} (hf : ∀ vs, HasEffect (f vs) 0 pushes) :
    HasEffect (s.popArguments signature >>= f) signature.argumentCount pushes := by
  unfold Setting.popArguments
  rw [bind_assoc]
  -- Nothing is taken after the arguments.
  change HasEffect _ (signature.argumentCount + 0) pushes
  refine .popMany_bind ?_
  intro values
  exact (HasEffect.pure _).bind hf

private theorem hasEffect_pushResult (signature : MethodSignature) (result : Option Value) :
    HasEffect (s.pushResult signature result) 0 signature.returnsValue.toNat := by
  unfold Setting.pushResult
  cases signature.returnsValue with
  | false => exact .pure _
  | true =>
      cases result with
      | none => exact .push s _
      | some v => exact .push s _

private theorem hasEffect_receiverType? (arguments : List Value) :
    SparesStack (receiverType? arguments) := by
  cases arguments with
  | nil => exact .pure _
  | cons v rest =>
      refine (HasEffect.attempt v.receiver?_noUnderflow).bind ?_
      intro handle
      cases handle with
      | none => exact .pure _
      | some h => exact .askHeap _

private theorem hasEffect_invoke (henv : s.environment = {}) (method : MethodRef)
    (arguments : List Value) : SparesStack (s.invoke method arguments) := by
  refine .bind (HasEffect.modify fun _ => rfl) ?_
  intro _
  rw [henv]
  exact .attempt (NoUnderflow.ok _)

/-- The environment that knows nothing sends a virtual call to the method it names, or leaves it
open where it goes; both have the result of that method's signature. -/
theorem hasEffect_call (henv : s.environment = {}) (virtual : Bool) :
    HasEffect (s.call i virtual) ((Operation.call virtual).pops s.returnsValue i.signature?)
      ((Operation.call virtual).pushes i.signature?) := by
  refine .operand_bind ?_
  intro method hmethod
  rw [i.signature?_of_method? hmethod]
  refine s.hasEffect_popArguments_bind method.signature ?_
  intro arguments
  -- Wherever the call goes, what is pushed is decided by the signature of the method it names.
  have hinvoke : HasEffect (s.invoke method arguments >>= s.pushResult method.signature) 0
      method.signature.returnsValue.toNat :=
    (s.hasEffect_invoke henv method arguments).bind fun _ => s.hasEffect_pushResult _ _
  cases virtual with
  | false => exact fun m => hinvoke m
  | true =>
      simp only [if_true, Setting.resolve, bind_assoc, pure_bind, henv]
      refine (hasEffect_receiverType? arguments).bind ?_
      intro receiver
      refine .bind (HasEffect.modify fun _ => rfl) ?_
      intro _
      by_cases hopen : receiver.isNone && method.isVirtual
      · simp only [hopen, if_true]
        exact s.hasEffect_pushResult _ _
      · simp only [hopen, Bool.false_eq_true, if_false]
        exact hinvoke

private theorem hasEffect_callIndirect :
    HasEffect (s.callIndirect i) (Operation.callIndirect.pops s.returnsValue i.signature?)
      (Operation.callIndirect.pushes i.signature?) := by
  refine .operand_bind ?_
  intro signature hsignature
  rw [hsignature]
  refine .pop_bind ?_
  intro _
  refine s.hasEffect_popArguments_bind signature ?_
  intro _
  exact s.hasEffect_pushResult signature none

private theorem hasEffect_jump (henv : s.environment = {}) : SparesStack (s.jump i) := by
  refine (HasEffect.operand _).bind ?_
  intro method
  refine HasEffect.get.bind ?_
  intro m
  refine (s.hasEffect_invoke henv method _).bind ?_
  intro result
  dsimp only
  split
  · refine .bind (HasEffect.modify fun _ => rfl) ?_
    intro _
    exact .pure _
  · exact .pure _

private theorem hasEffect_newObject (henv : s.environment = {}) :
    HasEffect (s.newObject i) (Operation.newObject.pops s.returnsValue i.signature?) 1 := by
  refine .operand_bind ?_
  intro method hmethod
  rw [i.signature?_of_method? hmethod]
  -- The object is made by the operation, so it is not among the values that are taken.
  refine s.hasEffect_popArguments_bind { method.signature with hasThis := false } ?_
  intro arguments
  refine (HasEffect.allocate _).bind ?_
  intro handle
  refine (s.hasEffect_invoke henv method _).bind ?_
  intro result
  exact .push s _

/-! ## Fields -/

private theorem hasEffect_popOwner_bind {β : Type} (ofObject : Bool) {f : Option Value → Step β}
    {pops pushes : Nat} (hf : ∀ owner, HasEffect (f owner) pops pushes) :
    HasEffect (popOwner ofObject >>= f) (pops + ofObject.toNat) pushes := by
  cases ofObject with
  | false => exact fun m => hf none m
  | true =>
      unfold popOwner
      simp only [if_true, map_eq_pure_bind, bind_assoc, pure_bind]
      exact .pop_bind fun v => hf (some v)

private theorem hasEffect_owner? (owner : Option Value) : SparesStack (owner? owner) := by
  cases owner with
  | none => exact .pure _
  | some v =>
      refine (HasEffect.attempt v.receiver?_noUnderflow).bind ?_
      intro named
      cases named with
      | none => exact .pure _
      | some handle =>
          refine (HasEffect.askHeap _).bind ?_
          intro object
          split
          · exact .pure _
          · exact .pure _

private theorem hasEffect_loadStatic (field : FieldRef) : SparesStack (s.loadStatic field) := by
  refine HasEffect.get.bind ?_
  intro m
  split
  · exact .pure _
  · refine .bind (HasEffect.modify fun _ => rfl) ?_
    intro _
    refine .bind (HasEffect.modify fun _ => rfl) ?_
    intro _
    exact .pure _

private theorem hasEffect_loadField (ofObject : Bool) :
    HasEffect (s.loadField i ofObject) ofObject.toNat 1 := by
  refine (HasEffect.operand _).bind ?_
  intro field
  rw [← Nat.zero_add ofObject.toNat]
  refine hasEffect_popOwner_bind ofObject ?_
  intro owner
  split
  · refine (s.hasEffect_loadStatic field).bind ?_
    intro v
    exact .push s v
  · refine (hasEffect_owner? owner).bind ?_
    intro found
    split
    · exact .push s _
    · exact .push s _

private theorem hasEffect_setField (field : FieldRef) (owner : Option Value) (v : Value) :
    SparesStack (setField field owner v) := by
  refine (hasEffect_owner? owner).bind ?_
  intro found
  split
  · exact .setObject _ _
  · exact .pure _

private theorem hasEffect_storeField (ofObject : Bool) :
    HasEffect (s.storeField i ofObject) (ofObject.toNat + 1) 0 := by
  refine (HasEffect.operand _).bind ?_
  intro field
  refine .pop_bind ?_
  intro v
  rw [← Nat.zero_add ofObject.toNat]
  refine hasEffect_popOwner_bind ofObject ?_
  intro owner
  split
  · exact .modify fun _ => rfl
  · exact hasEffect_setField _ _ _

private theorem hasEffect_loadFieldAddress (ofObject : Bool) :
    HasEffect (s.loadFieldAddress i ofObject) ofObject.toNat 1 := by
  refine (HasEffect.operand _).bind ?_
  intro field
  rw [← Nat.zero_add ofObject.toNat]
  refine hasEffect_popOwner_bind ofObject ?_
  intro owner
  split
  · refine .bind (HasEffect.modify fun _ => rfl) ?_
    intro _
    exact .push s _
  · refine (hasEffect_setField _ _ _).bind ?_
    intro _
    exact .push s _

/-! ## Casts, boxes and tokens -/

private theorem hasEffect_isInstance (type target : TypeSig) :
    SparesStack (s.isInstance type target) := by
  refine .bind (HasEffect.modify fun _ => rfl) ?_
  intro _
  exact .pure _

private theorem hasEffect_refersToInstance (r : Reference) (target : TypeSig) :
    SparesStack (s.refersToInstance r target) := by
  cases r with
  | null => exact .pure _
  | unknown => exact .pure _
  | known handle =>
      refine (HasEffect.askHeap _).bind ?_
      intro type
      exact s.hasEffect_isInstance type target

private theorem hasEffect_cast (orFault : Bool) : HasEffect (s.cast i orFault) 1 1 := by
  refine (HasEffect.operand _).bind ?_
  intro target
  refine .pop_bind ?_
  intro v
  refine (HasEffect.attempt v.reference_noUnderflow).bind ?_
  intro r
  refine (s.hasEffect_refersToInstance r target).bind ?_
  intro verdict
  split
  · exact .push s _
  · exact .push s _
  · split
    · exact .throw nofun
    · exact .push s _
  · exact .push s _

private theorem hasEffect_box : HasEffect (s.box i) 1 1 := by
  refine (HasEffect.operand _).bind ?_
  intro type
  refine .pop_bind ?_
  intro v
  split
  · exact (HasEffect.allocate _).bind fun _ => .push s _
  · exact .push s _

private theorem hasEffect_boxedValue (r : Reference) (type : TypeSig) :
    SparesStack (s.boxedValue r type) := by
  cases r with
  | null => exact .pure _
  | unknown => exact .pure _
  | known handle =>
      refine (HasEffect.askHeap _).bind ?_
      intro object
      split
      · refine (s.hasEffect_isInstance _ type).bind ?_
        intro verdict
        split
        · exact .throw nofun
        · exact .pure _
      · exact .pure _

private theorem hasEffect_unbox (toValue : Bool) : HasEffect (s.unbox i toValue) 1 1 := by
  refine (HasEffect.operand _).bind ?_
  intro type
  refine .pop_bind ?_
  intro v
  refine (HasEffect.attempt v.reference_noUnderflow).bind ?_
  intro r
  split
  · refine (s.hasEffect_refersToInstance r type).bind ?_
    intro verdict
    split
    · exact .throw nofun
    · exact .push s _
  · by_cases hnull : r = .null
    · simp only [hnull, if_true]
      exact .throw (show Fault.nullReference ≠ _ from nofun)
    · simp only [hnull, if_false]
      split
      · exact (s.hasEffect_boxedValue r type).bind fun _ => .push s _
      · exact .push s _

private theorem hasEffect_sizeOf : HasEffect (s.sizeOf i) 0 1 := by
  refine (HasEffect.operand _).bind ?_
  intro type
  split
  · exact .push s _
  · exact .push s _

private theorem hasEffect_loadFunction (virtual : Bool) :
    HasEffect (s.loadFunction i virtual) virtual.toNat 1 := by
  refine (HasEffect.operand _).bind ?_
  intro method
  cases virtual with
  | false => exact .push s _
  | true =>
      refine .pop_bind ?_
      intro v
      refine (HasEffect.attempt v.receiver?_noUnderflow).bind ?_
      intro _
      exact .push s _

private theorem hasEffect_typedReference (toAddress : Bool) :
    HasEffect (s.typedReference toAddress) 1 1 := by
  refine .pop_bind ?_
  intro _
  split
  · exact .push s _
  · exact .push s _

/-! ## All operations -/

private theorem hasEffect_thenNext {step : Step Unit} {pops pushes : Nat}
    (h : HasEffect step pops pushes) :
    HasEffect (thenNext step) pops pushes := h.bind_spares fun _ => .pure _

/-- Every operation that does not empty the stack takes and leaves what its effect says. -/
theorem perform_hasEffect (henv : s.environment = {}) {o : Operation} (hkeeps : o.clears = false) :
    HasEffect (s.perform i o) (o.pops s.returnsValue i.signature?) (o.pushes i.signature?) := by
  cases o with
  | nop => exact .pure _
  | dup => exact hasEffect_thenNext (HasEffect.duplicate s)
  | pop => exact hasEffect_thenNext (HasEffect.pop.bind_spares fun _ => .pure _)
  | loadNull | argumentList => exact hasEffect_thenNext (HasEffect.push s _)
  | loadInt32 | loadInt64 | loadFloat | loadToken =>
      exact hasEffect_thenNext ((HasEffect.operand _).bind fun _ => .push s _)
  | loadString => exact hasEffect_thenNext (s.hasEffect_loadString i)
  | loadVariable => exact hasEffect_thenNext (s.hasEffect_loadVariable i)
  | storeVariable => exact hasEffect_thenNext (s.hasEffect_storeVariable i)
  | loadVariableAddress => exact hasEffect_thenNext (s.hasEffect_loadVariableAddress i)
  | binary op =>
      exact hasEffect_thenNext (s.hasEffect_onTopTwo (op.apply_noUnderflow s.width i.opcode))
  | shift shift =>
      exact hasEffect_thenNext (s.hasEffect_onTopTwo (shift.apply_noUnderflow s.width i.opcode))
  | negate =>
      exact hasEffect_thenNext (s.hasEffect_onTop (Value.negate_noUnderflow s.width i.opcode))
  | complement =>
      exact hasEffect_thenNext (s.hasEffect_onTop (Value.complement_noUnderflow i.opcode))
  | compare c unsigned => exact hasEffect_thenNext (s.hasEffect_compareTopTwo c unsigned)
  | convertInteger target check =>
      exact hasEffect_thenNext
        (s.hasEffect_onTop (Value.toIntegerTarget_noUnderflow s.width i.opcode target check))
  | convertFloat target =>
      exact hasEffect_thenNext
        (s.hasEffect_onTop (Value.toFloatTarget_noUnderflow s.width i.opcode target))
  | checkFinite =>
      exact hasEffect_thenNext (HasEffect.checkFinite i (Value.requireFinite_noUnderflow i.opcode))
  | branch => exact (HasEffect.operand _).bind fun _ => .pure _
  | leave | endFinally => exact nomatch hkeeps
  | branchOnValue whenZero => exact hasEffect_branchOnValue i whenZero
  | branchOnComparison c unsigned whenHolds =>
      exact s.hasEffect_branchOnComparison i c unsigned whenHolds
  | switch => exact hasEffect_switch i
  | ret => exact s.hasEffect_ret
  | throws again => exact hasEffect_throws again
  | endFilter => exact .pop_bind fun _ => .pure _
  | loadIndirect type => exact hasEffect_thenNext (s.hasEffect_loadIndirect type)
  | storeIndirect type => exact hasEffect_thenNext (s.hasEffect_storeIndirect type)
  | localAlloc => exact hasEffect_thenNext s.hasEffect_localAlloc
  | copyBlock => exact hasEffect_thenNext hasEffect_copyBlock
  | initBlock => exact hasEffect_thenNext hasEffect_initBlock
  | newArray => exact hasEffect_thenNext (s.hasEffect_newArray i)
  | arrayLength => exact hasEffect_thenNext s.hasEffect_arrayLength
  | loadElement type => exact hasEffect_thenNext (s.hasEffect_loadElement i type)
  | storeElement => exact hasEffect_thenNext s.hasEffect_storeElement
  | loadElementAddress => exact hasEffect_thenNext s.hasEffect_loadElementAddress
  | call virtual => exact hasEffect_thenNext (s.hasEffect_call i henv virtual)
  | callIndirect => exact hasEffect_thenNext (s.hasEffect_callIndirect i)
  | jump => exact s.hasEffect_jump i henv
  | newObject => exact hasEffect_thenNext (s.hasEffect_newObject i henv)
  | loadField ofObject => exact hasEffect_thenNext (s.hasEffect_loadField i ofObject)
  | storeField ofObject => exact hasEffect_thenNext (s.hasEffect_storeField i ofObject)
  | loadFieldAddress ofObject => exact hasEffect_thenNext (s.hasEffect_loadFieldAddress i ofObject)
  | cast orFault => exact hasEffect_thenNext (s.hasEffect_cast i orFault)
  | box => exact hasEffect_thenNext (s.hasEffect_box i)
  | unbox toValue => exact hasEffect_thenNext (s.hasEffect_unbox i toValue)
  | moveObject move => exact hasEffect_thenNext (s.hasEffect_moveObject i move _)
  | sizeOf => exact hasEffect_thenNext (s.hasEffect_sizeOf i)
  | loadFunction virtual => exact hasEffect_thenNext (s.hasEffect_loadFunction i virtual)
  | typedReference toAddress => exact hasEffect_thenNext (s.hasEffect_typedReference toAddress)

theorem perform_clears {o : Operation} (hclears : o.clears = true) (m : Machine) :
    (∃ t m', (s.perform i o).run m = (.ok t, m') ∧ m'.stack = []) ∨
      ∃ fault m', (s.perform i o).run m = (.error fault, m') ∧ fault ≠ .stackUnderflow := by
  cases o with
  | leave =>
      -- Without a target the instruction faults before the stack is touched.
      change (∃ t m', (Step.leave i).run m = (.ok t, m') ∧ m'.stack = []) ∨
        ∃ fault m', (Step.leave i).run m = (.error fault, m') ∧ fault ≠ .stackUnderflow
      unfold Step.leave
      cases i.target? with
      | none => exact Or.inr ⟨_, _, rfl, nofun⟩
      | some target => exact Or.inl ⟨_, _, rfl, rfl⟩
  | endFinally => exact Or.inl ⟨_, _, rfl, rfl⟩
  | _ => exact nomatch hclears

/-- A number that passes the check for finite ones is left where it is. -/
theorem perform_checkFinite {m m' : Machine} {t : Successor}
    (h : (s.perform i .checkFinite).run m = (.ok t, m')) : m'.stack = m.stack := by
  have hrun : (thenNext (Step.checkFinite i)).run m = (.ok t, m') := h
  unfold thenNext Step.checkFinite at hrun
  rw [run_bind, run_bind] at hrun
  -- The run succeeded, so there was a value, and it passed the check.
  cases hm : m.stack with
  | nil =>
      rw [run_peek_nil hm] at hrun
      exact nomatch hrun
  | cons v rest =>
      rw [run_peek_cons hm] at hrun
      dsimp only at hrun
      rw [run_attempt] at hrun
      cases hcheck : v.requireFinite i.opcode with
      | error fault =>
          rw [hcheck] at hrun
          exact nomatch hrun
      | ok _ =>
          rw [hcheck] at hrun
          rw [← hm, ← (Prod.mk.inj hrun).2]

end Setting

end CilAnalysis
