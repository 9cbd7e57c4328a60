import CilAnalysis.Machine.Step

/-!
# Calls, fields and casts

The environment decides where calls go and what they return.  Fields of objects that are not known
are unknown, and stores in them are lost.
-/

namespace CilAnalysis

namespace Value

/-- The object a value refers to, where it is known; there is none behind a null reference. -/
def receiver? : Value → Except Fault (Option Handle)
  | object .null => .error .nullReference
  | object (.known handle) => .ok (some handle)
  | object .unknown | pointer _ | nativeInt _ => .ok none
  | v => .error (.invalidProgram (v.kind ++ " is not an object reference"))

def reference : Value → Except Fault Reference
  | object r => .ok r
  | v => .error (.invalidProgram (v.kind ++ " is not an object reference"))

end Value

namespace Instruction

/-- Whether an instruction names anything that has a token. -/
def namesToken (i : Instruction) : Bool :=
  match i.operand with
  | .member _ | .type _ | .method _ | .field _ => true
  | _ => false

end Instruction

/-- The type of the objects that a constructor sets up. -/
def TypeRef.instanceType (t : TypeRef) : TypeSig :=
  if t.isValueType then .valueType t else .classType t

namespace Setting

open Step

/-! ## Calls -/

/-- Take the arguments of a call, each converted to the type of its parameter; the object of the
call stays as it is. -/
def popArguments (s : Setting) (signature : MethodSignature) : Step (List Value) := do
  let values ← popMany signature.argumentCount
  let (object, rest) := values.splitAt signature.hasThis.toNat
  return object ++ rest.zipWith (fun v type => v.coerce s.width type) signature.parameters

/-- Push the result of a call, if its signature has one; a result that is not given is unknown. -/
def pushResult (s : Setting) (signature : MethodSignature) (result : Option Value) : Step Unit := do
  if signature.returnsValue then
    match result with
    | some v => s.push (v.coerce s.width signature.returnType)
    | none => s.push (.unknownOf s.width signature.returnType)

/-- The type of the object that is first among the arguments, where it is known. -/
def receiverType? (arguments : List Value) : Step (Option TypeSig) := do
  match arguments with
  | [] => return none
  | v :: _ =>
    match ← attempt v.receiver? with
    | some handle => askHeap fun h => some <$> h.type handle
    | none => return none

/-- Call a method; its result is pushed as that of the method the instruction names. -/
def call (s : Setting) (i : Instruction) (virtual : Bool) : Step Unit := do
  let method ← operand i "method" i.method?
  let arguments ← s.popArguments method.signature
  let target ←
    if virtual then s.resolve (← receiverType? arguments) method else pure (.method method)
  match target with
  | .method target =>
    let result ← s.invoke target arguments
    s.pushResult method.signature result
  | .signature signature => s.pushResult signature none
  | .failure fault => throw fault
  | .unknownReceiver => s.pushResult method.signature none

/-- Call through an address, which is not followed. -/
def callIndirect (s : Setting) (i : Instruction) : Step Unit := do
  let signature ← operand i "signature" i.signature?
  let _ ← pop
  let _ ← s.popArguments signature
  s.pushResult signature none

/-- Leave the method for another, which is given its arguments and whose result is its own. -/
def jump (s : Setting) (i : Instruction) : Step Successor := do
  let method ← operand i "method" i.method?
  let result ← s.invoke method ((← get).frame.arguments.map Cell.value)
  if s.returnsValue then
    setReturned (result.getD (.unknownOf s.width method.signature.returnType))
  return .returns

/-- Make an object, call its constructor and push the object, or what the environment returns in its
place. -/
def newObject (s : Setting) (i : Instruction) : Step Unit := do
  let method ← operand i "method" i.method?
  let arguments ← s.popArguments { method.signature with hasThis := false }
  let handle ← allocate (.object ⟨method.declaringType.instanceType, .empty⟩)
  let object : Value := .object (.known handle)
  let result ← s.invoke method (object :: arguments)
  s.push (result.getD object)

/-! ## Fields -/

/-- Take the object of a field, if the instruction has one. -/
def popOwner (ofObject : Bool) : Step (Option Value) :=
  if ofObject then some <$> pop else pure none

/-- The object with fields behind a value, where it is known. -/
def owner? (owner : Option Value) : Step (Option (Handle × ObjectState)) := do
  match owner with
  | none => return none
  | some v =>
    match ← attempt v.receiver? with
    | none => return none
    | some handle =>
      match ← askHeap fun h => h.get handle with
      | .object o => return some (handle, o)
      | _ => return none

def loadField (s : Setting) (i : Instruction) (ofObject : Bool) : Step Unit := do
  let field ← operand i "field" i.field?
  let owner ← popOwner ofObject
  if field.isStatic then s.push (← s.loadStatic field)
  else
    match ← owner? owner with
    | some (_, o) => s.push (o.field s.width field.token field.fieldType)
    | none => s.push (.unknownOf s.width field.fieldType)

/-- Put a value in a field of an object, if the object is known. -/
def setField (field : FieldRef) (owner : Option Value) (v : Value) : Step Unit := do
  match ← owner? owner with
  | some (handle, o) => setObject handle (.object (o.setField field.token v))
  | none => return

def storeField (s : Setting) (i : Instruction) (ofObject : Bool) : Step Unit := do
  let field ← operand i "field" i.field?
  let v ← pop
  let owner ← popOwner ofObject
  if field.isStatic then s.storeStatic field v
  else setField field owner (v.coerce s.width field.fieldType)

/-- Push the address of a field, which is unknown from then on. -/
def loadFieldAddress (s : Setting) (i : Instruction) (ofObject : Bool) : Step Unit := do
  let field ← operand i "field" i.field?
  let owner ← popOwner ofObject
  if field.isStatic then s.forgetStatic field
  else setField field owner (.unknownOf s.width field.fieldType)
  s.pushUnknownAddress

/-! ## Casts and boxes -/

/-- Whether the object behind a reference is an instance of a type. -/
def refersToInstance (s : Setting) (r : Reference) (target : TypeSig) : Step Ternary := do
  match r with
  | .known handle => s.isInstance (← askHeap fun h => h.type handle) target
  | .null | .unknown => return .unknown

/-- Take a reference and cast it; one that is no instance is a fault, or becomes null. -/
def cast (s : Setting) (i : Instruction) (orFault : Bool) : Step Unit := do
  let target ← operand i "type" i.type?
  let r ← attempt (← pop).reference
  let verdict ← s.refersToInstance r target
  match r, verdict with
  | .null, _ | _, .true => s.push (.object r)
  | _, .false =>
    if orFault then throw (.invalidCast ("not an instance of " ++ target.text))
    s.push .null
  | _, .unknown => s.push (.object (if orFault then r else .unknown))

/-- Take a value and push a reference to a copy of it; references stay as they are. -/
def box (s : Setting) (i : Instruction) : Step Unit := do
  let type ← operand i "type" i.type?
  let v ← pop
  if type.isValueType then
    let handle ← allocate (.boxed type (v.coerce s.width type))
    s.push (.object (.known handle))
  else s.push v

/-- The value in a box, read as a type it is an instance of. -/
def boxedValue (s : Setting) (r : Reference) (type : TypeSig) : Step Value := do
  match r with
  | .known handle =>
    match ← askHeap fun h => h.get handle with
    | .boxed boxed v =>
      if (← s.isInstance boxed type) = .false then
        throw (.invalidCast (boxed.text ++ " is not " ++ type.text))
      return v.coerce s.width type
    | _ => return .unknownOf s.width type
  | .null | .unknown => return .unknownOf s.width type

/-- Take a reference to a box and push its value or its address.  A type of references is cast
instead. -/
def unbox (s : Setting) (i : Instruction) (toValue : Bool) : Step Unit := do
  let type ← operand i "type" i.type?
  let r ← attempt (← pop).reference
  if toValue && !type.isValueType then
    let verdict ← s.refersToInstance r type
    if verdict = .false ∧ r ≠ .null then throw (.invalidCast ("not an instance of " ++ type.text))
    s.push (.object r)
  else
    if r = .null then throw .nullReference
    if toValue then s.push (← s.boxedValue r type) else s.pushUnknownAddress

/-! ## Types and tokens -/

def sizeOf (s : Setting) (i : Instruction) : Step Unit := do
  let type ← operand i "type" i.type?
  match type.size? s.width with
  | some n => s.push (.int32 (.ofNat 32 n))
  | none => s.push (.int32 .unknown)

/-- Push the object that stands for a token, which is unknown. -/
def loadToken (s : Setting) (i : Instruction) : Step Unit := do
  operand i "token" (if i.namesToken then some () else none)
  s.push (.object .unknown)

/-- Push the address of a method, of which nothing is known. -/
def loadFunction (s : Setting) (i : Instruction) (virtual : Bool) : Step Unit := do
  let _ ← operand i "method" i.method?
  if virtual then
    let v ← pop
    let _ ← attempt v.receiver?
  s.push (.nativeInt .unknown)

/-- Take the parts of a typed reference and push what is made of them, which is unknown. -/
def typedReference (s : Setting) (toAddress : Bool) : Step Unit := do
  let _ ← pop
  if toAddress then s.pushUnknownAddress else s.push (.object .unknown)

end Setting

end CilAnalysis
