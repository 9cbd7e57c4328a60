import CilAnalysis.Machine.State

/-!
# Steps of an interpreter

A step changes the state and either succeeds or faults; what it changed before a fault stays
changed.  Here are the steps from which instructions are made.
-/

namespace CilAnalysis

/-- A computation on the state of an interpreted method. -/
abbrev Step := ExceptT Fault (StateM Machine)

namespace Step

/-- The step that changes nothing and has a given outcome. -/
def attempt {α : Type} (r : Except Fault α) : Step α := ExceptT.mk (pure r)

/-- The step that changes nothing and has a given outcome, an error being a fault. -/
def ofResult {α : Type} (r : Except Error α) : Step α := attempt (r.mapError Fault.ofError)

/-! ## The stack -/

/-- Take the value on top of the stack. -/
def pop : Step Value := do
  match (← get).stack with
  | v :: rest =>
    modify fun m => { m with stack := rest }
    return v
  | [] => throw .stackUnderflow

/-- Take a number of values, the last of them from the top, or none at all if there are too few. -/
def popMany (count : Nat) : Step (List Value) := do
  let stack := (← get).stack
  if stack.length < count then throw .stackUnderflow
  modify fun m => { m with stack := stack.drop count }
  return (stack.take count).reverse

def peek : Step Value := do
  match (← get).stack with
  | v :: _ => return v
  | [] => throw .stackUnderflow

def clearStack : Step Unit := modify fun m => { m with stack := [] }

/-! ## The heap -/

def askHeap {α : Type} (f : Heap → Except Error α) : Step α := do ofResult (f (← get).heap)

def updateHeap (f : Heap → Except Error Heap) : Step Unit := do
  let heap ← askHeap f
  modify fun m => { m with heap }

def setObject (handle : Handle) (object : HeapObject) : Step Unit :=
  modify fun m => { m with heap := m.heap.set handle object }

def allocate (object : HeapObject) : Step Handle := do
  let (handle, heap) := (← get).heap.allocate object
  modify fun m => { m with heap }
  return handle

/-! ## Variables -/

def cell (slot : Variable) : Step Cell := do
  match (← get).frame.cell? slot with
  | some cell => return cell
  | none => throw (.unknownVariable slot)

def setCell (slot : Variable) (v : Value) : Step Unit :=
  modify fun m => { m with frame := m.frame.set slot v }

/-! ## Questions and outcomes -/

def note (question : Question) : Step Unit :=
  modify fun m => { m with journal := question :: m.journal }

def setReturned (v : Value) : Step Unit := modify fun m => { m with returned := some v }

def setException (v : Value) : Step Unit := modify fun m => { m with exception := some v }

def setStatic (field : FieldRef) (v : Value) : Step Unit :=
  modify fun m => { m with statics := m.statics.insert field.token.key v }

/-- What an instruction names, or the fault that it names nothing of the kind. -/
def operand {α : Type} (i : Instruction) (kind : String) (a : Option α) : Step α :=
  match a with
  | some a => return a
  | none => throw (.invalidOperand (i.text ++ " expects a " ++ kind ++ " operand"))

end Step

namespace Setting

open Step

/-- Put a value on the stack, which may not grow past its limit. -/
def push (s : Setting) (v : Value) : Step Unit := do
  let limit := s.options.maxStackDepth
  if limit ≤ (← get).stack.length then throw (.invalidProgram s!"stack grew past {limit} values")
  modify fun m => { m with stack := v :: m.stack }

/-- Store a value in a variable, converted to its type. -/
def setVariable (s : Setting) (slot : Variable) (v : Value) : Step Unit := do
  let cell ← Step.cell slot
  setCell slot (v.coerce s.width cell.type)

/-- Forget the value of a variable, as when its address escapes. -/
def forgetVariable (s : Setting) (slot : Variable) : Step Unit := do
  let cell ← Step.cell slot
  setCell slot (.unknownOf s.width cell.type)

/-- The value of a static field; the environment is asked when the field is first touched. -/
def loadStatic (s : Setting) (field : FieldRef) : Step Value := do
  match (← get).statics.get? field.token.key with
  | some v => return v
  | none =>
    note (.initialStatic field)
    let v := s.environment.initialStatic s.width field
    setStatic field v
    return v

def storeStatic (s : Setting) (field : FieldRef) (v : Value) : Step Unit :=
  setStatic field (v.coerce s.width field.fieldType)

/-- Forget the value of a static field, as when its address escapes. -/
def forgetStatic (s : Setting) (field : FieldRef) : Step Unit :=
  setStatic field (.unknownOf s.width field.fieldType)

def resolve (s : Setting) (receiver : Option TypeSig) (method : MethodRef) :
    Step Devirtualization := do
  note (.resolve receiver method)
  return s.environment.resolve receiver method

def invoke (s : Setting) (method : MethodRef) (arguments : List Value) : Step (Option Value) := do
  note (.invoke method arguments)
  attempt (s.environment.invoke s.width method arguments)

/-- Ask the environment whether objects of a type are instances of a target. -/
def isInstance (s : Setting) (type target : TypeSig) : Step Ternary := do
  note (.isInstance type target)
  return s.environment.isInstance type target

/-- Push an address of which nothing is known. -/
def pushUnknownAddress (s : Setting) : Step Unit := s.push (.pointer (.unknown s.width))

end Setting

namespace Value

/-- The number an index or a size stands for, where it is known. -/
def index? (s : Signedness) : Value → Except Fault (Option Int)
  | int32 x => .ok (x.toBitVec?.map s.read)
  | nativeInt x => .ok (x.toBitVec?.map s.read)
  | v => .error (.invalidProgram (v.kind ++ " is not an index"))

/-- The number a size stands for, where it is known and not negative. -/
def size? (v : Value) : Except Fault (Option Nat) := do
  return (← v.index? .signed).bind Int.toNat?

end Value

end CilAnalysis
