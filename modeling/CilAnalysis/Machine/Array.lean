import CilAnalysis.Machine.Step

/-!
# Arrays

A store in an unknown place of an array may reach any element, so every element becomes unknown.
The address of an element is not followed, and the element is unknown once the address is taken.
-/

namespace CilAnalysis

/-- The array a value refers to, where it is known. -/
def Value.array? : Value → Except Fault (Option Handle)
  | object .null => .error .nullReference
  | object (.known handle) => .ok (some handle)
  | object .unknown => .ok none
  | v => .error (.invalidProgram (v.kind ++ " is not an array"))

namespace Step

def array (handle : Handle) : Step ArrayState := do
  match ← askHeap fun h => h.get handle with
  | .array a => return a
  | object => throw (.invalidProgram (object.type.text ++ " is not an array"))

/-- The array and the place of an element, each where it is known; a place outside the array is a
fault. -/
def element (array index : Value) : Step (Option (Handle × ArrayState × Option Nat)) := do
  match ← attempt array.array? with
  | none => return none
  | some handle =>
    let a ← Step.array handle
    match ← attempt (index.index? .signed) with
    | none => return some (handle, a, none)
    | some n =>
      if 0 ≤ n ∧ n < a.elements.size then return some (handle, a, some n.toNat)
      throw .indexOutOfRange

end Step

namespace Setting

open Step

/-- Take a length and push a reference to a new array, if the length is known and not too large. -/
def newArray (s : Setting) (i : Instruction) : Step Unit := do
  let element ← operand i "type" i.type?
  let length ← pop
  match ← attempt (length.index? .signed) with
  | none => s.push (.object .unknown)
  | some n =>
    if n < 0 then throw .overflow
    if n ≤ s.options.maxAllocation then
      let handle ← allocate (.array (.ofLength s.width element n.toNat))
      s.push (.object (.known handle))
    else s.push (.object .unknown)

def arrayLength (s : Setting) : Step Unit := do
  let v ← pop
  match ← attempt v.array? with
  | some handle =>
    let a ← array handle
    s.push (.nativeInt (.ofNat 64 a.elements.size))
  | none => s.push (.nativeInt .unknown)

/-- The value of an element, read as the type the opcode names or else as the array's own. -/
def elementValue (s : Setting) (type : Option TypeSig) (a : ArrayState) (place : Option Nat) :
    Value :=
  let type := type.getD a.element
  match place.bind fun n => a.elements[n]? with
  | some v => v.coerce s.width type
  | none => .unknownOf s.width type

def loadElement (s : Setting) (i : Instruction) (type : Option TypeSig) : Step Unit := do
  let index ← pop
  let array ← pop
  match ← element array index with
  | some (_, a, place) => s.push (s.elementValue type a place)
  | none => s.push (.unknownOf s.width ((type.or i.type?).getD .object))

/-- Put a value, made for the array's type, in a place of an array, or forget all of the array if
the place is unknown. -/
def setElement (s : Setting) (array index : Value) (v : TypeSig → Value) : Step Unit := do
  match ← element array index with
  | some (handle, a, some n) => setObject handle (.array (← ofResult (a.set n (v a.element))))
  | some (handle, a, none) => setObject handle (.array (a.forget s.width))
  | none => return

def storeElement (s : Setting) : Step Unit := do
  let v ← pop
  let index ← pop
  let array ← pop
  s.setElement array index fun type => v.coerce s.width type

/-- Take an index and an array and push the address of the element. -/
def loadElementAddress (s : Setting) : Step Unit := do
  let index ← pop
  let array ← pop
  s.setElement array index fun type => .unknownOf s.width type
  s.pushUnknownAddress

end Setting

end CilAnalysis
