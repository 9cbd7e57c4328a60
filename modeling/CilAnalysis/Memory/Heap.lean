import CilAnalysis.Memory.Block
import CilAnalysis.SortedMap
import CilAnalysis.Value

/-!
# The heap

Objects are kept in the order of their allocation and referred to by handles.  Objects are never
freed.  The fields of an object are found by the number of their token.
-/

namespace CilAnalysis

/-- An object with fields; fields that were never stored are unknown. -/
structure ObjectState where
  type : TypeSig
  fields : SortedMap Nat Value
  deriving DecidableEq

namespace ObjectState

def field (o : ObjectState) (width : PointerWidth) (token : Token) (type : TypeSig) : Value :=
  (o.fields.get? token.key).getD (Value.unknownOf width type)

def setField (o : ObjectState) (token : Token) (v : Value) : ObjectState :=
  { o with fields := o.fields.insert token.key v }

end ObjectState

/-- An array of values. -/
structure ArrayState where
  element : TypeSig
  elements : Array Value
  deriving DecidableEq

namespace ArrayState

/-- The array whose elements all have the value their type starts with. -/
def ofLength (width : PointerWidth) (element : TypeSig) (length : Nat) : ArrayState :=
  ⟨element, Array.replicate length (Value.defaultOf width element)⟩

def set (a : ArrayState) (index : Nat) (v : Value) : Except Error ArrayState :=
  if index < a.elements.size then .ok { a with elements := a.elements.setIfInBounds index v }
  else .error (.arrayIndexOutOfRange index)

def forget (a : ArrayState) (width : PointerWidth) : ArrayState :=
  { a with elements := Array.replicate a.elements.size (Value.unknownOf width a.element) }

end ArrayState

/-- An entry of the heap. -/
inductive HeapObject where
  | object (state : ObjectState)
  | array (state : ArrayState)
  | string (text : String)
  | boxed (type : TypeSig) (value : Value)
  | memory (block : Block)
  deriving DecidableEq

def HeapObject.type : HeapObject → TypeSig
  | object state => state.type
  | array state => .array state.element
  | string _ => .string
  | boxed type _ => type
  | memory _ => .pointer .uint8

/-- The objects allocated so far. -/
structure Heap where
  objects : Array HeapObject
  deriving DecidableEq

namespace Heap

def empty : Heap := ⟨#[]⟩

def size (h : Heap) : Nat := h.objects.size

def allocate (h : Heap) (object : HeapObject) : Handle × Heap :=
  (⟨h.objects.size⟩, ⟨h.objects.push object⟩)

def get (h : Heap) (handle : Handle) : Except Error HeapObject :=
  match h.objects[handle.index]? with
  | some object => .ok object
  | none => .error (.memoryBlockNotFound handle.index)

def set (h : Heap) (handle : Handle) (object : HeapObject) : Heap :=
  ⟨h.objects.setIfInBounds handle.index object⟩

def block (h : Heap) (handle : Handle) : Except Error Block := do
  match ← h.get handle with
  | .memory block => return block
  | _ => throw (.notMemoryBlock handle.index)

def string (h : Heap) (handle : Handle) : Except Error String := do
  match ← h.get handle with
  | .string text => return text
  | _ => throw (.notString handle.index)

def type (h : Heap) (handle : Handle) : Except Error TypeSig := do
  return (← h.get handle).type

def updateBlock (h : Heap) (handle : Handle) (f : Block → Except Error Block) :
    Except Error Heap := do
  return h.set handle (.memory (← f (← h.block handle)))

end Heap

namespace Pointer

/-- The word a number of bytes after a pointer; behind an unknown pointer it is unknown. -/
def readWord (p : Pointer) (h : Heap) (w : Nat) (offset : BitVec 64) :
    Except Error (KnownBits w) :=
  match p.base with
  | some base => do (← h.block base).readWord w (p.offset + offset).toInt
  | none => .ok .unknown

/-- Store a word a number of bytes after a pointer; behind an unknown pointer nothing changes. -/
def writeWord {w : Nat} (p : Pointer) (h : Heap) (offset : BitVec 64) (x : KnownBits w) :
    Except Error Heap :=
  match p.base with
  | some base => h.updateBlock base fun block => block.writeWord (p.offset + offset).toInt x
  | none => .ok h

/-- The floating-point number a number of bytes after a pointer. -/
def readFloat (p : Pointer) (h : Heap) (f : BinaryFormat) (offset : BitVec 64) :
    Except Error (PartialFloat f) := do
  return .ofBits (← p.readWord h f.width offset)

/-- Store a floating-point number a number of bytes after a pointer. -/
def writeFloat {f : BinaryFormat} (p : Pointer) (h : Heap) (offset : BitVec 64)
    (x : PartialFloat f) : Except Error Heap :=
  p.writeWord h offset x.toBits

end Pointer

end CilAnalysis
