import CilAnalysis.KnownBits.Representation
import CilAnalysis.Metadata.TypeSig
import CilAnalysis.PartialFloat

/-!
# Values

The evaluation stack holds integers of 32 and 64 bits, native integers, floating-point numbers,
references to objects and pointers, each as far as it is known.  A native integer is kept in 64 bits
whatever the width of pointers.  Which of these a location can hold is decided by its type.
-/

namespace CilAnalysis

/-- The name of a heap entry. -/
structure Handle where
  index : Nat
  deriving DecidableEq, Repr

def Handle.text (h : Handle) : String :=
  let index := h.index
  s!"heap[{index}]"

/-- A reference to an object. -/
inductive Reference where
  | null
  | known (handle : Handle)
  | unknown
  deriving DecidableEq, Repr

namespace Reference

def isKnown (r : Reference) : Bool := r != unknown

/-- The heap entry referred to, if it is known and there is one. -/
def handle? : Reference → Option Handle
  | known handle => some handle
  | null | unknown => none

/-- Whether nothing is referred to. -/
def isNull : Reference → Ternary
  | null => .true
  | known _ => .false
  | unknown => .unknown

def isEqual : Reference → Reference → Ternary
  | null, null => .true
  | known h, known h' => .ofBool (h == h')
  | null, known _ => .false
  | known _, null => .false
  | unknown, _ => .unknown
  | _, unknown => .unknown

def text : Reference → String
  | null => "null"
  | known handle => handle.text
  | unknown => "object?"

end Reference

/-- A pointer into a memory block: the block, if it is known, and a byte offset in it. -/
structure Pointer where
  base : Option Handle
  offset : BitVec 64
  width : PointerWidth
  deriving DecidableEq, Repr

namespace Pointer

def unknown (width : PointerWidth) : Pointer := ⟨none, 0, width⟩

def isKnown (p : Pointer) : Bool := p.base.isSome

def add (p : Pointer) (delta : BitVec 64) : Pointer := { p with offset := p.offset + delta }

def sub (p : Pointer) (delta : BitVec 64) : Pointer := p.add (-delta)

/-- The number of bytes between two pointers into one block. -/
def difference? (p q : Pointer) : Option (BitVec 64) :=
  match p.base, q.base with
  | some h, some h' => if h = h' then some (p.offset - q.offset) else none
  | _, _ => none

/-- Whether a pointer is null; a pointer into a block is not. -/
def isZero (p : Pointer) : Ternary := if p.isKnown then .false else .unknown

def isNonZero (p : Pointer) : Ternary := p.isZero.not

/-- Addresses count as unsigned, so a pointer is always positive. -/
def isPositive (_ : Pointer) : Ternary := .true

/-- Addresses count as unsigned, so a pointer is never negative. -/
def isNegative (_ : Pointer) : Ternary := .false

/-- Whether two pointers are equal, which is decided only within one block. -/
def isEqual (p q : Pointer) : Ternary :=
  match p.base, q.base with
  | some h, some h' => if h = h' then .ofBool (p.offset == q.offset) else .unknown
  | _, _ => .unknown

/-- A pointer in listings; the offset is written as an unsigned number. -/
def text (p : Pointer) : String :=
  match p.base with
  | some h => "&" ++ h.text ++ "+0x" ++ Text.hex p.offset.toNat
  | none => "&?"

end Pointer

/-- A value of the evaluation stack. -/
inductive Value where
  | int32 (bits : KnownBits 32)
  | int64 (bits : KnownBits 64)
  | nativeInt (bits : KnownBits 64)
  | float (number : PartialFloat .double)
  | object (reference : Reference)
  | pointer (pointer : Pointer)
  deriving DecidableEq

namespace Value

def null : Value := object .null

instance : Inhabited Value := ⟨object .unknown⟩

def ofInt32 (n : Int) : Value := int32 (.ofInt 32 n)

def ofInt64 (n : Int) : Value := int64 (.ofInt 64 n)

/-- The bits of an integer, the shorter ones with their sign extended. -/
def integer? : Value → Option (KnownBits 64)
  | int32 x => some (x.resize 64 .signed)
  | int64 x | nativeInt x => some x
  | float _ | object _ | pointer _ => none

/-- The bits of an integer; other values have none that are known. -/
def toInteger (v : Value) : KnownBits 64 := v.integer?.getD .unknown

def isZero : Value → Ternary
  | int32 x => x.isZero
  | int64 x | nativeInt x => x.isZero
  | float x => x.isZero
  | object r => r.isNull
  | pointer p => p.isZero

def isKnown : Value → Bool
  | int32 x => x.isKnown
  | int64 x | nativeInt x => x.isKnown
  | float x => x.isKnown
  | object r => r.isKnown
  | pointer p => p.isKnown

/-- Whether two values are the same; floating-point numbers are compared as numbers. -/
def same : Value → Value → Bool
  | float (.known x), float (.known y) => x.equal y
  | v, v' => v == v'

def kind : Value → String
  | int32 _ => "int32"
  | int64 _ => "int64"
  | nativeInt _ => "native int"
  | float _ => "F"
  | object _ => "O"
  | pointer _ => "&"

def text : Value → String
  | int32 x => "i4 " ++ x.text
  | int64 x => "i8 " ++ x.text
  | nativeInt x => "i " ++ x.text
  | float x => "r " ++ x.text
  | object r => r.text
  | pointer p => p.text

end Value

/-!
## Values of a type

What a location of a type holds: the value it starts with, the value of which nothing is known but
its type, and the value that is found there after a store.  Integers of fewer than 32 bits are cut
to their width when they are stored and extended when they are loaded.
-/

/-- The bits of a native integer: with pointers of 32 bits the upper half repeats the sign. -/
def PointerWidth.native (width : PointerWidth) (x : KnownBits 64) : KnownBits 64 :=
  match width with
  | .bits32 => (x.truncate 32).resize 64 .signed
  | .bits64 => x

namespace Value

def ofNativeInt (width : PointerWidth) (n : Int) : Value := nativeInt (width.native (.ofInt 64 n))

/-- The value that keeps an integer in a given shape. -/
def ofInteger (width : PointerWidth) (shape : IntegerShape) (x : KnownBits 64) : Value :=
  match shape with
  | .narrow bits s => int32 ((x.truncate bits).resize 32 s)
  | .word => int32 (x.truncate 32)
  | .long => int64 x
  | .native => nativeInt (width.native x)

/-- The value of which only the type is known. -/
def unknownOf (width : PointerWidth) (type : TypeSig) : Value :=
  match type, type.integerShape? with
  | .boolean, _ => int32 (.ofTernary 32 .unknown)
  | _, some shape => ofInteger width shape .unknown
  | .float32, none | .float64, none => float .unknown
  | .pointer _, none | .byRef _, none => pointer (.unknown width)
  | _, none => object .unknown

/-- The value a location of a type starts with. -/
def defaultOf (width : PointerWidth) (type : TypeSig) : Value :=
  match type, type.integerShape? with
  | _, some shape => ofInteger width shape (.exact 0)
  | .float32, none | .float64, none => float (.known (.zero false))
  | .pointer _, none | .byRef _, none => pointer (.unknown width)
  | .valueType _, none | .typedReference, none | .generic _, none => object .unknown
  | _, none => null

/-- The value that is found after a value was stored in a location of a type. -/
def coerce (width : PointerWidth) (type : TypeSig) (v : Value) : Value :=
  match type, type.integerShape?, v.integer? with
  | _, some shape, some x => ofInteger width shape x
  | .pointer _, none, some _ | .byRef _, none, some _ => pointer (.unknown width)
  | .float32, none, none =>
    match v with
    | float x => float ((x.convert .single).convert .double)
    | _ => v
  | _, _, _ => v

end Value

end CilAnalysis
