import CilAnalysis.Numeric.Arithmetic

/-!
# Conversion of values

Conversions between the kinds of numbers.  A checked conversion of a number out of range is a fault,
an unchecked one of an integer drops bits, and an unchecked one of a floating-point number out of
range has an unknown result.
-/

namespace CilAnalysis

/-- The integer nearest to a given one among those that are floating-point numbers of 64 bits. -/
def nearestFloat (n : Int) : Int := ((Binary.ofInt n : Binary64).truncate?).getD n

namespace IntegerTarget

def type : IntegerTarget → TypeSig
  | int8 => .int8
  | uint8 => .uint8
  | int16 => .int16
  | uint16 => .uint16
  | int32 => .int32
  | uint32 => .uint32
  | int64 => .int64
  | uint64 => .uint64
  | nativeInt => .nativeInt
  | nativeUInt => .nativeUInt

def signedness : IntegerTarget → Signedness
  | int8 | int16 | int32 | int64 | nativeInt => .signed
  | uint8 | uint16 | uint32 | uint64 | nativeUInt => .unsigned

def bits (width : PointerWidth) : IntegerTarget → Nat
  | int8 | uint8 => 8
  | int16 | uint16 => 16
  | int32 | uint32 => 32
  | int64 | uint64 => 64
  | nativeInt | nativeUInt => width.bits

def least (width : PointerWidth) (t : IntegerTarget) : Int := t.signedness.least (t.bits width)

def greatest (width : PointerWidth) (t : IntegerTarget) : Int :=
  t.signedness.greatest (t.bits width)

def inRange (width : PointerWidth) (t : IntegerTarget) (n : Int) : Bool :=
  t.least width ≤ n && n ≤ t.greatest width

/-- The value of the target's type that holds a number. -/
def ofNumber (width : PointerWidth) (t : IntegerTarget) (n : Int) : Value :=
  (Value.ofInt64 n).coerce width t.type

/-- The value of which only the target's type is known. -/
def unknown (width : PointerWidth) (t : IntegerTarget) : Value := .unknownOf width t.type

/-- Whether a target is as wide as a pointer, so that it can hold one. -/
def holdsPointer (t : IntegerTarget) : Bool := t == nativeInt || t == nativeUInt

end IntegerTarget

namespace Value

/-- The bits of an integer in 64 places, the new ones filled as for the given signedness. -/
def extended? (width : PointerWidth) (s : Signedness) : Value → Option (KnownBits 64)
  | int32 x => some (x.resize 64 s)
  | int64 x => some x
  | nativeInt x =>
    match width with
    | .bits32 => some ((x.truncate 32).resize 64 s)
    | .bits64 => some x
  | float _ | object _ | pointer _ => none

def number? (width : PointerWidth) (s : Signedness) : Value → Option Int
  | int32 x => x.toBitVec?.map s.read
  | int64 x => x.toBitVec?.map s.read
  | nativeInt x =>
    match width, s with
    | .bits32, .unsigned => x.toBitVec?.map fun a => s.read (a.truncate 32)
    | _, _ => x.toBitVec?.map s.read
  | float _ | object _ | pointer _ => none

/-- The integer part of a floating-point number, if it lies between the target's bounds.  The bounds
are taken as floating-point numbers too: one that is not exactly such a number counts as its nearest
neighbour. -/
def floatPart? (width : PointerWidth) (t : IntegerTarget) (x : Binary64) : Option Int :=
  x.truncate?.filter fun n =>
    nearestFloat (t.least width) ≤ n && n ≤ nearestFloat (t.greatest width)

def ofFloat (width : PointerWidth) (t : IntegerTarget) (checked : Bool) :
    PartialFloat .double → Except Fault Value
  | .unknown => .ok (t.unknown width)
  | .known x =>
    match floatPart? width t x with
    | some n => .ok (t.ofNumber width n)
    | none => if checked then .error .overflow else .ok (t.unknown width)

/-- Convert an integer and drop the bits that do not fit. -/
def wrapTo (width : PointerWidth) (t : IntegerTarget) (v : Value) : Value :=
  match v.extended? width t.signedness with
  | some x => (int64 x).coerce width t.type
  | none => t.unknown width

/-- Convert an integer, which must be in range. -/
def checkedTo (width : PointerWidth) (t : IntegerTarget) (s : Signedness) (v : Value) :
    Except Fault Value :=
  match v.number? width s with
  | some n => if t.inRange width n then .ok (t.ofNumber width n) else .error .overflow
  | none => .ok (t.unknown width)

/-- Convert to an integer; with a check, the source is read with the given signedness.  `opcode`
names the instruction in faults. -/
def toIntegerTarget (width : PointerWidth) (opcode : Opcode) (t : IntegerTarget)
    (check : Option Signedness) (v : Value) : Except Fault Value :=
  match v, check with
  | float x, _ => ofFloat width t check.isSome x
  | pointer p, _ => .ok (if t.holdsPointer then pointer p else t.unknown width)
  | object _, _ => .error (.invalidProgram (opcode.mnemonic ++ " of an object reference"))
  | v, none => .ok (v.wrapTo width t)
  | v, some s => v.checkedTo width t s

/-- Convert to a floating-point number; `opcode` names the instruction in faults. -/
def toFloatTarget (width : PointerWidth) (opcode : Opcode) (t : FloatTarget) (v : Value) :
    Except Fault Value := do
  let s : Signedness := if t = .ofUnsigned then .unsigned else .signed
  let x : PartialFloat .double ←
    match v with
    | float x => pure x
    | object _ | pointer _ =>
      throw (.invalidProgram (opcode.mnemonic ++ " of a value of type " ++ v.kind))
    | v =>
      match v.number? width s with
      | some n => pure (.known (.ofInt n))
      | none => pure .unknown
  return float (if t = .single then (x.convert .single).convert .double else x)

/-- Refuse a number that is known not to be finite; `opcode` names the instruction in faults. -/
def requireFinite (opcode : Opcode) : Value → Except Fault Unit
  | float x => if x.isFinite = .false then .error .overflow else .ok ()
  | v => .error (.invalidProgram (opcode.mnemonic ++ " of " ++ v.kind))

end Value

end CilAnalysis
