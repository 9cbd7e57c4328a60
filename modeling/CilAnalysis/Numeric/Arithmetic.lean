import CilAnalysis.KnownBits.Arithmetic
import CilAnalysis.Machine.Outcome
import CilAnalysis.Value

/-!
# Arithmetic of values

The operators of `Operator` and `Shift` on values of the evaluation stack.  The operands are brought
to a common shape first, and what is computed then depends on the shape alone.
-/

namespace CilAnalysis

/-!
## Pairs of numbers

A binary instruction accepts only certain pairs of kinds: integers of one width, native integers
with 32-bit ones, floating-point numbers with each other, and pointers with integers or each
other.  The 32-bit operand beside a native integer is extended with its sign.
-/

/-- The operands of a binary instruction, brought to a common shape. -/
inductive NumericOperands where
  | int32 (x y : KnownBits 32)
  | int64 (x y : KnownBits 64)
  | native (x y : KnownBits 64)
  | float (x y : PartialFloat .double)
  | pointerInteger (p : Pointer) (x : KnownBits 64)
  | integerPointer (x : KnownBits 64) (p : Pointer)
  | pointers (p q : Pointer)
  deriving DecidableEq

namespace NumericOperands

/-- Pair two values, or say that their kinds do not go together. -/
def ofValues (width : PointerWidth) (lhs rhs : Value) : Except Fault NumericOperands :=
  match lhs, rhs with
  | .int32 x, .int32 y => .ok (int32 x y)
  | .int64 x, .int64 y => .ok (int64 x y)
  | .nativeInt x, .nativeInt y => .ok (native x y)
  | .nativeInt x, .int32 y => .ok (native x (width.native (y.resize 64 .signed)))
  | .int32 x, .nativeInt y => .ok (native (width.native (x.resize 64 .signed)) y)
  | .float x, .float y => .ok (float x y)
  | .pointer p, .int32 x => .ok (pointerInteger p (x.resize 64 .signed))
  | .pointer p, .nativeInt x => .ok (pointerInteger p x)
  | .int32 x, .pointer p => .ok (integerPointer (x.resize 64 .signed) p)
  | .nativeInt x, .pointer p => .ok (integerPointer x p)
  | .pointer p, .pointer q => .ok (pointers p q)
  | _, _ => .error (.invalidProgram
      ("operands of type " ++ lhs.kind ++ " and " ++ rhs.kind ++ " do not match"))

end NumericOperands

namespace Fault

/-- The fault of an instruction applied to a kind of operands it is not defined for. -/
def undefinedFor (opcode : Opcode) (operands : String) : Fault :=
  invalidProgram (opcode.mnemonic ++ " is not defined for " ++ operands ++ " operands")

end Fault

/-!
## Operators

Native integers are computed with at the width of pointers.
-/

namespace PointerWidth

/-- Apply an operation at the width of pointers to native integers. -/
def onNative (width : PointerWidth)
    (f : {w : Nat} → KnownBits w → KnownBits w → Except Fault (KnownBits w))
    (x y : KnownBits 64) : Except Fault (KnownBits 64) :=
  match width with
  | .bits32 => do return (← f (x.truncate 32) (y.truncate 32)).resize 64 .signed
  | .bits64 => f x y

end PointerWidth

namespace Operator

def onIntegers {w : Nat} (op : Operator) (x y : KnownBits w) : Except Error (KnownBits w) :=
  match op with
  | add => .ok (x.add y)
  | sub => .ok (x.sub y)
  | mul => .ok (x.mul y)
  | div s => KnownBits.div s x y
  | rem s => KnownBits.rem s x y
  | and => .ok (x.and y)
  | or => .ok (x.or y)
  | xor => .ok (x.xor y)
  | checkedAdd s => KnownBits.checkedAdd s x y
  | checkedSub s => KnownBits.checkedSub s x y
  | checkedMul s => KnownBits.checkedMul s x y

/-- An operator on floating-point numbers, where it is defined. -/
def onFloats? (op : Operator) (x y : PartialFloat .double) : Option (PartialFloat .double) :=
  match op with
  | add => some (x.add y)
  | sub => some (x.sub y)
  | mul => some (x.mul y)
  | div .signed => some (x.div y)
  | rem .signed => some (x.rem y)
  | _ => none

def advances (op : Operator) : Bool := op == add || op == checkedAdd .unsigned

def retreats (op : Operator) : Bool := op == sub || op == checkedSub .unsigned

end Operator

namespace Pointer

/-- Move a pointer by a number of bytes; by an unknown number it goes astray. -/
def moveBy (p : Pointer) (move : Pointer → BitVec 64 → Pointer) (x : KnownBits 64) : Pointer :=
  match x.toBitVec? with
  | some delta => move p delta
  | none => unknown p.width

end Pointer

namespace Operator

/-- The value of an operator on two values; `opcode` names the instruction in faults. -/
def apply (width : PointerWidth) (opcode : Opcode) (op : Operator) (lhs rhs : Value) :
    Except Fault Value := do
  let integers {w : Nat} (x y : KnownBits w) : Except Fault (KnownBits w) :=
    (op.onIntegers x y).mapError Fault.ofError
  match ← NumericOperands.ofValues width lhs rhs with
  | .int32 x y => return .int32 (← integers x y)
  | .int64 x y => return .int64 (← integers x y)
  | .native x y => return .nativeInt (← width.onNative integers x y)
  | .float x y =>
    match op.onFloats? x y with
    | some z => return .float z
    | none => throw (.undefinedFor opcode "float")
  | .pointerInteger p x =>
    if op.advances then return .pointer (p.moveBy .add x)
    if op.retreats then return .pointer (p.moveBy .sub x)
    throw (.undefinedFor opcode "pointer and integer")
  | .integerPointer x p =>
    if op.advances then return .pointer (p.moveBy .add x)
    throw (.undefinedFor opcode "integer and pointer")
  | .pointers p q =>
    if op.retreats then
      match p.difference? q with
      | some difference => return .nativeInt (width.native (.exact difference))
      | none => return .nativeInt .unknown
    throw (.undefinedFor opcode "pointer")

end Operator

namespace Shift

/-- The largest amount by which anything is shifted; larger ones count as this one. -/
def maxAmount : Nat := 0xffffffff

/-- The number of places to shift by, where it is known. -/
def amount? (amount : Value) : Except Fault (Option Nat) :=
  match amount with
  | .int32 x => .ok (x.toBitVec?.map BitVec.toNat)
  | .nativeInt x => .ok (x.toBitVec?.map BitVec.toNat)
  | v => .error (.invalidProgram ("shift amount of type " ++ v.kind))

/-- A shift of an integer.  The amount, once limited, counts modulo the width. -/
def onInteger {w : Nat} (shift : Shift) (x : KnownBits w) : Option Nat → KnownBits w
  | none => .unknown
  | some amount =>
    match shift with
    | left => x.shiftLeft (min amount maxAmount)
    | right s => x.shiftRight (min amount maxAmount) s

/-- The value of a shift; `opcode` names the instruction in faults. -/
def apply (width : PointerWidth) (opcode : Opcode) (shift : Shift) (v amount : Value) :
    Except Fault Value := do
  let amount ← amount? amount
  match v, width with
  | .int32 x, _ => return .int32 (shift.onInteger x amount)
  | .int64 x, _ => return .int64 (shift.onInteger x amount)
  | .nativeInt x, .bits32 =>
    return .nativeInt ((shift.onInteger (x.truncate 32) amount).resize 64 .signed)
  | .nativeInt x, .bits64 => return .nativeInt (shift.onInteger x amount)
  | v, _ => throw (.undefinedFor opcode v.kind)

end Shift

namespace Value

/-- The value of opposite sign; `opcode` names the instruction in faults. -/
def negate (width : PointerWidth) (opcode : Opcode) : Value → Except Fault Value
  | int32 x => .ok (int32 x.neg)
  | int64 x => .ok (int64 x.neg)
  | nativeInt x => .ok (nativeInt (width.native x.neg))
  | float x => .ok (float x.neg)
  | v => .error (.undefinedFor opcode v.kind)

/-- The value with every bit inverted; `opcode` names the instruction in faults. -/
def complement (opcode : Opcode) : Value → Except Fault Value
  | int32 x => .ok (int32 x.not)
  | int64 x => .ok (int64 x.not)
  | nativeInt x => .ok (nativeInt x.not)
  | v => .error (.undefinedFor opcode v.kind)

end Value

end CilAnalysis
