import CilAnalysis.Numeric.Arithmetic

/-!
# Comparison of values

The relations of `Comparison` between values of the evaluation stack, as far as they are decided.
The unsigned form of a relation reads integers as unsigned and, of floating-point numbers, also
holds when they are unordered.  Of references only equality and its negation, the unsigned
`greater`, are defined.
-/

namespace CilAnalysis

namespace Comparison

def text : Comparison → String
  | equal => "Equal"
  | greater => "Greater"
  | less => "Less"
  | greaterOrEqual => "GreaterOrEqual"
  | lessOrEqual => "LessOrEqual"

def onIntegers {w : Nat} (c : Comparison) (s : Signedness) (x y : KnownBits w) : Ternary :=
  match c with
  | equal => x.isEqual y
  | greater => KnownBits.isGreater s x y
  | less => KnownBits.isLess s x y
  | greaterOrEqual => (KnownBits.isLess s x y).not
  | lessOrEqual => (KnownBits.isGreater s x y).not

/-- A relation between floating-point numbers, which holds of unordered ones or does not. -/
def onFloats (c : Comparison) (orUnordered : Bool) (x y : PartialFloat .double) : Ternary :=
  match c with
  | equal => x.isEqual y
  | greater => PartialFloat.isGreater orUnordered x y
  | less => PartialFloat.isLess orUnordered x y
  | greaterOrEqual => (PartialFloat.isLess (!orUnordered) x y).not
  | lessOrEqual => (PartialFloat.isGreater (!orUnordered) x y).not

def toZero (c : Comparison) (n : Int) : Bool :=
  match c with
  | equal => n = 0
  | greater => n > 0
  | less => n < 0
  | greaterOrEqual => n ≥ 0
  | lessOrEqual => n ≤ 0

/-- A relation between pointers, decided by their distance within one block. -/
def onPointers (c : Comparison) (p q : Pointer) : Ternary :=
  if c = equal then p.isEqual q
  else
    match p.difference? q with
    | some difference => .ofBool (c.toZero difference.toInt)
    | none => .unknown

/-- A relation between a pointer and an integer: only a pointer's being null is ever decided. -/
def onPointerAndInteger (c : Comparison) (p : Pointer) (x : KnownBits 64) : Ternary :=
  if c = equal ∧ x.isZero = .true then p.isZero else .unknown

/-- A relation between references, where it is defined. -/
def onReferences (c : Comparison) (unsigned : Bool) (r r' : Reference) : Except Fault Ternary :=
  match c, unsigned with
  | equal, _ => .ok (r.isEqual r')
  | greater, true => .ok (r.isEqual r').not
  | _, _ => .error (.invalidProgram (c.text ++ " is not defined for object references"))

/-- Whether a relation holds between two values. -/
def decide (width : PointerWidth) (c : Comparison) (unsigned : Bool) (lhs rhs : Value) :
    Except Fault Ternary :=
  let s : Signedness := if unsigned then .unsigned else .signed
  match lhs, rhs with
  | .object r, .object r' => c.onReferences unsigned r r'
  | _, _ => do
    match ← NumericOperands.ofValues width lhs rhs, width with
    | .int32 x y, _ => return c.onIntegers s x y
    | .int64 x y, _ => return c.onIntegers s x y
    | .native x y, .bits32 => return c.onIntegers s (x.truncate 32) (y.truncate 32)
    | .native x y, .bits64 => return c.onIntegers s x y
    | .float x y, _ => return c.onFloats unsigned x y
    | .pointers p q, _ => return c.onPointers p q
    | .pointerInteger p x, _ => return c.onPointerAndInteger p x
    | .integerPointer x p, _ => return c.onPointerAndInteger p x

end Comparison

end CilAnalysis
