import CilAnalysis.Binary.Arithmetic
import CilAnalysis.Binary.Text
import CilAnalysis.KnownBits.Basic

/-!
# Floating-point numbers that may be unknown

A floating-point number is either known or not at all: its bits are not tracked one by one.  An
operation with an unknown operand has an unknown result.
-/

namespace CilAnalysis

/-- A floating-point number that may be unknown. -/
inductive PartialFloat (f : BinaryFormat) where
  | unknown
  | known (value : Binary f)
  deriving DecidableEq

namespace PartialFloat

variable {f : BinaryFormat}

instance : Inhabited (PartialFloat f) := ⟨unknown⟩

def value? : PartialFloat f → Option (Binary f)
  | unknown => none
  | known x => some x

def isKnown (x : PartialFloat f) : Bool := x.value?.isSome

/-- The number, and zero for an unknown one. -/
def valueOrZero (x : PartialFloat f) : Binary f := x.value?.getD (Binary.zero false)

def map {g : BinaryFormat} (op : Binary f → Binary g) : PartialFloat f → PartialFloat g
  | unknown => unknown
  | known x => known (op x)

def map₂ (op : Binary f → Binary f → Binary f) : PartialFloat f → PartialFloat f → PartialFloat f
  | known x, known y => known (op x y)
  | _, _ => unknown

def test (p : Binary f → Bool) : PartialFloat f → Ternary
  | unknown => .unknown
  | known x => .ofBool (p x)

def test₂ (p : Binary f → Binary f → Bool) : PartialFloat f → PartialFloat f → Ternary
  | known x, known y => .ofBool (p x y)
  | _, _ => .unknown

def add : PartialFloat f → PartialFloat f → PartialFloat f := map₂ Binary.add

def sub : PartialFloat f → PartialFloat f → PartialFloat f := map₂ Binary.sub

def mul : PartialFloat f → PartialFloat f → PartialFloat f := map₂ Binary.mul

def div : PartialFloat f → PartialFloat f → PartialFloat f := map₂ Binary.div

def rem : PartialFloat f → PartialFloat f → PartialFloat f := map₂ Binary.rem

def neg : PartialFloat f → PartialFloat f := map Binary.neg

def isEqual : PartialFloat f → PartialFloat f → Ternary := test₂ Binary.equal

/-- Whether the first number is less than the second.  `orUnordered` is the answer when one of them
is not a number. -/
def isLess (orUnordered : Bool) : PartialFloat f → PartialFloat f → Ternary :=
  test₂ fun x y => x.less y || (orUnordered && x.unordered y)

def isGreater (orUnordered : Bool) (x y : PartialFloat f) : Ternary := isLess orUnordered y x

def isUnordered : PartialFloat f → PartialFloat f → Ternary := test₂ Binary.unordered

def isZero : PartialFloat f → Ternary := test fun x => x.equal (Binary.zero false)

def isPositive : PartialFloat f → Ternary := test fun x => !x.isNegative

def isNegative (x : PartialFloat f) : Ternary := x.isPositive.not

def isFinite : PartialFloat f → Ternary := test Binary.isFinite

/-- The number with the given bits, unknown as soon as one of them is. -/
def ofBits (x : KnownBits f.width) : PartialFloat f :=
  match x.toBitVec? with
  | some bits => known ⟨bits⟩
  | none => unknown

def toBits : PartialFloat f → KnownBits f.width
  | unknown => KnownBits.unknown
  | known x => KnownBits.exact x.bits

def convert (g : BinaryFormat) : PartialFloat f → PartialFloat g := map (Binary.convert g)

def text : PartialFloat f → String
  | unknown => "?"
  | known x => x.text

end PartialFloat

end CilAnalysis
