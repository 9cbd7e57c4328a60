import CilAnalysis.Error
import CilAnalysis.Ternary

/-!
# Words of which some bits are known

A `KnownBits w` describes a `w`-bit word by the bits that are known of it.  The word `a` is
described by `x`, written `a ∈ x`, when `a` agrees with `x` on every known bit.  Unknown bits are
stored as zero, so that each description has one representation.

The bitwise operations, the shifts and the changes of width work bit by bit and keep every bit that
the known bits of the operands determine.
-/

namespace CilAnalysis

/-- Whether the top bit of a word counts as a sign. -/
inductive Signedness where
  | signed
  | unsigned
  deriving DecidableEq, Repr

namespace Signedness

variable {w : Nat}

def read (s : Signedness) (a : BitVec w) : Int :=
  match s with
  | signed => a.toInt
  | unsigned => a.toNat

def least (s : Signedness) (w : Nat) : Int :=
  match s with
  | signed => -(Nat.pow 2 (w - 1) : Nat)
  | unsigned => 0

def greatest (s : Signedness) (w : Nat) : Int :=
  match s with
  | signed => (Nat.pow 2 (w - 1) : Nat) - 1
  | unsigned => (Nat.pow 2 w : Nat) - 1

def fits (s : Signedness) (w : Nat) (n : Int) : Bool :=
  decide (s.least w ≤ n ∧ n ≤ s.greatest w)

end Signedness

/-- A word of `w` bits of which only the bits set in `known` are known. -/
@[ext]
structure KnownBits (w : Nat) where
  /-- The known bits, with zeros in the unknown places. -/
  value : BitVec w
  /-- The places of the known bits. -/
  known : BitVec w
  /-- Unknown bits are stored as zero. -/
  value_and_known : value &&& known = value
  deriving DecidableEq

namespace KnownBits

variable {w : Nat}

/-- The word `a` has every bit that is known of `x`. -/
def Describes (x : KnownBits w) (a : BitVec w) : Prop := a &&& x.known = x.value

instance : Membership (BitVec w) (KnownBits w) := ⟨Describes⟩

instance (a : BitVec w) (x : KnownBits w) : Decidable (a ∈ x) :=
  inferInstanceAs (Decidable (_ = _))

/-- The word with the bits of `value` in the places set in `known`. -/
def masked (value known : BitVec w) : KnownBits w :=
  ⟨value &&& known, known, by rw [BitVec.and_assoc, BitVec.and_self]⟩

def exact (a : BitVec w) : KnownBits w := masked a (BitVec.allOnes w)

def ofNat (w n : Nat) : KnownBits w := exact (BitVec.ofNat w n)

/-- The known word with the low bits of a number, in two's complement. -/
def ofInt (w : Nat) (n : Int) : KnownBits w := exact (BitVec.ofInt w n)

def unknown : KnownBits w := masked 0#w 0#w

instance : Inhabited (KnownBits w) := ⟨unknown⟩

/-- A truth value as a word: one, zero, or a word whose lowest bit alone is unknown. -/
def ofTernary (w : Nat) : Ternary → KnownBits w
  | .true => exact 1#w
  | .false => exact 0#w
  | .unknown => masked 0#w (~~~1#w)

def isKnown (x : KnownBits w) : Bool := x.known == BitVec.allOnes w

def isFullyUnknown (x : KnownBits w) : Bool := x.known == 0#w

def toBitVec? (x : KnownBits w) : Option (BitVec w) :=
  if x.isKnown then some x.value else none

/-- The bit in place `i`, counted from the low end. -/
def bit (x : KnownBits w) (i : Nat) : Ternary :=
  if x.known.getLsbD i then Ternary.ofBool (x.value.getLsbD i) else .unknown

/-- The bit in place `i`, if the word has such a place. -/
def getBit (x : KnownBits w) (i : Nat) : Except Error Ternary :=
  if i < w then .ok (x.bit i) else .error (.bitIndexOutOfRange i)

/-- The word with the bit in place `i` replaced, if it has such a place. -/
def setBit (x : KnownBits w) (i : Nat) (b : Ternary) : Except Error (KnownBits w) :=
  let place := BitVec.twoPow w i
  if i < w then
    .ok <| match b with
      | .true => masked (x.value ||| place) (x.known ||| place)
      | .false => masked (x.value &&& ~~~place) (x.known ||| place)
      | .unknown => masked (x.value &&& ~~~place) (x.known &&& ~~~place)
  else
    .error (.bitIndexOutOfRange i)

/-- The top bit. -/
def signBit (x : KnownBits w) : Ternary := x.bit (w - 1)

def not (x : KnownBits w) : KnownBits w := masked (~~~x.value) x.known

/-- Bitwise conjunction: a zero known in either operand is known in the result. -/
def and (x y : KnownBits w) : KnownBits w :=
  masked (x.value &&& y.value)
    ((x.known &&& y.known) ||| (x.known &&& ~~~x.value) ||| (y.known &&& ~~~y.value))

/-- Bitwise disjunction: a one known in either operand is known in the result. -/
def or (x y : KnownBits w) : KnownBits w :=
  masked (x.value ||| y.value)
    ((x.known &&& y.known) ||| (x.known &&& x.value) ||| (y.known &&& y.value))

def xor (x y : KnownBits w) : KnownBits w :=
  masked (x.value ^^^ y.value) (x.known &&& y.known)

/-- Shift towards the high end by an amount taken modulo the width; zeros come in. -/
def shiftLeft (x : KnownBits w) (amount : Nat) : KnownBits w :=
  let n := amount % w
  masked (x.value <<< n) ((x.known <<< n) ||| ~~~(BitVec.allOnes w <<< n))

/-- Shift towards the low end by an amount taken modulo the width.  Zeros come in, or, for a signed
shift, copies of the sign bit with its knowledge. -/
def shiftRight (x : KnownBits w) (amount : Nat) (s : Signedness) : KnownBits w :=
  let n := amount % w
  match s with
  | .signed => masked (x.value.sshiftRight n) (x.known.sshiftRight n)
  | .unsigned => masked (x.value >>> n) ((x.known >>> n) ||| ~~~(BitVec.allOnes w >>> n))

/-- The word at another width.  Narrowing drops the high bits.  Widening adds zeros, or, for signed
words, copies of the sign bit with its knowledge. -/
def resize (w' : Nat) (s : Signedness) (x : KnownBits w) : KnownBits w' :=
  match s with
  | .signed => masked (x.value.signExtend w') (x.known.signExtend w')
  | .unsigned =>
    masked (x.value.setWidth w') (x.known.setWidth w' ||| ~~~((BitVec.allOnes w).setWidth w'))

/-- The low `w'` bits. -/
def truncate (w' : Nat) (x : KnownBits w) : KnownBits w' := x.resize w' .unsigned

/-- Whether two words are equal: they differ as soon as one bit known of both does. -/
def isEqual (x y : KnownBits w) : Ternary :=
  if (x.value ^^^ y.value) &&& (x.known &&& y.known) ≠ 0#w then .false
  else if x.isKnown && y.isKnown then .true
  else .unknown

/-- Whether a word is zero: it is not as soon as one bit is known to be set. -/
def isZero (x : KnownBits w) : Ternary :=
  if x.value ≠ 0#w then .false else if x.isKnown then .true else .unknown

def isNonZero (x : KnownBits w) : Ternary := x.isZero.not

/-- Whether the sign bit is clear; zero counts as positive. -/
def isPositive (x : KnownBits w) : Ternary := x.signBit.not

def isNegative (x : KnownBits w) : Ternary := x.signBit

/-! ## The bits of the constructed words -/

@[simp] theorem value_masked (value known : BitVec w) :
    (masked value known).value = value &&& known := rfl

@[simp] theorem known_masked (value known : BitVec w) : (masked value known).known = known := rfl

@[simp] theorem masked_value_known (x : KnownBits w) : masked x.value x.known = x := by
  ext1 <;> simp [x.value_and_known]

theorem mem_iff {a : BitVec w} {x : KnownBits w} : a ∈ x ↔ a &&& x.known = x.value := Iff.rfl

end KnownBits

end CilAnalysis
