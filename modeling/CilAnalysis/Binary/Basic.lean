/-!
# Binary floating-point numbers

Numbers in the binary interchange formats, kept as their bits.  `decode` says which number the bits
stand for: none at all, an infinity, or `± m · 2 ^ e` with a natural number `m`.  `round` goes the
other way: from an exact quotient times a power of two to the nearest number of the format, a tie
going to the even neighbour.  Every operation of the format is an exact computation followed by one
such rounding.
-/

namespace CilAnalysis

/-- A binary interchange format: one sign bit, exponent bits, fraction bits. -/
structure BinaryFormat where
  /-- The number of exponent bits. -/
  exponentBits : Nat
  /-- The number of stored fraction bits. -/
  fractionBits : Nat
  deriving DecidableEq, Repr

namespace BinaryFormat

abbrev single : BinaryFormat := ⟨8, 23⟩

abbrev double : BinaryFormat := ⟨11, 52⟩

abbrev width (f : BinaryFormat) : Nat := 1 + f.exponentBits + f.fractionBits

/-- The exponent of the least bit of the smallest numbers. -/
def leastExponent (f : BinaryFormat) : Int :=
  2 - (Nat.pow 2 (f.exponentBits - 1) : Nat) - f.fractionBits

/-- The bits of infinity, without its sign. -/
def infinityBits (f : BinaryFormat) : Nat :=
  (Nat.pow 2 f.exponentBits - 1) * Nat.pow 2 f.fractionBits

end BinaryFormat

/-- What the bits of a number stand for. -/
inductive Datum where
  /-- Not a number. -/
  | nan
  /-- An infinity. -/
  | infinite (negative : Bool)
  /-- The number `± mantissa · 2 ^ exponent`. -/
  | finite (negative : Bool) (mantissa : Nat) (exponent : Int)
  deriving DecidableEq, Repr

/-- A number in a binary interchange format. -/
@[ext]
structure Binary (f : BinaryFormat) where
  /-- The sign, exponent and fraction bits, from the top. -/
  bits : BitVec f.width
  deriving DecidableEq

abbrev Binary32 := Binary .single

abbrev Binary64 := Binary .double

/-- The quotient of two natural numbers rounded to the nearest, a tie going to the even one. -/
def roundQuotient (n d : Nat) : Nat :=
  if 2 * (n % d) < d then n / d
  else if d < 2 * (n % d) then n / d + 1
  else n / d + n / d % 2

/-- The greatest `k` with `2 ^ k ≤ n / d`, for positive `n` and `d`. -/
def quotientLog2 (n d : Nat) : Int :=
  let k : Int := (n.log2 : Int) - d.log2
  if d * Nat.pow 2 k.toNat ≤ n * Nat.pow 2 (-k).toNat then k else k - 1

namespace Binary

variable {f : BinaryFormat}

def isNegative (x : Binary f) : Bool := x.bits.msb

/-- The bits other than the sign, as a number.  Larger magnitudes have larger numbers. -/
def magnitude (x : Binary f) : Nat := x.bits.toNat % Nat.pow 2 (f.exponentBits + f.fractionBits)

def ofMagnitude (negative : Bool) (magnitude : Nat) : Binary f :=
  ⟨BitVec.ofNat f.width
    ((if negative then Nat.pow 2 (f.exponentBits + f.fractionBits) else 0) + magnitude)⟩

/-- What the bits stand for. -/
def decode (x : Binary f) : Datum :=
  let fraction := x.magnitude % Nat.pow 2 f.fractionBits
  let exponent := x.magnitude / Nat.pow 2 f.fractionBits
  if exponent = Nat.pow 2 f.exponentBits - 1 then
    if fraction = 0 then .infinite x.isNegative else .nan
  else if exponent = 0 then .finite x.isNegative fraction f.leastExponent
  else .finite x.isNegative (Nat.pow 2 f.fractionBits + fraction) (f.leastExponent + exponent - 1)

def zero (negative : Bool) : Binary f := ofMagnitude negative 0

def infinity (negative : Bool) : Binary f := ofMagnitude negative f.infinityBits

/-- The answer to an operation that has none: the quiet pattern with the sign set. -/
def invalid : Binary f := ofMagnitude true (f.infinityBits + Nat.pow 2 (f.fractionBits - 1))

/-- A pattern that is not a number, made quiet. -/
def quiet (x : Binary f) : Binary f := ⟨x.bits ||| BitVec.twoPow f.width (f.fractionBits - 1)⟩

/-- The number of the format nearest to `± n / d · 2 ^ e`, a tie going to the even neighbour. -/
def round (negative : Bool) (n d : Nat) (e : Int) : Binary f :=
  if n = 0 then zero negative
  else
    let unit := max (quotientLog2 n d + e - f.fractionBits) f.leastExponent
    let mantissa := roundQuotient (n * Nat.pow 2 (e - unit).toNat) (d * Nat.pow 2 (unit - e).toNat)
    let magnitude := (unit - f.leastExponent).toNat * Nat.pow 2 f.fractionBits + mantissa
    ofMagnitude negative (min magnitude f.infinityBits)

def ofInt (n : Int) : Binary f := round (decide (n < 0)) n.natAbs 1 0

def isNaN (x : Binary f) : Bool := x.decode == .nan

/-- Whether the bits stand for a number other than an infinity. -/
def isFinite (x : Binary f) : Bool :=
  match x.decode with
  | .finite .. => true
  | _ => false

/-- The integer part, towards zero, of a number other than an infinity. -/
def truncate? (x : Binary f) : Option Int :=
  match x.decode with
  | .finite negative mantissa exponent =>
    let n : Int := ((mantissa * Nat.pow 2 exponent.toNat / Nat.pow 2 (-exponent).toNat : Nat) : Int)
    some (if negative then -n else n)
  | _ => none

/-- The place of a number in the order of numbers; both zeros have the same. -/
def rank? (x : Binary f) : Option Int :=
  if x.isNaN then none
  else some (if x.isNegative then -(x.magnitude : Int) else x.magnitude)

end Binary

end CilAnalysis
