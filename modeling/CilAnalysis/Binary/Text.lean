import CilAnalysis.Binary.Basic

/-!
# Decimal text of binary floating-point numbers

A binary number is written as the shortest decimal that reads back as the same number.  The decimal
is found first, as digits and an exponent, and then written down.
-/

namespace CilAnalysis

/-!
## Shortest decimals

Among the decimals that lie in the interval of reals rounding to a binary number, the one with the
fewest digits, and of those the nearest to the number; a tie goes up.  The grids of multiples of
`10 ^ k` are tried from the coarsest on.  If a point of a grid lies in the interval, so does one of
the two neighbours of the number on that grid, so only these two are tested.
-/

/-- The decimal `digits · 10 ^ exponent`. -/
structure Decimal where
  /-- The significant digits, read as one number. -/
  digits : Nat
  /-- The power of ten they are multiplied with. -/
  exponent : Int
  deriving DecidableEq, Repr

namespace Decimal

/-- A positive binary number `4 · mantissa · 2 ^ unit` and the interval of the reals that round to
it, in the same unit. -/
structure Target where
  /-- The mantissa of the number. -/
  mantissa : Nat
  /-- The exponent of a quarter of the mantissa's unit. -/
  unit : Int
  /-- How far the interval reaches down, in quarters: two, or one below a power of two. -/
  below : Nat

namespace Target

/-- Numbers with an even mantissa are reached also from the ends of their interval. -/
def closed (t : Target) : Bool := t.mantissa % 2 == 0

/-- The neighbour of the number on the grid of multiples of `10 ^ k` that lies in the interval. -/
def onGrid? (t : Target) (k : Int) : Option Nat :=
  let scale := Nat.pow 2 t.unit.toNat * Nat.pow 10 (-k).toNat
  let step := Nat.pow 2 (-t.unit).toNat * Nat.pow 10 k.toNat
  let value := 4 * t.mantissa * scale
  let low := (4 * t.mantissa - t.below) * scale
  let high := (4 * t.mantissa + 2) * scale
  let down := value / step
  let downFits := if t.closed then decide (low ≤ down * step) else decide (low < down * step)
  let upFits :=
    if t.closed then decide ((down + 1) * step ≤ high) else decide ((down + 1) * step < high)
  if upFits && (!downFits || decide (step ≤ 2 * (value % step))) then some (down + 1)
  else if downFits then some down
  else none

/-- A power of ten above the number. -/
def topExponent (t : Target) : Int :=
  let numerator := (4 * t.mantissa + 2) * Nat.pow 2 t.unit.toNat
  let denominator := Nat.pow 2 (-t.unit).toNat
  ((Nat.toDigits 10 numerator).length : Int) - (Nat.toDigits 10 denominator).length + 1

/-- Try `fuel` grids from `10 ^ k` on, each ten times as fine as the one before. -/
def search (t : Target) : Nat → Int → Decimal
  | 0, k => ⟨0, k⟩
  | fuel + 1, k =>
    match t.onGrid? k with
    | some digits => ⟨digits, k⟩
    | none => t.search fuel (k - 1)

/-- The shortest decimal in the interval.  No number of the formats in use needs more than seventeen
digits, and at most three grids are too coarse for a first digit. -/
def shortest (t : Target) : Decimal := t.search 24 t.topExponent

end Target

/-- A decimal written without an exponent: the digits, filled up with zeros to the point. -/
def positional (d : Decimal) : String :=
  let digits := Nat.toDigits 10 d.digits
  if 0 ≤ d.exponent then
    String.ofList (digits ++ List.replicate d.exponent.toNat '0')
  else
    let places := (-d.exponent).toNat
    let filled := List.replicate (places + 1 - digits.length) '0' ++ digits
    let whole := filled.length - places
    String.ofList (filled.take whole ++ '.' :: filled.drop whole)

end Decimal

/-!
## Texts

A number is written without an exponent and without a point when it is an integer.  Zero keeps its
sign.
-/

namespace Binary

variable {f : BinaryFormat}

def text (x : Binary f) : String :=
  match x.decode with
  | .nan => "NaN"
  | .infinite negative => if negative then "-inf" else "inf"
  | .finite negative mantissa exponent =>
    let sign := if negative then "-" else ""
    if mantissa = 0 then sign ++ "0"
    else
      let below := if mantissa = Nat.pow 2 f.fractionBits then 1 else 2
      sign ++ (Decimal.Target.shortest ⟨mantissa, exponent - 2, below⟩).positional

/-- The decimal text of a number, with a point also when it is an integer. -/
def pointedText (x : Binary f) : String :=
  if x.text.toList.contains '.' then x.text else x.text ++ ".0"

end Binary

end CilAnalysis
