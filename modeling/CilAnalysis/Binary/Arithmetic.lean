import CilAnalysis.Binary.Basic

/-!
# Arithmetic on binary floating-point numbers

Each operation computes the exact result of its finite operands and rounds once.  A pattern that is
not a number is handed on, the left operand's before the right one's, and an operation without an
answer gives the quiet pattern with the sign set.
-/

namespace CilAnalysis.Binary

variable {f : BinaryFormat}

def neg (x : Binary f) : Binary f := ⟨x.bits ^^^ BitVec.twoPow f.width (f.width - 1)⟩

/-- The integer `± mantissa`. -/
private def withSign (negative : Bool) (mantissa : Nat) : Int :=
  if negative then -mantissa else mantissa

def add (x y : Binary f) : Binary f :=
  match x.decode, y.decode with
  | .nan, _ => x.quiet
  | _, .nan => y.quiet
  | .infinite a, .infinite b => if a = b then x else invalid
  | .infinite _, _ => x
  | _, .infinite _ => y
  | .finite a m d, .finite b n e =>
    let unit := min d e
    let sum :=
      withSign a (m * Nat.pow 2 (d - unit).toNat) + withSign b (n * Nat.pow 2 (e - unit).toNat)
    if sum = 0 then zero (a && b) else round (decide (sum < 0)) sum.natAbs 1 unit

def sub (x y : Binary f) : Binary f :=
  if x.isNaN then x.quiet else if y.isNaN then y.quiet else x.add y.neg

def mul (x y : Binary f) : Binary f :=
  let negative := x.isNegative ^^ y.isNegative
  match x.decode, y.decode with
  | .nan, _ => x.quiet
  | _, .nan => y.quiet
  | .infinite _, .finite _ 0 _ => invalid
  | .finite _ 0 _, .infinite _ => invalid
  | .infinite _, _ => infinity negative
  | _, .infinite _ => infinity negative
  | .finite _ m d, .finite _ n e => round negative (m * n) 1 (d + e)

def div (x y : Binary f) : Binary f :=
  let negative := x.isNegative ^^ y.isNegative
  match x.decode, y.decode with
  | .nan, _ => x.quiet
  | _, .nan => y.quiet
  | .infinite _, .infinite _ => invalid
  | .infinite _, _ => infinity negative
  | _, .infinite _ => zero negative
  | .finite _ m d, .finite _ n e =>
    if n = 0 then if m = 0 then invalid else infinity negative
    else round negative m n (d - e)

/-- The remainder of the quotient rounded towards zero; it has the sign of the dividend. -/
def rem (x y : Binary f) : Binary f :=
  match x.decode, y.decode with
  | .nan, _ => x.quiet
  | _, .nan => y.quiet
  | .infinite _, _ => invalid
  | _, .infinite _ => x
  | .finite a m d, .finite _ n e =>
    if n = 0 then invalid
    else
      let unit := min d e
      round a (m * Nat.pow 2 (d - unit).toNat % (n * Nat.pow 2 (e - unit).toNat)) 1 unit

/-- Whether two numbers are equal; a pattern that is not a number equals nothing. -/
def equal (x y : Binary f) : Bool :=
  match x.rank?, y.rank? with
  | some a, some b => a == b
  | _, _ => false

def less (x y : Binary f) : Bool :=
  match x.rank?, y.rank? with
  | some a, some b => decide (a < b)
  | _, _ => false

def unordered (x y : Binary f) : Bool := x.isNaN || y.isNaN

/-- The nearest number of another format.  A pattern that is not a number keeps its sign and the
leading bits of its fraction. -/
def convert (g : BinaryFormat) (x : Binary f) : Binary g :=
  match x.decode with
  | .nan =>
    let fraction := x.magnitude % Nat.pow 2 f.fractionBits
    let moved := fraction * Nat.pow 2 (g.fractionBits - f.fractionBits) /
      Nat.pow 2 (f.fractionBits - g.fractionBits)
    quiet (ofMagnitude x.isNegative (g.infinityBits + moved))
  | .infinite negative => infinity negative
  | .finite negative m e => round negative m 1 e

end CilAnalysis.Binary
