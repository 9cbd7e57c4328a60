import CilAnalysis.KnownBits.Basic

/-!
# Arithmetic on partly known words

Sums, products, quotients and orderings depend on all bits at once, so they are known only when both
operands are.  The checked operations compare the exact integer result with the range of the width.
-/

namespace CilAnalysis.KnownBits

variable {w : Nat}

/-- Apply a function of words to operands that are both known. -/
def map₂ (f : BitVec w → BitVec w → BitVec w) (x y : KnownBits w) : KnownBits w :=
  match x.toBitVec?, y.toBitVec? with
  | some a, some b => exact (f a b)
  | _, _ => unknown

/-- The sum, modulo the width. -/
def add (x y : KnownBits w) : KnownBits w := map₂ (· + ·) x y

/-- The difference, modulo the width. -/
def sub (x y : KnownBits w) : KnownBits w := map₂ (· - ·) x y

/-- The product, modulo the width. -/
def mul (x y : KnownBits w) : KnownBits w := map₂ (· * ·) x y

/-- The negative, modulo the width. -/
def neg (x : KnownBits w) : KnownBits w :=
  match x.toBitVec? with
  | some a => exact (-a)
  | none => unknown

/-- Apply a function of integers to operands that are both known, and refuse a result that does
not fit the width. -/
def checked (f : Int → Int → Int) (s : Signedness) (x y : KnownBits w) :
    Except Error (KnownBits w) :=
  match x.toBitVec?, y.toBitVec? with
  | some a, some b =>
    let n := f (s.read a) (s.read b)
    if s.fits w n then .ok (ofInt w n) else .error .arithmeticOverflow
  | _, _ => .ok unknown

def checkedAdd (s : Signedness) (x y : KnownBits w) : Except Error (KnownBits w) :=
  checked (· + ·) s x y

def checkedSub (s : Signedness) (x y : KnownBits w) : Except Error (KnownBits w) :=
  checked (· - ·) s x y

def checkedMul (s : Signedness) (x y : KnownBits w) : Except Error (KnownBits w) :=
  checked (· * ·) s x y

/-- The quotient, rounded towards zero.  A divisor known to be zero is refused whatever the
dividend; the only quotient that does not fit is that of the least signed word by minus one. -/
def div (s : Signedness) (x y : KnownBits w) : Except Error (KnownBits w) :=
  if y.toBitVec? = some 0#w then .error .divideByZero else checked Int.tdiv s x y

/-- The remainder of the quotient rounded towards zero; it has the sign of the dividend. -/
def rem (s : Signedness) (x y : KnownBits w) : Except Error (KnownBits w) :=
  if y.toBitVec? = some 0#w then .error .divideByZero
  else
    match x.toBitVec?, y.toBitVec? with
    | some a, some b => .ok (ofInt w ((s.read a).tmod (s.read b)))
    | _, _ => .ok unknown

def isLess (s : Signedness) (x y : KnownBits w) : Ternary :=
  match x.toBitVec?, y.toBitVec? with
  | some a, some b => Ternary.ofBool (decide (s.read a < s.read b))
  | _, _ => .unknown

def isGreater (s : Signedness) (x y : KnownBits w) : Ternary := isLess s y x

end CilAnalysis.KnownBits
