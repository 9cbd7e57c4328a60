import CilAnalysis.KnownBits.Basic

/-!
# Words as bytes and as bit strings

Two forms in which a partly known word leaves the machine and comes back: the bytes in which memory
keeps it, and the text in which it is written down.
-/

namespace CilAnalysis.KnownBits

variable {w : Nat}

/-!
## Bytes

A word whose width is a multiple of eight is a list of bytes, least significant first, and every
byte carries the knowledge of its own bits.
-/

/-- The word whose bytes are given, least significant first; bytes beyond the width are dropped and
missing ones are zero. -/
def joinBytes (w : Nat) : List (BitVec 8) → BitVec w
  | [] => 0#w
  | byte :: rest => byte.setWidth w ||| (joinBytes w rest <<< 8)

/-- The bytes of a word, least significant first. -/
def toBytes (x : KnownBits w) : List (KnownBits 8) :=
  (List.range (w / 8)).map fun i =>
    masked ((x.value >>> (8 * i)).setWidth 8) ((x.known >>> (8 * i)).setWidth 8)

/-- The word with the given bytes, least significant first.  Missing bytes are unknown. -/
def ofBytes (w : Nat) (bytes : List (KnownBits 8)) : KnownBits w :=
  masked (joinBytes w (bytes.map value)) (joinBytes w (bytes.map known))

/-!
## Bit strings

A partly known word is written with one character for each bit, the most significant first: `0` and
`1` for known bits and `?` for unknown ones.  When such a string is read, underscores may stand
anywhere and the number of bits must be the width.
-/

def bitChar : Ternary → Char
  | .true => '1'
  | .false => '0'
  | .unknown => '?'

def bitOfChar? (c : Char) : Option Ternary :=
  if c = '0' then some .false
  else if c = '1' then some .true
  else if c = '?' then some .unknown
  else none

def toBitString (x : KnownBits w) : String :=
  String.ofList ((List.range w).reverse.map fun i => bitChar (x.bit i))

/-- Move all bits one place up and put a bit in the lowest place. -/
def pushBit (x : KnownBits w) (b : Ternary) : KnownBits w :=
  let value := x.value <<< 1
  let known := x.known <<< 1
  match b with
  | .true => masked (value ||| 1#w) (known ||| 1#w)
  | .false => masked value (known ||| 1#w)
  | .unknown => masked value known

/-- The word with the given bits, the most significant first. -/
def ofBits (w : Nat) (bits : List Ternary) : KnownBits w := bits.foldl pushBit unknown

/-- Read a bit string of exactly the width, ignoring underscores.  The bits are counted without a
bound; a counter of 32 bits would give the same count for every text of fewer than `2 ^ 32`
characters. -/
def ofBitString (w : Nat) (text : String) : Except Error (KnownBits w) :=
  match (text.toList.filter (· ≠ '_')).mapM bitOfChar? with
  | some bits => if bits.length = w then .ok (ofBits w bits) else .error (.invalidBitString text)
  | none => .error (.invalidBitString text)

/-- A word with its width: in hexadecimal when it is known and as a bit string otherwise. -/
def text (x : KnownBits w) : String :=
  match x.toBitVec? with
  | some a => "0x" ++ Text.upperHex a.toNat ++ s!":{w}"
  | none => "0b" ++ x.toBitString ++ s!":{w}"

end CilAnalysis.KnownBits
