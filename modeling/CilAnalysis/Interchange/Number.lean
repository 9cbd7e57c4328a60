import CilAnalysis.Interchange.Tree
import CilAnalysis.KnownBits.Representation
import CilAnalysis.PartialFloat

/-!
# Numbers for interchange

A partly known word is written as its value and its mask in hexadecimal, a floating-point number as
its bits in hexadecimal.  A word may also be given as a bit string or as a number.
-/

namespace CilAnalysis.Interchange

def hexDigit (c : Char) : Reading Nat :=
  if '0' ≤ c ∧ c ≤ '9' then .ok (c.toNat - '0'.toNat)
  else if 'a' ≤ c ∧ c ≤ 'f' then .ok (c.toNat - 'a'.toNat + 10)
  else if 'A' ≤ c ∧ c ≤ 'F' then .ok (c.toNat - 'A'.toNat + 10)
  else malformed

def ofHex (s : String) : Reading Nat :=
  s.toList.foldlM (fun n c => return n * 16 + (← hexDigit c)) 0

/-- A number in hexadecimal. -/
structure HexNumber where
  value : Nat

instance : Encode HexNumber := ⟨fun n => .text (Text.hex n.value)⟩

instance : Decode HexNumber where
  decode t := do return ⟨← ofHex (← decode t)⟩

/-- The bytes a list of digits stands for, two digits for each. -/
def bytesOfHex : List Char → Reading (List (BitVec 8))
  | [] => .ok []
  | high :: low :: rest => do
    return BitVec.ofNat 8 (16 * (← hexDigit high) + (← hexDigit low)) :: (← bytesOfHex rest)
  | [_] => malformed

instance : Encode (List (BitVec 8)) :=
  ⟨fun bytes => .text (String.join (bytes.map fun b => Text.hexPadded 2 b.toNat))⟩

instance : Decode (List (BitVec 8)) where
  decode t := do bytesOfHex (← decode t : String).toList

instance : Encode Ternary where
  encode
    | .true => .text "True"
    | .false => .text "False"
    | .unknown => .text "Unknown"

instance : Decode Ternary where
  decode
    | .text "True" => .ok .true
    | .text "False" => .ok .false
    | .text "Unknown" => .ok .unknown
    | _ => malformed

/-- The width of pointers is given by whether it is 32 bits. -/
instance : Decode PointerWidth where
  decode t := do return bif ← decode t then .bits32 else .bits64

instance : Encode PointerWidth := ⟨fun width => .bool (width == .bits32)⟩

/-- Signedness is given by whether there is a sign. -/
instance : Decode Signedness where
  decode t := do return bif ← decode t then .signed else .unsigned

/-- The word with the low bits of a hexadecimal value and mask. -/
def wordOfHex (w : Nat) (value known : Tree) : Reading (KnownBits w) := do
  let value : HexNumber ← decode value
  let known : HexNumber ← decode known
  return .masked (BitVec.ofNat w value.value) (BitVec.ofNat w known.value)

def wordItems {w : Nat} (x : KnownBits w) : List Tree :=
  [encode (HexNumber.mk x.value.toNat), encode (HexNumber.mk x.known.toNat)]

instance {w : Nat} : Encode (KnownBits w) := ⟨fun x => .list (wordItems x)⟩

instance {w : Nat} : Decode (KnownBits w) where
  decode
    | .text s => refusing (KnownBits.ofBitString w s)
    | .number n => .ok (.ofInt w n)
    | .list [value, known] => wordOfHex w value known
    | _ => malformed

/-- Every undefined number is written alike. -/
instance {f : BinaryFormat} : Encode (Binary f) where
  encode x := .text (if x.isNaN then "nan" else Text.hexPadded (f.width / 4) x.bits.toNat)

instance {f : BinaryFormat} : Decode (Binary f) where
  decode t := do
    let s : String ← decode t
    if s = "nan" then return (Binary.invalid : Binary f).neg
    return ⟨BitVec.ofNat _ (← ofHex s)⟩

instance {f : BinaryFormat} : Encode (PartialFloat f) := ⟨fun x => encode x.value?⟩

instance {f : BinaryFormat} : Decode (PartialFloat f) where
  decode
    | .null => .ok .unknown
    | t => .known <$> decode t

/-- A 64-bit word with a sign, written in decimal. -/
instance : Encode (BitVec 64) := ⟨fun n => .text (toString n.toInt)⟩

instance : Decode (BitVec 64) where
  decode t := do return BitVec.ofInt 64 (← decode t)

end CilAnalysis.Interchange
