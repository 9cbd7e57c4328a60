import CilAnalysis.KnownBits.Representation

/-!
# Memory blocks

A memory block is an array of partly known bytes.  Words are kept with their least significant byte
first.  An access names a signed offset; one that leaves the block is refused and changes nothing.
-/

namespace CilAnalysis

/-- A block of memory. -/
structure Block where
  bytes : Array (KnownBits 8)
  deriving DecidableEq

namespace Block

def zeroed (size : Nat) : Block := ⟨Array.replicate size (KnownBits.exact 0)⟩

def uninitialized (size : Nat) : Block := ⟨Array.replicate size KnownBits.unknown⟩

def ofBytes (bytes : List (BitVec 8)) : Block := ⟨(bytes.map KnownBits.exact).toArray⟩

def size (b : Block) : Nat := b.bytes.size

def isEmpty (b : Block) : Bool := b.bytes.isEmpty

/-- Where an access starts, if all of it lies in the block. -/
def locate (b : Block) (offset : Int) (size : Nat) : Except Error Nat :=
  if 0 ≤ offset ∧ offset.toNat + size ≤ b.size then .ok offset.toNat
  else .error (.memoryAccessOutOfBounds offset size)

/-- The byte in a place, unknown outside the block. -/
def byte (b : Block) (index : Nat) : KnownBits 8 := b.bytes.getD index KnownBits.unknown

def readBytes (b : Block) (offset : Int) (size : Nat) : Except Error (List (KnownBits 8)) := do
  let start ← b.locate offset size
  return (b.bytes.extract start (start + size)).toList

/-- The bytes from an offset on, for a reader who has room for the masks of `maskSize` bytes. -/
def readMasked (b : Block) (offset : Int) (size maskSize : Nat) :
    Except Error (List (KnownBits 8)) :=
  if maskSize < size then .error (.maskTooShort maskSize size) else b.readBytes offset size

def setBytes (bytes : Array (KnownBits 8)) (start : Nat) : List (KnownBits 8) →
    Array (KnownBits 8)
  | [] => bytes
  | byte :: rest => setBytes (bytes.setIfInBounds start byte) (start + 1) rest

def writeBytes (b : Block) (offset : Int) (bytes : List (KnownBits 8)) : Except Error Block := do
  let start ← b.locate offset bytes.length
  return ⟨setBytes b.bytes start bytes⟩

/-- Bytes with the given bits, known in the places of their masks.  A byte without a mask is
unknown. -/
def maskedBytes : List (BitVec 8) → List (BitVec 8) → List (KnownBits 8)
  | [], _ => []
  | bits :: rest, mask :: masks => .masked bits mask :: maskedBytes rest masks
  | _ :: rest, [] => .unknown :: maskedBytes rest []

/-- Store bits from an offset on, known in the places of their masks. -/
def writeMasked (b : Block) (offset : Int) (bits masks : List (BitVec 8)) : Except Error Block :=
  b.writeBytes offset (maskedBytes bits masks)

def fill (b : Block) (offset : Int) (size : Nat) (byte : KnownBits 8) : Except Error Block := do
  let start ← b.locate offset size
  return ⟨setBytes b.bytes start (List.replicate size byte)⟩

def forget (b : Block) (offset : Int) (size : Nat) : Except Error Block :=
  b.fill offset size KnownBits.unknown

def readWord (b : Block) (w : Nat) (offset : Int) : Except Error (KnownBits w) := do
  return KnownBits.ofBytes w (← b.readBytes offset (w / 8))

def writeWord {w : Nat} (b : Block) (offset : Int) (x : KnownBits w) : Except Error Block :=
  b.writeBytes offset x.toBytes

/-!
## Changes in place

Bytes are stored one after another.  Where they go is settled before the first of them is stored, so
that an access that leaves the block leaves no trace in it.
-/

namespace InPlace

def setByte (index : Nat) (byte : KnownBits 8) : Edit Block Unit :=
  modify fun b => ⟨b.bytes.setIfInBounds index byte⟩

def setBytes (start : Nat) : List (KnownBits 8) → Edit Block Unit
  | [] => return
  | byte :: rest => do
    setByte start byte
    setBytes (start + 1) rest

def writeBytes (offset : Int) (bytes : List (KnownBits 8)) : Edit Block Unit := do
  let start ← Edit.ask (·.locate offset bytes.length)
  setBytes start bytes

/-- Store bits from an offset on, known in the places of their masks. -/
def writeMasked (offset : Int) (bits masks : List (BitVec 8)) : Edit Block Unit :=
  writeBytes offset (maskedBytes bits masks)

def writeWord {w : Nat} (offset : Int) (x : KnownBits w) : Edit Block Unit :=
  writeBytes offset x.toBytes

def forget (offset : Int) (size : Nat) : Edit Block Unit := do
  let start ← Edit.ask (·.locate offset size)
  setBytes start (List.replicate size .unknown)

end InPlace

end Block

end CilAnalysis
