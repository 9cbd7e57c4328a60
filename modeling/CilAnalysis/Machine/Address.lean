import CilAnalysis.Machine.Step

/-!
# Loads and stores through addresses

Only addresses of memory blocks are followed.  What is read through any other is unknown, and what
is written through it is lost.  Values that have no fixed form in memory leave unknown bytes
behind.
-/

namespace CilAnalysis

/-- The number of bytes from an offset to the end of a block. -/
def Block.bytesFrom (b : Block) (offset : BitVec 64) : Nat :=
  (BitVec.ofNat 64 b.size - offset).toInt.toNat

namespace Value

/-- The pointer into a block that an address is, if it is one. -/
def address? : Value → Except Fault (Option Pointer)
  | pointer p => .ok (if p.isKnown then some p else none)
  | nativeInt _ | int32 _ => .ok none
  | v => .error (.invalidProgram (v.kind ++ " is not an address"))

def toFloat : Value → PartialFloat .double
  | float x => x
  | _ => .unknown

end Value

namespace Pointer

def readBytes (p : Pointer) (h : Heap) (size : Nat) : Except Error (List (KnownBits 8)) :=
  match p.base with
  | some base => do (← h.block base).readBytes p.offset.toInt size
  | none => .ok (List.replicate size .unknown)

def writeBytes (p : Pointer) (h : Heap) (bytes : List (KnownBits 8)) : Except Error Heap :=
  match p.base with
  | some base => h.updateBlock base fun block => block.writeBytes p.offset.toInt bytes
  | none => .ok h

/-- Store the same byte in every place of a range behind a pointer. -/
def fill (p : Pointer) (h : Heap) (size : Nat) (byte : KnownBits 8) : Except Error Heap :=
  match p.base with
  | some base => h.updateBlock base fun block => block.fill p.offset.toInt size byte
  | none => .ok h

/-- Forget a number of bytes behind a pointer, by default all of them. -/
def forget (p : Pointer) (h : Heap) (size : Option Nat) : Except Error Heap :=
  match p.base with
  | some base => h.updateBlock base fun block =>
      block.forget p.offset.toInt (size.getD (block.bytesFrom p.offset))
  | none => .ok h

def load (p : Pointer) (h : Heap) (width : PointerWidth) (type : TypeSig) : Except Error Value :=
  match type, type.integerShape?, type.size? width with
  | .float32, _, _ => do return .float ((← p.readFloat h .single 0).convert .double)
  | .float64, _, _ => do return .float (← p.readFloat h .double 0)
  | _, some _, some size => do
    let bits := (← p.readWord h (8 * size) 0).resize 64 .unsigned
    return (Value.int64 bits).coerce width type
  | _, _, _ => .ok (.unknownOf width type)

def store (p : Pointer) (h : Heap) (width : PointerWidth) (type : TypeSig) (v : Value) :
    Except Error Heap :=
  match type, type.integerShape?, type.size? width with
  | .float32, _, _ => p.writeFloat h 0 (v.toFloat.convert .single)
  | .float64, _, _ => p.writeFloat h 0 v.toFloat
  | _, some _, some size => p.writeWord h 0 (v.toInteger.truncate (8 * size))
  | _, _, size => p.forget h size

end Pointer

namespace Setting

open Step

def loadAt (s : Setting) (type : TypeSig) (address : Value) : Step Value := do
  match ← attempt address.address? with
  | some p => askHeap fun h => p.load h s.width type
  | none => return .unknownOf s.width type

def storeAt (s : Setting) (type : TypeSig) (address v : Value) : Step Unit := do
  match ← attempt address.address? with
  | some p => updateHeap fun h => p.store h s.width type v
  | none => return

def loadIndirect (s : Setting) (type : TypeSig) : Step Unit := do
  let address ← pop
  s.push (← s.loadAt type address)

/-- Take a value and an address and store the one at the other. -/
def storeIndirect (s : Setting) (type : TypeSig) : Step Unit := do
  let v ← pop
  let address ← pop
  s.storeAt type address v

/-- Move values of the type an instruction names through addresses. -/
def moveObject (s : Setting) (i : Instruction) (move : ObjectMove) : Step Unit := do
  let type ← operand i "type" i.type?
  match move with
  | .load => s.loadIndirect type
  | .store => s.storeIndirect type
  | .copy =>
    let source ← pop
    let destination ← pop
    let v ← s.loadAt type source
    s.storeAt type destination v
  | .init =>
    let address ← pop
    s.storeAt type address (.defaultOf s.width type)

/-- Take a size and push a pointer to a new block, if the size is known and not too large. -/
def localAlloc (s : Setting) : Step Unit := do
  let size ← pop
  match (← attempt size.size?).filter fun n => n ≤ s.options.maxAllocation with
  | some n =>
    let base ← allocate (.memory (if s.initLocals then .zeroed n else .uninitialized n))
    s.push (.pointer ⟨some base, 0, s.width⟩)
  | none => s.pushUnknownAddress

end Setting

namespace Step

/-- Take a size, a source and a destination and copy bytes between them. -/
def copyBlock : Step Unit := do
  let size ← pop
  let source ← pop
  let destination ← pop
  let size ← attempt size.size?
  match ← attempt destination.address? with
  | none => return
  | some p =>
    match ← attempt source.address?, size with
    | some q, some n => updateHeap fun h => do p.writeBytes h (← q.readBytes h n)
    | _, size => updateHeap fun h => p.forget h size

/-- Take a size, a value and a destination and fill the bytes there with the value's lowest. -/
def initBlock : Step Unit := do
  let size ← pop
  let v ← pop
  let destination ← pop
  let size ← attempt size.size?
  match ← attempt destination.address?, size with
  | none, _ => return
  | some p, some n => updateHeap fun h => p.fill h n (v.toInteger.truncate 8)
  | some p, none => updateHeap fun h => p.forget h none

end Step

end CilAnalysis
