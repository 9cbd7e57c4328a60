import CilAnalysis.Text

/-!
# Errors, and changes that may fail

The reasons for which an operation of the analyses is refused.  Each constructor is one cause with
the numbers that identify it; `Error.message` is the only place where a cause is put into words.

An operation that makes new data gives them or an error.  One that changes data in place is an
`Edit`: it may have changed them already when it fails.
-/

namespace CilAnalysis

/-- Why an operation was refused. -/
inductive Error where
  /-- A result does not fit its width. -/
  | arithmeticOverflow
  /-- The divisor is zero. -/
  | divideByZero
  /-- A text is no bit string of the width asked for. -/
  | invalidBitString (text : String)
  /-- A bit position lies outside the word. -/
  | bitIndexOutOfRange (index : Nat)
  /-- Bytes outside a memory block were asked for. -/
  | memoryAccessOutOfBounds (offset : Int) (size : Nat)
  /-- A handle denotes no heap entry. -/
  | memoryBlockNotFound (index : Nat)
  /-- A heap entry is not a memory block. -/
  | notMemoryBlock (index : Nat)
  /-- A heap entry is not a string. -/
  | notString (index : Nat)
  /-- A mask has fewer bytes than the read it is to describe. -/
  | maskTooShort (maskSize readSize : Nat)
  /-- An array has no element with this index. -/
  | arrayIndexOutOfRange (index : Nat)
  /-- A graph has no vertex with this index. -/
  | vertexNotFound (index : Nat)
  /-- A graph has no edge between these vertices. -/
  | edgeNotFound (head tail : Nat)
  /-- A graph already has a vertex with this index. -/
  | duplicateVertex (index : Nat)
  /-- A graph already has an edge between these vertices. -/
  | duplicateEdge (head tail : Nat)
  /-- A region tree has no region with this number. -/
  | regionNotFound (id : Nat)
  /-- A region is not a scope. -/
  | regionNotScope (id : Nat)
  /-- A region is not a guarded region. -/
  | regionNotGuarded (id : Nat)
  /-- A block already has its place in the region tree. -/
  | blockAlreadyPlaced (offset : Nat)
  /-- A method has no instructions. -/
  | emptyMethodBody
  /-- No instruction starts at this offset. -/
  | instructionNotFound (offset : Nat)
  /-- A branch leads to an offset where no instruction starts. -/
  | danglingBranchTarget (branch target : Nat)
  /-- An exception clause does not fit the instructions. -/
  | invalidExceptionClause (reason : String)
  /-- Two protected ranges overlap without one containing the other. -/
  | overlappingRegions (first second : Nat)
  /-- An instruction takes more values than the stack holds. -/
  | stackUnderflow (offset : Nat)
  /-- An instruction is reached with different stack heights. -/
  | stackImbalance (offset expected found : Nat)
  /-- A stack dependency already belongs to a node. -/
  | dependencyAlreadyOwned
  /-- A stack dependency names a producer of another graph. -/
  | foreignDataSource
  /-- A node has no stack dependency in this position. -/
  | dependencyIndexOutOfRange (index : Nat)
  /-- A value of a slice is also used outside it. -/
  | sharedProducer (producer consumer : Nat)
  /-- The instruction is not a call. -/
  | notACall (listing : String)
  /-- The instruction is not a call that returns a string. -/
  | notAStringCall (listing : String)
  /-- A reason given by the caller. -/
  | custom (reason : String)
  deriving DecidableEq, Repr

namespace Error

open Text

private def site (offset : Nat) : String := "0x" ++ upperHexPadded 4 offset

def message : Error → String
  | arithmeticOverflow => "Arithmetic overflow"
  | divideByZero => "Division by zero"
  | invalidBitString text => "Invalid bit string: " ++ text
  | bitIndexOutOfRange index => s!"Bit index {index} is out of range"
  | memoryAccessOutOfBounds offset size =>
    s!"Memory access at offset {offset} of size {size} is out of bounds"
  | memoryBlockNotFound index => s!"Memory block {index} not found"
  | notMemoryBlock index => s!"heap[{index}] is not a memory block"
  | notString index => s!"heap[{index}] is not a string"
  | maskTooShort maskSize readSize =>
    s!"mask of {maskSize} bytes cannot hold a read of {readSize}"
  | arrayIndexOutOfRange index => s!"array index {index} out of range"
  | vertexNotFound index => s!"The vertex id {index} does not exist in the graph"
  | edgeNotFound head tail =>
    s!"The edge with head {head} and tail {tail} does not exist in the graph"
  | duplicateVertex index => s!"duplicate vertex index {index}"
  | duplicateEdge head tail => s!"duplicate edge {head} -> {tail}"
  | regionNotFound id => s!"Region {id} does not exist in the region tree"
  | regionNotScope id => s!"Region {id} is not a scope region"
  | regionNotGuarded id => s!"region_{id} is not a guarded region"
  | blockAlreadyPlaced offset => "Block " ++ site offset ++ " already belongs to a region"
  | emptyMethodBody => "Method body contains no instructions"
  | instructionNotFound offset => "No instruction at offset " ++ site offset
  | danglingBranchTarget branch target =>
    "Branch at " ++ site branch ++ " targets " ++ site target ++
      ", which is not an instruction boundary"
  | invalidExceptionClause reason => "Invalid exception handler: " ++ reason
  | overlappingRegions first second =>
    "Protected range at " ++ site first ++ " overlaps range at " ++ site second ++
      " without nesting"
  | stackUnderflow offset => "Stack underflow at " ++ site offset
  | stackImbalance offset expected found =>
    "Stack height mismatch at " ++ site offset ++ s!": expected {expected}, found {found}"
  | dependencyAlreadyOwned => "Stack dependency is already owned by a node"
  | foreignDataSource => "Data source belongs to a different data flow graph"
  | dependencyIndexOutOfRange index => s!"stack dependency index {index} out of range"
  | sharedProducer producer consumer =>
    "Value pushed at " ++ site producer ++ " is also consumed at " ++ site consumer
  | notACall listing => listing ++ " is not a call"
  | notAStringCall listing => listing ++ " is not a call returning a string"
  | custom reason => reason

end Error

/-!
## Changes in place

Graphs, region trees and method bodies are changed in place, one step after the other.  A step may
fail, and then the steps after it are not made.  What the steps before it did is not taken back.
-/

/-- A change in place; the data reached before a failure are kept. -/
abbrev Edit (σ : Type) := ExceptT Error (StateM σ)

namespace Edit

variable {σ α : Type}

/-- Ask the data, which stay as they are. -/
def ask (f : σ → Except Error α) : Edit σ α := ExceptT.mk do return f (← get)

end Edit

end CilAnalysis
