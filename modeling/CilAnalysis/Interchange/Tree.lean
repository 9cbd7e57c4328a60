import CilAnalysis.Machine.Outcome

/-!
# Trees for interchange

Data goes in and out of the library as trees of lists, records and scalars.  A type that can be read
from a tree has an instance of `Decode`, and one that can be written as a tree has one of `Encode`.
A tree may be malformed, or it may be well formed and stand for something the library refuses.
-/

namespace CilAnalysis.Interchange

/-- A tree of lists, records and scalars. -/
inductive Tree where
  | null
  | bool (value : Bool)
  | number (value : Int)
  /-- A floating-point number, which is finite. -/
  | real (value : Binary64)
  | text (value : String)
  | list (items : List Tree)
  | record (fields : List (String × Tree))
  deriving Inhabited

/-- Why a tree has no answer. -/
inductive Failure where
  /-- It is not of the form asked for. -/
  | malformed
  | refused (error : Error)
  | faulted (fault : Fault)

abbrev Reading := Except Failure

/-- The types that can be read from a tree. -/
class Decode (α : Type) where
  decode : Tree → Reading α

/-- The types that can be written as a tree. -/
class Encode (α : Type) where
  encode : α → Tree

export Decode (decode)
export Encode (encode)

def malformed {α : Type} : Reading α := .error .malformed

/-- The outcome of an operation, its error being a refusal. -/
def refusing {α : Type} : Except Error α → Reading α
  | .ok a => .ok a
  | .error e => .error (.refused e)

namespace Tree

/-- The field of a record; a missing one is null. -/
def get (t : Tree) (key : String) : Tree :=
  match t with
  | record fields => (fields.lookup key).getD null
  | _ => null

def read {α : Type} [Decode α] (t : Tree) (key : String) : Reading α := decode (t.get key)

/-- The field of a record, read, or a value to stand for a missing one. -/
def readD {α : Type} [Decode α] (t : Tree) (key : String) (missing : α) : Reading α :=
  match t.get key with
  | null => .ok missing
  | field => decode field

end Tree

instance : Encode Tree := ⟨id⟩

instance : Decode Tree := ⟨.ok⟩

instance : Encode Bool := ⟨.bool⟩

instance : Decode Bool where
  decode
    | .bool b => .ok b
    | _ => malformed

instance : Encode Int := ⟨.number⟩

/-- An integer is a number, or its decimal text. -/
instance : Decode Int where
  decode
    | .number n => .ok n
    | .text s =>
      match s.toInt? with
      | some n => .ok n
      | none => malformed
    | _ => malformed

instance : Encode Nat := ⟨fun n => .number n⟩

instance : Decode Nat where
  decode t := do
    let n : Int ← decode t
    if 0 ≤ n then return n.toNat else malformed

instance : Encode String := ⟨.text⟩

instance : Decode String where
  decode
    | .text s => .ok s
    | _ => malformed

instance : Encode Unit := ⟨fun _ => .null⟩

instance {α : Type} [Encode α] : Encode (List α) := ⟨fun as => .list (as.map encode)⟩

instance {α : Type} [Decode α] : Decode (List α) where
  decode
    | .list items => items.mapM decode
    | _ => malformed

/-- Nothing is null. -/
instance {α : Type} [Encode α] : Encode (Option α) where
  encode
    | some a => encode a
    | none => .null

instance {α : Type} [Decode α] : Decode (Option α) where
  decode
    | .null => .ok none
    | t => some <$> decode t

/-- The items of a tuple. -/
class EncodeItems (α : Type) where
  items : α → List Tree

instance (priority := low) {α : Type} [Encode α] : EncodeItems α := ⟨fun a => [encode a]⟩

instance {α β : Type} [Encode α] [EncodeItems β] : EncodeItems (α × β) :=
  ⟨fun p => encode p.1 :: EncodeItems.items p.2⟩

/-- A tuple is the list of its items. -/
instance {α β : Type} [Encode α] [EncodeItems β] : Encode (α × β) :=
  ⟨fun p => .list (EncodeItems.items p)⟩

/-- A pair is a list of two items. -/
instance {α β : Type} [Decode α] [Decode β] : Decode (α × β) where
  decode
    | .list [a, b] => do return (← decode a, ← decode b)
    | .list [a] => do return (← decode a, ← decode .null)
    | _ => malformed

def errorName : Error → String
  | .arithmeticOverflow => "ArithmeticOverflow"
  | .divideByZero => "DivideByZero"
  | .invalidBitString _ => "InvalidBitString"
  | .bitIndexOutOfRange _ => "BitIndexOutOfRange"
  | .memoryAccessOutOfBounds .. => "MemoryAccessOutOfBounds"
  | .memoryBlockNotFound _ => "MemoryBlockNotFound"
  | .vertexNotFound _ => "GraphVertexNotFound"
  | .edgeNotFound .. => "GraphEdgeNotFound"
  | .regionNotFound _ => "RegionNotFound"
  | .regionNotScope _ => "RegionNotScope"
  | .blockAlreadyPlaced _ => "BlockAlreadyPlaced"
  | .emptyMethodBody => "EmptyMethodBody"
  | .instructionNotFound _ => "InstructionNotFound"
  | .danglingBranchTarget .. => "DanglingBranchTarget"
  | .invalidExceptionClause _ => "InvalidExceptionHandler"
  | .overlappingRegions .. => "OverlappingRegions"
  | .stackUnderflow _ => "StackUnderflow"
  | .stackImbalance .. => "StackImbalance"
  | .dependencyAlreadyOwned => "DependencyAlreadyOwned"
  | .foreignDataSource => "ForeignDataSource"
  | .sharedProducer .. => "SharedProducer"
  | .notMemoryBlock _ | .notString _ | .maskTooShort .. | .arrayIndexOutOfRange _
  | .duplicateVertex _ | .duplicateEdge .. | .regionNotGuarded _ | .dependencyIndexOutOfRange _
  | .notACall _ | .notAStringCall _ | .custom _ => "Custom"

def faultName : Fault → String
  | .invalidProgram _ => "InvalidProgram"
  | .unresolvedInstruction _ => "UnresolvedInstruction"
  | .devirtualization _ => "Devirtualization"
  | .divideByZero => "DivideByZero"
  | .overflow => "Overflow"
  | .nullReference => "NullReference"
  | .invalidCast _ => "InvalidCast"
  | .indexOutOfRange => "IndexOutOfRange"
  | .accessViolation _ => "AccessViolation"
  | .stackUnderflow => "StackUnderflow"
  | .invalidOperand _ => "InvalidOperand"
  | .unknownVariable _ => "UnknownVariable"
  | .aborted _ => "Aborted"

instance : Encode Error where
  encode e := .record [("error", encode (errorName e)), ("message", encode e.message)]

instance : Encode Fault where
  encode f := .record [("fault", encode (faultName f)), ("message", encode f.message)]

/-- A fault is given by its name and, where it has one, its reason. -/
instance : Decode Fault where
  decode
    | .list [.text "InvalidProgram", .text reason] => .ok (.invalidProgram reason)
    | .list [.text "Devirtualization", .text reason] => .ok (.devirtualization reason)
    | .list [.text "DivideByZero"] => .ok .divideByZero
    | .list [.text "Overflow"] => .ok .overflow
    | .list [.text "NullReference"] => .ok .nullReference
    | .list [.text "InvalidCast", .text reason] => .ok (.invalidCast reason)
    | .list [.text "IndexOutOfRange"] => .ok .indexOutOfRange
    | .list [.text "AccessViolation", .text reason] => .ok (.accessViolation reason)
    | .list [.text "StackUnderflow"] => .ok .stackUnderflow
    | .list [.text "InvalidOperand", .text reason] => .ok (.invalidOperand reason)
    | .list [.text "Aborted", .text reason] => .ok (.aborted reason)
    | _ => malformed

instance : Encode Failure where
  encode
    | .malformed => .record [("error", encode "BadInput")]
    | .refused e => encode e
    | .faulted f => encode f

instance {ε α : Type} [Encode ε] [Encode α] : Encode (Except ε α) where
  encode
    | .ok a => encode a
    | .error e => encode e

end CilAnalysis.Interchange
