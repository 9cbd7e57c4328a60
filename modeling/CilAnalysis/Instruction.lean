import CilAnalysis.Binary.Arithmetic
import CilAnalysis.Binary.Text
import CilAnalysis.Metadata.Member
import CilAnalysis.Opcode.Operation

/-!
# Instructions

An instruction is an opcode with its operand at an offset of a method body.  Branch targets are
offsets of the same body.  An instruction that takes the place of another keeps its offset and its
size, so that nothing else in the body moves.

Beside the instructions themselves stand how they are listed and what can be told of their effect
without executing them.
-/

namespace CilAnalysis

/-- A local variable or an argument of a method. -/
inductive Variable where
  | loc (index : Nat)
  | arg (index : Nat)
  deriving DecidableEq, Repr

namespace Variable

/-- Zero for locals and one for arguments. -/
def kind : Variable → Nat
  | loc _ => 0
  | arg _ => 1

/-- The number of a variable among those of its kind. -/
def index : Variable → Nat
  | loc index => index
  | arg index => index

/-- Locals come before arguments, each in the order of their numbers. -/
instance : Ord Variable := ⟨compareLex (compareOn kind) (compareOn index)⟩

instance : Std.TransOrd Variable := inferInstanceAs (Std.TransCmp (compareLex _ _))

def text : Variable → String
  | loc index => s!"V_{index}"
  | arg index => s!"A_{index}"

end Variable

/-- The operand of an instruction. -/
inductive Operand where
  | none
  | int8 (value : Int8)
  | int32 (value : Int32)
  | int64 (value : Int64)
  | float32 (value : Binary32)
  | float64 (value : Binary64)
  | target (offset : Nat)
  | switch (offsets : List Nat)
  | slot (slot : Variable)
  | method (method : MethodRef)
  | field (field : FieldRef)
  | type (type : TypeSig)
  | signature (signature : MethodSignature)
  | string (text : String)
  | member (member : Member)
  deriving DecidableEq

namespace Operand

/-- Whether two operands are the same: numbers by their values, references by their tokens. -/
def same : Operand → Operand → Bool
  | float32 x, float32 y => x.equal y
  | float64 x, float64 y => x.equal y
  | method m, method n => m.same n
  | field x, field y => x.same y
  | type t, type u => t.same u
  | signature s, signature t => s.same t
  | member m, member n => m.same n
  | x, y => x == y

end Operand

/-- An instruction of a method body. -/
structure Instruction where
  /-- Where the instruction starts. -/
  offset : Nat
  opcode : Opcode
  operand : Operand
  /-- The number of bytes the instruction occupies. -/
  size : Nat
  deriving DecidableEq

namespace Instruction

/-- The number of bytes an opcode and its operand are encoded in. -/
def encodedSize (opcode : Opcode) : Operand → Nat
  | .switch offsets => opcode.size + (4 + 4 * offsets.length)
  | _ => opcode.size + opcode.operandKind.size

def encoded (offset : Nat) (opcode : Opcode) (operand : Operand) : Instruction :=
  ⟨offset, opcode, operand, encodedSize opcode operand⟩

/-- Another opcode and operand in the place of an instruction. -/
def withCode (i : Instruction) (opcode : Opcode) (operand : Operand) : Instruction :=
  { i with opcode, operand }

/-- Where the next instruction starts. -/
def next (i : Instruction) : Nat := i.offset + i.size

def same (i j : Instruction) : Bool :=
  i.offset == j.offset && i.opcode == j.opcode && i.operand.same j.operand && i.size == j.size

/-- The offsets an instruction can branch to, in the order of its operand. -/
def targets (i : Instruction) : List Nat :=
  match i.operand with
  | .target offset => [offset]
  | .switch offsets => offsets
  | _ => []

def method? (i : Instruction) : Option MethodRef :=
  match i.operand with
  | .method m => some m
  | .member (.method m) => some m
  | _ => none

def field? (i : Instruction) : Option FieldRef :=
  match i.operand with
  | .field x => some x
  | .member (.field x) => some x
  | _ => none

def type? (i : Instruction) : Option TypeSig :=
  match i.operand with
  | .type t => some t
  | _ => none

def signature? (i : Instruction) : Option MethodSignature :=
  match i.operand with
  | .signature s => some s
  | _ => i.method?.map MethodRef.signature

end Instruction

namespace Opcode

/-- The variable that an opcode of one byte names by itself. -/
def slot? : Opcode → Option Variable
  | ldarg_0 => some (.arg 0)
  | ldarg_1 => some (.arg 1)
  | ldarg_2 => some (.arg 2)
  | ldarg_3 => some (.arg 3)
  | ldloc_0 | stloc_0 => some (.loc 0)
  | ldloc_1 | stloc_1 => some (.loc 1)
  | ldloc_2 | stloc_2 => some (.loc 2)
  | ldloc_3 | stloc_3 => some (.loc 3)
  | _ => none

/-- The constant that an opcode of one byte loads by itself. -/
def constant? : Opcode → Option Int32
  | ldc_i4_m1 => some (-1)
  | ldc_i4_0 => some 0
  | ldc_i4_1 => some 1
  | ldc_i4_2 => some 2
  | ldc_i4_3 => some 3
  | ldc_i4_4 => some 4
  | ldc_i4_5 => some 5
  | ldc_i4_6 => some 6
  | ldc_i4_7 => some 7
  | ldc_i4_8 => some 8
  | _ => none

end Opcode

namespace Instruction

/-- The variable an instruction loads, stores or takes the address of. -/
def slot? (i : Instruction) : Option Variable :=
  match i.opcode.slot?, i.operand with
  | some v, _ => some v
  | none, .slot v => some v
  | none, _ => none

def constant? (i : Instruction) : Option Int32 :=
  match i.opcode.constant?, i.opcode, i.operand with
  | some n, _, _ => some n
  | none, .ldc_i4_s, .int8 n => some n.toInt32
  | none, .ldc_i4_s, .int32 n => some n
  | none, .ldc_i4, .int8 n => some n.toInt32
  | none, .ldc_i4, .int32 n => some n
  | none, _, _ => none

/-- The long form of an instruction: the variable or constant that an abbreviated opcode names
becomes the operand. -/
def expand (i : Instruction) : Instruction :=
  match i.opcode.longForm? with
  | none => i
  | some long =>
    i.withCode long <|
      match i.constant?, i.slot? with
      | some n, _ => .int32 n
      | none, some v => .slot v
      | none, none => i.operand

/-- Whether the operand is of the kind the opcode asks for. -/
def isWellFormed (i : Instruction) : Bool :=
  match i.opcode.operandKind, i.operand with
  | .none, .none => true
  | .shortTarget, .target _ => true
  | .target, .target _ => true
  | .shortInt, .int8 _ => true
  | .shortInt, .int32 _ => true
  | .int32, .int32 _ => true
  | .int64, .int64 _ => true
  | .float32, .float32 _ => true
  | .float64, .float64 _ => true
  | .shortSlot, .slot _ => true
  | .slot, .slot _ => true
  | .method, .method _ => true
  | .field, .field _ => true
  | .type, .type _ => true
  | .signature, .signature _ => true
  | .string, .string _ => true
  | .token, .member _ => true
  | .switch, .switch _ => true
  | _, _ => false

end Instruction

/-!
## Listings

An instruction is listed as the label of its offset, its mnemonic and its operand.
-/

def Operand.text : Operand → String
  | none => ""
  | int8 n => toString n.toInt
  | int32 n => toString n.toInt
  | int64 n => toString n.toInt
  | float32 x => x.text
  | float64 x => x.text
  | target offset => Text.offsetLabel offset
  | switch offsets => "(" ++ Text.commaSeparated (offsets.map Text.offsetLabel) ++ ")"
  | slot v => v.text
  | method m => m.text
  | field x => x.text
  | type t => t.text
  | signature s =>
    let count := s.parameters.length
    s!"({count} params)"
  | string text => Text.quote text
  | member m => m.text

def Instruction.text (i : Instruction) : String :=
  let head := Text.offsetLabel i.offset ++ ": " ++ i.opcode.mnemonic
  match i.operand with
  | .none => head
  | operand => head ++ " " ++ operand.text

/-!
## Effects on stack and variables

How many values an instruction takes from the stack and leaves on it, and which variables it reads
and writes, as far as this can be told without running it.  How many values a return takes depends
on whether the method has a result.
-/

namespace Instruction

/-- The number of values an instruction takes from the stack. -/
def popCount (i : Instruction) (returnsValue : Bool) : Nat :=
  match i.opcode.stackPop with
  | .fixed count => count
  | .all => 0
  | .byContext =>
    match i.opcode, i.signature? with
    | .ret, _ => returnsValue.toNat
    | .newobj, some s => s.parameters.length
    | .newobj, none => 0
    | .calli, some s => s.argumentCount + 1
    | .calli, none => 1
    | _, some s => s.argumentCount
    | _, none => 0

def pushCount (i : Instruction) : Nat :=
  match i.opcode.stackPush with
  | .fixed count => count
  | .bySignature =>
    match i.signature? with
    | some s => s.returnsValue.toNat
    | none => 0

def clearsStack (i : Instruction) : Bool := i.opcode.stackPop == .all

def variablesRead (i : Instruction) : List Variable :=
  if i.opcode.operation = .loadVariable then i.slot?.toList else []

def variablesWritten (i : Instruction) : List Variable :=
  if i.opcode.operation = .storeVariable then i.slot?.toList else []

end Instruction

end CilAnalysis
