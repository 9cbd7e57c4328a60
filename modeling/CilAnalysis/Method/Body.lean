import CilAnalysis.Instruction

/-!
# Method bodies

A method body is a list of instructions with the exception clauses that guard ranges of them and the
types of the variables.  Ranges contain their first offset and not their last.
-/

namespace CilAnalysis

/-- What kind of exception a clause handles. -/
inductive ClauseKind where
  /-- Exceptions of a type. -/
  | catches (type : TypeRef)
  /-- Exceptions that the filter at an offset accepts. -/
  | filters (start : Nat)
  /-- Every way out of the guarded range. -/
  | finalizes
  /-- Every exception. -/
  | faults
  deriving DecidableEq, Repr

/-- An exception clause: a guarded range and the range of its handler. -/
structure Clause where
  kind : ClauseKind
  tryStart : Nat
  tryEnd : Nat
  handlerStart : Nat
  handlerEnd : Nat
  deriving DecidableEq, Repr

namespace ClauseKind

/-- Whether the handler starts with the exception on the stack. -/
def receivesException : ClauseKind → Bool
  | catches _ | filters _ => true
  | finalizes | faults => false

end ClauseKind

namespace Clause

def filterStart? (c : Clause) : Option Nat :=
  match c.kind with
  | .filters start => some start
  | _ => none

/-- Where control first enters: the filter, or the handler where there is none. -/
def entry (c : Clause) : Nat := c.filterStart?.getD c.handlerStart

/-- The offsets where control can enter, the filter before the handler. -/
def entries (c : Clause) : List Nat :=
  if c.entry = c.handlerStart then [c.entry] else [c.entry, c.handlerStart]

def guards (c : Clause) (offset : Nat) : Bool := c.tryStart ≤ offset && offset < c.tryEnd

def text (c : Clause) : String :=
  let kind :=
    match c.kind with
    | .catches type => "catch " ++ type.fullName
    | .filters start => "filter " ++ Text.offsetLabel start
    | .finalizes => "finally"
    | .faults => "fault"
  "try " ++ Text.offsetLabel c.tryStart ++ "-" ++ Text.offsetLabel c.tryEnd ++ " " ++ kind ++ " " ++
    Text.offsetLabel c.handlerStart ++ "-" ++ Text.offsetLabel c.handlerEnd

end Clause

/-- The body of a method. -/
structure MethodBody where
  /-- The instructions in ascending order of their offsets. -/
  instructions : List Instruction
  clauses : List Clause := []
  /-- The types of the local variables. -/
  locals : List TypeSig := []
  /-- The types of the arguments, the object of the call included. -/
  parameters : List TypeSig := []
  returnType : TypeSig := .void
  /-- Whether local variables start as zeros. -/
  initLocals : Bool := true
  deriving DecidableEq

namespace MethodBody

def returnsValue (b : MethodBody) : Bool := !b.returnType.isVoid

def indexOf (b : MethodBody) (offset : Nat) : Except Error Nat :=
  match b.instructions.findIdx? fun i => i.offset == offset with
  | some index => .ok index
  | none => .error (.instructionNotFound offset)

def instructionAt (b : MethodBody) (offset : Nat) : Except Error Instruction :=
  match b.instructions.find? fun i => i.offset == offset with
  | some i => .ok i
  | none => .error (.instructionNotFound offset)

/-- Put another opcode and operand in the place of the instruction at an offset. -/
def withCode (b : MethodBody) (offset : Nat) (opcode : Opcode) (operand : Operand) :
    Except Error MethodBody := do
  let index ← b.indexOf offset
  return { b with instructions := b.instructions.modify index fun i => i.withCode opcode operand }

/-- Put an instruction without effect in the place of the one at an offset. -/
def withNop (b : MethodBody) (offset : Nat) : Except Error MethodBody :=
  b.withCode offset .nop .none

/-- The body with every instruction in its long form. -/
def expand (b : MethodBody) : MethodBody :=
  { b with instructions := b.instructions.map Instruction.expand }

end MethodBody

end CilAnalysis
