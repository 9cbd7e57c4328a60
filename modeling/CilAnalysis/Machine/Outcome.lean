import CilAnalysis.Instruction

/-!
# What the execution of an instruction comes to

An instruction is executed and says where control goes, or it faults.
-/

namespace CilAnalysis

/-!
## Faults

Why an instruction cannot be executed.  A fault is what the program being interpreted did wrong, or
a decision of the one who interprets it; the errors of the analyses that arise on the way become
faults too.
-/

/-- Why the execution of an instruction stopped. -/
inductive Fault where
  /-- The program does what no valid program does. -/
  | invalidProgram (reason : String)
  /-- The interpreter was not given the operation. -/
  | unresolvedInstruction (opcode : Opcode)
  /-- The method behind a virtual call cannot be found. -/
  | devirtualization (reason : String)
  | divideByZero
  | overflow
  | nullReference
  | invalidCast (reason : String)
  | indexOutOfRange
  | accessViolation (reason : String)
  | stackUnderflow
  /-- The operand is not of the kind the opcode asks for. -/
  | invalidOperand (reason : String)
  /-- The method has no such variable. -/
  | unknownVariable (slot : Variable)
  /-- Somebody other than the program stopped it. -/
  | aborted (reason : String)
  deriving DecidableEq

namespace Fault

def message : Fault → String
  | invalidProgram reason => "Invalid program: " ++ reason
  | unresolvedInstruction opcode => "No handler for " ++ opcode.mnemonic
  | devirtualization reason => "Devirtualization failed: " ++ reason
  | divideByZero => "Division by zero"
  | overflow => "Arithmetic overflow"
  | nullReference => "Null reference"
  | invalidCast reason => "Invalid cast: " ++ reason
  | indexOutOfRange => "Index out of range"
  | accessViolation reason => "Access violation: " ++ reason
  | stackUnderflow => "Stack underflow"
  | invalidOperand reason => "Invalid operand: " ++ reason
  | unknownVariable slot => "Unknown variable " ++ slot.text
  | aborted reason => "Aborted: " ++ reason

/-- The fault an error amounts to. -/
def ofError (e : Error) : Fault :=
  match e with
  | .divideByZero => divideByZero
  | .arithmeticOverflow => overflow
  | .memoryAccessOutOfBounds .. | .memoryBlockNotFound _ => accessViolation e.message
  | _ => invalidProgram e.message

end Fault

/-!
## Where control goes

What an instruction does to control once it is executed.  Control that depends on an unknown value
forks.
-/

/-- Where control goes after an instruction. -/
inductive Successor where
  /-- To the next instruction. -/
  | fallThrough
  | branch (target : Nat)
  /-- To one of several instructions, and it is not known to which. -/
  | fork (targets : List Nat)
  /-- Out of the method. -/
  | returns
  /-- To a handler of the exception. -/
  | throws
  /-- Out of a finally or fault handler. -/
  | endFinally
  /-- Out of a filter, with its verdict. -/
  | endFilter (accepts : Ternary)
  deriving DecidableEq, Repr

namespace Successor

/-- The offsets where control may go on, `next` being that of the next instruction. -/
def targets (next : Nat) : Successor → List Nat
  | fallThrough => [next]
  | branch target => [target]
  | fork targets => targets
  | returns | throws | endFinally | endFilter _ => []

def text : Successor → String
  | fallThrough => "fallthrough"
  | branch target => "branch " ++ Text.offsetLabel target
  | fork targets => "fork [" ++ Text.commaSeparated (targets.map Text.offsetLabel) ++ "]"
  | returns => "return"
  | throws => "throw"
  | endFinally => "endfinally"
  | endFilter accepts => "endfilter " ++ accepts.text

end Successor

/-- What the execution of an instruction comes to. -/
abbrev Outcome := Except Fault Successor

end CilAnalysis
