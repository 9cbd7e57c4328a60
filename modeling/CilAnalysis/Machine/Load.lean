import CilAnalysis.Machine.Step
import CilAnalysis.Numeric.Comparison
import CilAnalysis.Numeric.Conversion

/-!
# Constants, variables and numbers

The instructions that load constants, move values between variables and the stack, and compute with
the numbers on it.
-/

namespace CilAnalysis

namespace Instruction

def longConstant? (i : Instruction) : Option Int64 :=
  match i.operand with
  | .int64 n => some n
  | _ => none

def floatConstant? (i : Instruction) : Option Binary64 :=
  match i.operand with
  | .float32 x => some (x.convert .double)
  | .float64 x => some x
  | _ => none

def string? (i : Instruction) : Option String :=
  match i.operand with
  | .string text => some text
  | _ => none

end Instruction

namespace Setting

open Step

/-- Push a copy of the value on top. -/
def duplicate (s : Setting) : Step Unit := do s.push (← peek)

def loadInt32 (s : Setting) (i : Instruction) : Step Unit := do
  let n ← operand i "int32" i.constant?
  s.push (.ofInt32 n.toInt)

def loadInt64 (s : Setting) (i : Instruction) : Step Unit := do
  let n ← operand i "int64" i.longConstant?
  s.push (.ofInt64 n.toInt)

def loadFloat (s : Setting) (i : Instruction) : Step Unit := do
  let x ← operand i "float" i.floatConstant?
  s.push (.float (.known x))

def loadString (s : Setting) (i : Instruction) : Step Unit := do
  let text ← operand i "string" i.string?
  let handle ← allocate (.string text)
  s.push (.object (.known handle))

def loadVariable (s : Setting) (i : Instruction) : Step Unit := do
  let slot ← operand i "variable" i.slot?
  let cell ← Step.cell slot
  s.push cell.value

def storeVariable (s : Setting) (i : Instruction) : Step Unit := do
  let slot ← operand i "variable" i.slot?
  let v ← pop
  s.setVariable slot v

/-- Push the address of a variable, which is unknown from then on. -/
def loadVariableAddress (s : Setting) (i : Instruction) : Step Unit := do
  let slot ← operand i "variable" i.slot?
  s.forgetVariable slot
  s.pushUnknownAddress

/-- Replace the value on top. -/
def onTop (s : Setting) (f : Value → Except Fault Value) : Step Unit := do
  let v ← pop
  s.push (← attempt (f v))

/-- Replace the two values on top. -/
def onTopTwo (s : Setting) (f : Value → Value → Except Fault Value) : Step Unit := do
  let rhs ← pop
  let lhs ← pop
  s.push (← attempt (f lhs rhs))

/-- Replace the two values on top by the outcome of their comparison. -/
def compareTopTwo (s : Setting) (c : Comparison) (unsigned : Bool) : Step Unit :=
  s.onTopTwo fun lhs rhs => do
    return .int32 (.ofTernary 32 (← c.decide s.width unsigned lhs rhs))

end Setting

namespace Step

/-- Refuse a number on top that is not finite, and leave it there. -/
def checkFinite (i : Instruction) : Step Unit := do
  attempt ((← peek).requireFinite i.opcode)

end Step

end CilAnalysis
