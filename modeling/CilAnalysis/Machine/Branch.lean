import CilAnalysis.Machine.Step
import CilAnalysis.Numeric.Comparison

/-!
# Branches

The instructions that decide where control goes.  Where the deciding value is not known, control
forks to every place it may go.
-/

namespace CilAnalysis

namespace Instruction

def target? (i : Instruction) : Option Nat :=
  match i.operand with
  | .target offset => some offset
  | _ => none

def table? (i : Instruction) : Option (List Nat) :=
  match i.operand with
  | .switch offsets => some offsets
  | _ => none

end Instruction

/-- The members of a list without those that came before. -/
def withoutRepeats (offsets : List Nat) : List Nat :=
  offsets.foldl (fun seen offset => if seen.contains offset then seen else seen ++ [offset]) []

namespace Step

def branch (i : Instruction) : Step Successor := do
  return .branch (← operand i "branch target" i.target?)

/-- Empty the stack and branch. -/
def leave (i : Instruction) : Step Successor := do
  let target ← operand i "branch target" i.target?
  clearStack
  return .branch target

def branchIf (i : Instruction) (condition : Ternary) : Step Successor := do
  let target ← operand i "branch target" i.target?
  match condition with
  | .true => return .branch target
  | .false => return .fallThrough
  | .unknown => return .fork [target, i.next]

/-- Take a value and branch when it is zero, or when it is not. -/
def branchOnValue (i : Instruction) (whenZero : Bool) : Step Successor := do
  let isZero := (← pop).isZero
  branchIf i (if whenZero then isZero else isZero.not)

/-- Where a switch goes for an index. -/
def switchTo (i : Instruction) (table : List Nat) : Option Nat → Successor
  | none => .fork (withoutRepeats (table ++ [i.next]))
  | some index =>
    match table[index]? with
    | some target => .branch target
    | none => .fallThrough

/-- Take an index, which counts as unsigned, and branch to the offset in that place of a table. -/
def switch (i : Instruction) : Step Successor := do
  let table ← operand i "switch table" i.table?
  let index ← pop
  let index ← attempt (index.index? .unsigned)
  return switchTo i table (index.map Int.toNat)

/-- Take an exception and throw it, or throw again. -/
def throws (again : Bool) : Step Successor := do
  if !again then
    let exception ← pop
    if exception.isZero = .true then throw .nullReference
    setException exception
  return .throws

/-- Empty the stack and leave a finally or fault handler. -/
def endFinally : Step Successor := do
  clearStack
  return .endFinally

def endFilter : Step Successor := do return .endFilter (← pop).isZero.not

end Step

namespace Setting

open Step

/-- Take two values and branch when a comparison holds, or when it fails. -/
def branchOnComparison (s : Setting) (i : Instruction) (c : Comparison)
    (unsigned whenHolds : Bool) : Step Successor := do
  let rhs ← pop
  let lhs ← pop
  let holds ← attempt (c.decide s.width unsigned lhs rhs)
  branchIf i (if whenHolds then holds else holds.not)

/-- Leave the method, with a value if it has one. -/
def ret (s : Setting) : Step Successor := do
  if s.returnsValue then setReturned (← pop)
  return .returns

end Setting

end CilAnalysis
