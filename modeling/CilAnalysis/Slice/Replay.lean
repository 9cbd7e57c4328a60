import CilAnalysis.DataFlow.Build
import CilAnalysis.Machine.Interpreter

/-!
# Replays and arguments

The instructions that produce what another takes from the stack are its slice.  Executing the slice
alone, each instruction after those it depends on, rebuilds the stack that the instruction finds.
-/

namespace CilAnalysis

/-- Why a slice could not be replayed. -/
inductive ReplayError where
  /-- There is no slice. -/
  | refused (error : Error)
  /-- An instruction of the slice faulted. -/
  | faulted (offset : Nat) (fault : Fault)
  deriving DecidableEq

namespace ReplayError

def message : ReplayError → String
  | refused error => error.message
  | faulted offset fault =>
    "Dispatch of instruction at 0x" ++ Text.upperHexPadded 4 offset ++ " failed: " ++ fault.message

end ReplayError

namespace DataFlowGraph

/-- The instructions that decide what an instruction takes from the stack, without itself. -/
def stackSlice (g : DataFlowGraph) (offset : Nat) : Except Error (List Nat) := do
  return (← g.orderedDependencies offset ⟨true, false⟩).dropLast

end DataFlowGraph

namespace Interpreter

/-- Execute the instructions at some offsets, wherever control would go in between. -/
def replay (p : Interpreter) (b : MethodBody) : List Nat → Machine → Except ReplayError Machine
  | [], m => .ok m
  | offset :: rest, m =>
    match b.instructionAt offset with
    | .error e => .error (.refused e)
    | .ok i =>
      match (p.dispatch (p.setting b) i).run m with
      | (.error fault, _) => .error (.faulted offset fault)
      | (.ok _, m') => p.replay b rest m'

/-- The state in which an instruction finds its operands, rebuilt from its slice. -/
def replayTo (p : Interpreter) (b : MethodBody) (offset : Nat) : Except ReplayError Machine := do
  let body := b.expand
  let slice ← (do (← DataFlowGraph.ofBody body).stackSlice offset).mapError ReplayError.refused
  p.replay body slice (p.start body)

/-- The stack that an instruction finds, from its bottom. -/
def stackAt (p : Interpreter) (b : MethodBody) (offset : Nat) :
    Except ReplayError (List Value) := do
  return (← p.replayTo b offset).values

end Interpreter

/-!
## Arguments

What a call is given for its parameters, found by replaying the slice of the call.
-/

/-- What is known of an argument. -/
inductive Argument where
  | int32 (value : BitVec 32)
  | int64 (value : BitVec 64)
  | float (value : Binary64)
  | string (text : String)
  | null
  /-- It is not known, or not of one of these kinds. -/
  | unknown
  deriving DecidableEq

namespace Argument

/-- What is known of a value that is given for a parameter of a type. -/
def ofValue (width : PointerWidth) (heap : Heap) (parameter : TypeSig) (v : Value) : Argument :=
  match v.coerce width parameter with
  | .int32 x => (x.toBitVec?.map int32).getD unknown
  | .int64 x => (x.toBitVec?.map int64).getD unknown
  | .nativeInt x => (x.toBitVec?.map int64).getD unknown
  | .float x => (x.value?.map float).getD unknown
  | .object .null => null
  | .object (.known handle) =>
    match heap.string handle with
    | .ok text => string text
    | .error _ => unknown
  | .object .unknown => unknown
  | .pointer _ => unknown

end Argument

namespace Instruction

/-- The signature of a direct call or of the construction of an object. -/
def callSignature? (i : Instruction) : Option MethodSignature :=
  match i.opcode with
  | .call | .callvirt | .newobj => i.signature?
  | _ => none

end Instruction

namespace Interpreter

/-- What a call is given for each of its parameters; the object of the call is not among them. -/
def argumentsAt (p : Interpreter) (b : MethodBody) (offset : Nat) :
    Except ReplayError (List Argument) := do
  let i ← (b.instructionAt offset).mapError .refused
  let some signature := i.callSignature? | throw (.refused (.notACall i.text))
  let m ← p.replayTo b offset
  let parameters := signature.parameters
  if m.stack.length < parameters.length then throw (.refused (.stackUnderflow offset))
  let given := (m.stack.take parameters.length).reverse
  return given.zipWith (fun v type => .ofValue p.options.width m.heap type v) parameters

end Interpreter

end CilAnalysis
