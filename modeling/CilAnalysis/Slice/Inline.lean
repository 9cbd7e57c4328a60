import CilAnalysis.Slice.Replay

/-!
# Inlining of strings

A call whose string result is known is replaced by the string, and the instructions that computed
its arguments lose their effect.  No offset moves.  A body in which something else uses a value of
the slice is left as it is.
-/

namespace CilAnalysis

namespace DataFlowNode

/-- The first source of a value on the stack that lies in a slice. -/
def sourceIn? (n : DataFlowNode) (slice : List Nat) : Option Nat :=
  ((n.stack.items.flatMap fun d => d.sources.keys).map DataSource.node).find? slice.contains

end DataFlowNode

namespace DataFlowGraph

/-- A producer in the slice of a call and a consumer of its value outside it, if there are any. -/
def shared? (g : DataFlowGraph) (call : Nat) (slice : List Nat) : Option (Nat × Nat) :=
  g.nodes.values.findSome? fun n =>
    if n.offset == call || slice.contains n.offset then none
    else (n.sourceIn? slice).map fun producer => (producer, n.offset)

end DataFlowGraph

namespace Instruction

/-- Whether an instruction is a call that returns a string. -/
def returnsString (i : Instruction) : Bool :=
  match i.opcode with
  | .call | .callvirt => i.signature?.any fun signature => signature.returnType == .string
  | _ => false

end Instruction

namespace MethodBody

/-- Take the effect from the instructions at some offsets. -/
def withNops (b : MethodBody) (offsets : List Nat) : Except Error MethodBody :=
  offsets.foldlM withNop b

/-- Replace a call and its slice by a string.  The offsets of the slice are returned with the new
body. -/
def inlineString (b : MethodBody) (offset : Nat) (text : String) :
    Except Error (List Nat × MethodBody) := do
  let i ← b.instructionAt offset
  if !i.returnsString then throw (.notAStringCall i.text)
  let g ← DataFlowGraph.ofBody b
  let slice ← g.stackSlice offset
  match g.shared? offset slice with
  | some (producer, consumer) => throw (.sharedProducer producer consumer)
  | none =>
    let cleared ← b.withNops slice
    return (slice, ← cleared.withCode offset .ldstr (.string text))

/-!
## Changes in place

All that can keep a string from being inlined is looked at before the first instruction loses its
effect.
-/

namespace InPlace

/-- Put another opcode and operand in the place of the instruction at an offset. -/
def setCode (offset : Nat) (opcode : Opcode) (operand : Operand) : Edit MethodBody Unit := do
  let index ← Edit.ask (·.indexOf offset)
  modify fun b =>
    { b with instructions := b.instructions.modify index fun i => i.withCode opcode operand }

/-- Put an instruction without effect in the place of the one at an offset. -/
def setNop (offset : Nat) : Edit MethodBody Unit := setCode offset .nop .none

/-- Replace a call and its slice by a string.  The offsets of the slice are returned. -/
def inlineString (offset : Nat) (text : String) : Edit MethodBody (List Nat) := do
  let i ← Edit.ask (·.instructionAt offset)
  if !i.returnsString then throw (.notAStringCall i.text)
  let g ← Edit.ask DataFlowGraph.ofBody
  let slice ← Edit.ask fun _ => g.stackSlice offset
  if let some (producer, consumer) := g.shared? offset slice then
    throw (.sharedProducer producer consumer)
  slice.forM setNop
  setCode offset .ldstr (.string text)
  return slice

end InPlace

end MethodBody

end CilAnalysis
