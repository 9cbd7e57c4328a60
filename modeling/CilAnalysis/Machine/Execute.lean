import CilAnalysis.Machine.Address
import CilAnalysis.Machine.Array
import CilAnalysis.Machine.Branch
import CilAnalysis.Machine.Load
import CilAnalysis.Machine.Object

/-!
# Execution of an instruction

What each operation does to the state and to control.
-/

namespace CilAnalysis

namespace Step

/-- A step after which control goes to the next instruction. -/
def thenNext (step : Step Unit) : Step Successor := do
  step
  return .fallThrough

end Step

namespace Setting

open Step

/-- Execute an instruction as an operation. -/
def perform (s : Setting) (i : Instruction) : Operation → Step Successor
  | .nop => return .fallThrough
  | .dup => thenNext s.duplicate
  | .pop => thenNext do let _ ← Step.pop
  | .loadNull => thenNext (s.push .null)
  | .loadInt32 => thenNext (s.loadInt32 i)
  | .loadInt64 => thenNext (s.loadInt64 i)
  | .loadFloat => thenNext (s.loadFloat i)
  | .loadString => thenNext (s.loadString i)
  | .loadVariable => thenNext (s.loadVariable i)
  | .storeVariable => thenNext (s.storeVariable i)
  | .loadVariableAddress => thenNext (s.loadVariableAddress i)
  | .argumentList => thenNext (s.push (.nativeInt .unknown))
  | .binary op => thenNext (s.onTopTwo (op.apply s.width i.opcode))
  | .shift shift => thenNext (s.onTopTwo (shift.apply s.width i.opcode))
  | .negate => thenNext (s.onTop (Value.negate s.width i.opcode))
  | .complement => thenNext (s.onTop (Value.complement i.opcode))
  | .compare c unsigned => thenNext (s.compareTopTwo c unsigned)
  | .convertInteger target check =>
    thenNext (s.onTop (Value.toIntegerTarget s.width i.opcode target check))
  | .convertFloat target => thenNext (s.onTop (Value.toFloatTarget s.width i.opcode target))
  | .checkFinite => thenNext (checkFinite i)
  | .branch => Step.branch i
  | .leave => Step.leave i
  | .branchOnValue whenZero => Step.branchOnValue i whenZero
  | .branchOnComparison c unsigned whenHolds => s.branchOnComparison i c unsigned whenHolds
  | .switch => Step.switch i
  | .ret => s.ret
  | .throws again => Step.throws again
  | .endFinally => Step.endFinally
  | .endFilter => Step.endFilter
  | .loadIndirect type => thenNext (s.loadIndirect type)
  | .storeIndirect type => thenNext (s.storeIndirect type)
  | .localAlloc => thenNext s.localAlloc
  | .copyBlock => thenNext Step.copyBlock
  | .initBlock => thenNext Step.initBlock
  | .newArray => thenNext (s.newArray i)
  | .arrayLength => thenNext s.arrayLength
  | .loadElement type => thenNext (s.loadElement i type)
  | .storeElement => thenNext s.storeElement
  | .loadElementAddress => thenNext s.loadElementAddress
  | .call virtual => thenNext (s.call i virtual)
  | .callIndirect => thenNext (s.callIndirect i)
  | .jump => s.jump i
  | .newObject => thenNext (s.newObject i)
  | .loadField ofObject => thenNext (s.loadField i ofObject)
  | .storeField ofObject => thenNext (s.storeField i ofObject)
  | .loadFieldAddress ofObject => thenNext (s.loadFieldAddress i ofObject)
  | .cast orFault => thenNext (s.cast i orFault)
  | .box => thenNext (s.box i)
  | .unbox toValue => thenNext (s.unbox i toValue)
  | .moveObject move => thenNext (s.moveObject i move)
  | .sizeOf => thenNext (s.sizeOf i)
  | .loadToken => thenNext (s.loadToken i)
  | .loadFunction virtual => thenNext (s.loadFunction i virtual)
  | .typedReference toAddress => thenNext (s.typedReference toAddress)

/-- Execute an instruction. -/
def execute (s : Setting) (i : Instruction) : Step Successor := s.perform i i.opcode.operation

end Setting

end CilAnalysis
