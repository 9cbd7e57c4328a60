import CilAnalysis.Machine.Outcome
import CilAnalysis.Value

/-!
# The world outside a method

What an interpreter is given beside the method: the answers to its questions and the limits of its
work.
-/

namespace CilAnalysis

/-!
## Questions

What an interpreter cannot find out from within a method: where calls go and what they return, what
static fields hold at first, and which types are instances of which.  The environment `{}` knows
nothing beyond the signatures it is shown.
-/

/-- What becomes of a virtual call. -/
inductive Devirtualization where
  /-- It goes to this method. -/
  | method (target : MethodRef)
  /-- Only the signature of the method it goes to is known. -/
  | signature (target : MethodSignature)
  /-- There is no method for it to go to. -/
  | failure (fault : Fault)
  /-- The object is not known well enough to tell. -/
  | unknownReceiver
  deriving DecidableEq

namespace TypeSig

/-- Whether no object of a type is of another type as well. -/
def isExact : TypeSig → Bool
  | object | classType _ | array _ | generic _ | typedReference => false
  | _ => true

/-- Whether objects of a type are instances of a target, as far as their names tell. -/
def isInstance (type target : TypeSig) : Ternary :=
  if type.same target || target == object then .true
  else if type.isExact && target.isExact then .false
  else .unknown

end TypeSig

/-- The unknown result of a call, if the signature has one. -/
def MethodSignature.unknownResult? (width : PointerWidth) (s : MethodSignature) : Option Value :=
  if s.returnsValue then some (.unknownOf width s.returnType) else none

/-- The answers to the questions an interpreter asks. -/
structure Environment where
  /-- Where a virtual call goes, given the type of its object where that is known. -/
  resolve (receiver : Option TypeSig) (method : MethodRef) : Devirtualization :=
    if receiver.isNone && method.isVirtual then .unknownReceiver else .method method
  /-- What a call returns; the object of the call comes first among the arguments.  A call only
  answers: it is not handed the state of the caller, so that a callee which stores in the heap or in
  static fields is outside of what an environment can say. -/
  invoke (width : PointerWidth) (method : MethodRef) (arguments : List Value) :
      Except Fault (Option Value) := .ok (method.signature.unknownResult? width)
  /-- What a static field holds before the method stores in it. -/
  initialStatic (width : PointerWidth) (field : FieldRef) : Value :=
    .unknownOf width field.fieldType
  /-- Whether objects of a type can be cast to a target. -/
  isInstance (type target : TypeSig) : Ternary := type.isInstance target

instance : Inhabited Environment := ⟨{}⟩

/-- A question that was put to an environment. -/
inductive Question where
  | resolve (receiver : Option TypeSig) (method : MethodRef)
  | invoke (method : MethodRef) (arguments : List Value)
  | initialStatic (field : FieldRef)
  | isInstance (type target : TypeSig)
  deriving DecidableEq

/-! ## Limits and choices -/

/-- The limits within which a method is interpreted. -/
structure Options where
  width : PointerWidth := .bits64
  /-- The number of values the stack may hold. -/
  maxStackDepth : Nat := 1024
  /-- The number of instructions a run may execute. -/
  maxSteps : Nat := 10000
  /-- The number of bytes or elements of the largest block or array. -/
  maxAllocation : Nat := 0x100000
  /-- Whether locals start as zeros; by default the method decides. -/
  initLocals : Option Bool := none
  deriving DecidableEq, Repr

end CilAnalysis
