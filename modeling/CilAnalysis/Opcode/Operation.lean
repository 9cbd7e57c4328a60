import CilAnalysis.Metadata.TypeSig
import CilAnalysis.Opcode.Table

/-!
# What the opcodes do

The opcodes that differ only in how their operand is written, in the type they name or in the
operator they apply do one operation.  `Opcode.operation` says which, with the parameters the opcode
fixes.  The operations of one constructor form a family: an interpreter is given families, not
single opcodes.
-/

namespace CilAnalysis

/-- The binary operators on numbers. -/
inductive Operator where
  | add | sub | mul
  | div (signedness : Signedness) | rem (signedness : Signedness)
  | and | or | xor
  | checkedAdd (signedness : Signedness) | checkedSub (signedness : Signedness)
  | checkedMul (signedness : Signedness)
  deriving DecidableEq, Repr

/-- The shifts. -/
inductive Shift where
  | left
  | right (signedness : Signedness)
  deriving DecidableEq, Repr

/-- The relations between two values that an instruction can ask for. -/
inductive Comparison where
  | equal | greater | less | greaterOrEqual | lessOrEqual
  deriving DecidableEq, Repr

/-- The integer types a number can be converted to. -/
inductive IntegerTarget where
  | int8 | uint8 | int16 | uint16 | int32 | uint32 | int64 | uint64 | nativeInt | nativeUInt
  deriving DecidableEq, Repr

/-- The conversions to floating point. -/
inductive FloatTarget where
  /-- Round to 32 bits. -/
  | single
  /-- Keep 64 bits. -/
  | double
  /-- Read an integer as unsigned. -/
  | ofUnsigned
  deriving DecidableEq, Repr

/-- The instructions that move a typed value through an address. -/
inductive ObjectMove where
  | load | store | copy | init
  deriving DecidableEq, Repr

/-- What an opcode does. -/
inductive Operation where
  | nop
  | dup
  | pop
  | loadNull
  | loadInt32
  | loadInt64
  | loadFloat
  | loadString
  | loadVariable
  | storeVariable
  | loadVariableAddress
  | argumentList
  | binary (operator : Operator)
  | shift (shift : Shift)
  | negate
  | complement
  | compare (comparison : Comparison) (unsigned : Bool)
  /-- Convert to an integer; with a check, a number out of range is a fault and the source is read
  with the given signedness. -/
  | convertInteger (target : IntegerTarget) (check : Option Signedness)
  | convertFloat (target : FloatTarget)
  | checkFinite
  | branch
  | leave
  /-- Branch when the value is zero, or when it is not. -/
  | branchOnValue (whenZero : Bool)
  /-- Branch when a comparison holds, or when it fails. -/
  | branchOnComparison (comparison : Comparison) (unsigned : Bool) (whenHolds : Bool)
  | switch
  | ret
  /-- Throw the value on the stack, or again the exception being handled. -/
  | throws (again : Bool)
  | endFinally
  | endFilter
  | loadIndirect (type : TypeSig)
  | storeIndirect (type : TypeSig)
  | localAlloc
  | copyBlock
  | initBlock
  | newArray
  | arrayLength
  /-- Load an element, read as the named type or as the array's own. -/
  | loadElement (type : Option TypeSig)
  | storeElement
  | loadElementAddress
  | call (virtual : Bool)
  | callIndirect
  | jump
  | newObject
  /-- Load a field, taking the object from the stack or not. -/
  | loadField (ofObject : Bool)
  | storeField (ofObject : Bool)
  | loadFieldAddress (ofObject : Bool)
  /-- Cast a reference; one that is no instance is a fault, or becomes null. -/
  | cast (orFault : Bool)
  | box
  /-- Unbox to the value, or to its address. -/
  | unbox (toValue : Bool)
  | moveObject (move : ObjectMove)
  | sizeOf
  | loadToken
  | loadFunction (virtual : Bool)
  /-- Make or read a typed reference; reading its value gives an address. -/
  | typedReference (toAddress : Bool)
  deriving DecidableEq, Repr

namespace Operation

/-- The number of the family of an operation. -/
def family (o : Operation) : Nat := o.ctorIdx

end Operation

namespace Opcode

/-- What each opcode does. -/
def operation : Opcode → Operation
  | nop | breakpoint | unaligned | volatile | tailcall | constrained | unchecked | readonly => .nop
  | dup => .dup
  | pop => .pop
  | ldnull => .loadNull
  | ldc_i4_m1 | ldc_i4_0 | ldc_i4_1 | ldc_i4_2 | ldc_i4_3 | ldc_i4_4 | ldc_i4_5 | ldc_i4_6
  | ldc_i4_7 | ldc_i4_8 | ldc_i4_s | ldc_i4 => .loadInt32
  | ldc_i8 => .loadInt64
  | ldc_r4 | ldc_r8 => .loadFloat
  | ldstr => .loadString
  | ldarg_0 | ldarg_1 | ldarg_2 | ldarg_3 | ldarg_s | ldarg
  | ldloc_0 | ldloc_1 | ldloc_2 | ldloc_3 | ldloc_s | ldloc => .loadVariable
  | stloc_0 | stloc_1 | stloc_2 | stloc_3 | stloc_s | stloc | starg_s | starg => .storeVariable
  | ldarga_s | ldarga | ldloca_s | ldloca => .loadVariableAddress
  | arglist => .argumentList
  | add => .binary .add
  | sub => .binary .sub
  | mul => .binary .mul
  | div => .binary (.div .signed)
  | div_un => .binary (.div .unsigned)
  | rem => .binary (.rem .signed)
  | rem_un => .binary (.rem .unsigned)
  | and => .binary .and
  | or => .binary .or
  | xor => .binary .xor
  | add_ovf => .binary (.checkedAdd .signed)
  | add_ovf_un => .binary (.checkedAdd .unsigned)
  | sub_ovf => .binary (.checkedSub .signed)
  | sub_ovf_un => .binary (.checkedSub .unsigned)
  | mul_ovf => .binary (.checkedMul .signed)
  | mul_ovf_un => .binary (.checkedMul .unsigned)
  | shl => .shift .left
  | shr => .shift (.right .signed)
  | shr_un => .shift (.right .unsigned)
  | neg => .negate
  | not => .complement
  | ceq => .compare .equal false
  | cgt => .compare .greater false
  | cgt_un => .compare .greater true
  | clt => .compare .less false
  | clt_un => .compare .less true
  | conv_i1 => .convertInteger .int8 none
  | conv_u1 => .convertInteger .uint8 none
  | conv_i2 => .convertInteger .int16 none
  | conv_u2 => .convertInteger .uint16 none
  | conv_i4 => .convertInteger .int32 none
  | conv_u4 => .convertInteger .uint32 none
  | conv_i8 => .convertInteger .int64 none
  | conv_u8 => .convertInteger .uint64 none
  | conv_i => .convertInteger .nativeInt none
  | conv_u => .convertInteger .nativeUInt none
  | conv_ovf_i1 => .convertInteger .int8 (some .signed)
  | conv_ovf_u1 => .convertInteger .uint8 (some .signed)
  | conv_ovf_i2 => .convertInteger .int16 (some .signed)
  | conv_ovf_u2 => .convertInteger .uint16 (some .signed)
  | conv_ovf_i4 => .convertInteger .int32 (some .signed)
  | conv_ovf_u4 => .convertInteger .uint32 (some .signed)
  | conv_ovf_i8 => .convertInteger .int64 (some .signed)
  | conv_ovf_u8 => .convertInteger .uint64 (some .signed)
  | conv_ovf_i => .convertInteger .nativeInt (some .signed)
  | conv_ovf_u => .convertInteger .nativeUInt (some .signed)
  | conv_ovf_i1_un => .convertInteger .int8 (some .unsigned)
  | conv_ovf_u1_un => .convertInteger .uint8 (some .unsigned)
  | conv_ovf_i2_un => .convertInteger .int16 (some .unsigned)
  | conv_ovf_u2_un => .convertInteger .uint16 (some .unsigned)
  | conv_ovf_i4_un => .convertInteger .int32 (some .unsigned)
  | conv_ovf_u4_un => .convertInteger .uint32 (some .unsigned)
  | conv_ovf_i8_un => .convertInteger .int64 (some .unsigned)
  | conv_ovf_u8_un => .convertInteger .uint64 (some .unsigned)
  | conv_ovf_i_un => .convertInteger .nativeInt (some .unsigned)
  | conv_ovf_u_un => .convertInteger .nativeUInt (some .unsigned)
  | conv_r4 => .convertFloat .single
  | conv_r8 => .convertFloat .double
  | conv_r_un => .convertFloat .ofUnsigned
  | ckfinite => .checkFinite
  | br | br_s => .branch
  | leave | leave_s => .leave
  | brtrue | brtrue_s => .branchOnValue false
  | brfalse | brfalse_s => .branchOnValue true
  | beq | beq_s => .branchOnComparison .equal false true
  | bne_un | bne_un_s => .branchOnComparison .equal false false
  | bge | bge_s => .branchOnComparison .greaterOrEqual false true
  | bge_un | bge_un_s => .branchOnComparison .greaterOrEqual true true
  | bgt | bgt_s => .branchOnComparison .greater false true
  | bgt_un | bgt_un_s => .branchOnComparison .greater true true
  | ble | ble_s => .branchOnComparison .lessOrEqual false true
  | ble_un | ble_un_s => .branchOnComparison .lessOrEqual true true
  | blt | blt_s => .branchOnComparison .less false true
  | blt_un | blt_un_s => .branchOnComparison .less true true
  | switch => .switch
  | ret => .ret
  | throw => .throws false
  | rethrow => .throws true
  | endfinally => .endFinally
  | endfilter => .endFilter
  | ldind_i1 => .loadIndirect .int8
  | ldind_u1 => .loadIndirect .uint8
  | ldind_i2 => .loadIndirect .int16
  | ldind_u2 => .loadIndirect .uint16
  | ldind_i4 => .loadIndirect .int32
  | ldind_u4 => .loadIndirect .uint32
  | ldind_i8 => .loadIndirect .int64
  | ldind_i => .loadIndirect .nativeInt
  | ldind_r4 => .loadIndirect .float32
  | ldind_r8 => .loadIndirect .float64
  | ldind_ref => .loadIndirect .object
  | stind_ref => .storeIndirect .object
  | stind_i1 => .storeIndirect .int8
  | stind_i2 => .storeIndirect .int16
  | stind_i4 => .storeIndirect .int32
  | stind_i8 => .storeIndirect .int64
  | stind_r4 => .storeIndirect .float32
  | stind_r8 => .storeIndirect .float64
  | stind_i => .storeIndirect .nativeInt
  | localloc => .localAlloc
  | cpblk => .copyBlock
  | initblk => .initBlock
  | newarr => .newArray
  | ldlen => .arrayLength
  | ldelem_i1 => .loadElement (some .int8)
  | ldelem_u1 => .loadElement (some .uint8)
  | ldelem_i2 => .loadElement (some .int16)
  | ldelem_u2 => .loadElement (some .uint16)
  | ldelem_i4 => .loadElement (some .int32)
  | ldelem_u4 => .loadElement (some .uint32)
  | ldelem_i8 => .loadElement (some .int64)
  | ldelem_i => .loadElement (some .nativeInt)
  | ldelem_r4 => .loadElement (some .float32)
  | ldelem_r8 => .loadElement (some .float64)
  | ldelem_ref | ldelem => .loadElement none
  | stelem_i | stelem_i1 | stelem_i2 | stelem_i4 | stelem_i8 | stelem_r4 | stelem_r8 | stelem_ref
  | stelem => .storeElement
  | ldelema => .loadElementAddress
  | call => .call false
  | callvirt => .call true
  | calli => .callIndirect
  | jmp => .jump
  | newobj => .newObject
  | ldfld => .loadField true
  | ldsfld => .loadField false
  | stfld => .storeField true
  | stsfld => .storeField false
  | ldflda => .loadFieldAddress true
  | ldsflda => .loadFieldAddress false
  | castclass => .cast true
  | isinst => .cast false
  | box => .box
  | unbox => .unbox false
  | unbox_any => .unbox true
  | ldobj => .moveObject .load
  | stobj => .moveObject .store
  | cpobj => .moveObject .copy
  | initobj => .moveObject .init
  | sizeof => .sizeOf
  | ldtoken => .loadToken
  | ldftn => .loadFunction false
  | ldvirtftn => .loadFunction true
  | mkrefany | refanytype => .typedReference false
  | refanyval => .typedReference true

end Opcode

end CilAnalysis
