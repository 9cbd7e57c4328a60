/-!
# Opcodes

The instruction set.  Each opcode is named by its mnemonic with the points written as underscores;
`Opcode.row` is the table of its properties: the code, the mnemonic, the kind of operand that
follows it, how it passes control on, and how many values it takes from and leaves on the stack.
-/

namespace CilAnalysis

/-- An opcode, in the order of the codes. -/
inductive Opcode where
  | nop | breakpoint | ldarg_0 | ldarg_1 | ldarg_2 | ldarg_3 | ldloc_0 | ldloc_1 | ldloc_2
  | ldloc_3 | stloc_0 | stloc_1 | stloc_2 | stloc_3 | ldarg_s | ldarga_s | starg_s | ldloc_s
  | ldloca_s | stloc_s | ldnull | ldc_i4_m1 | ldc_i4_0 | ldc_i4_1 | ldc_i4_2 | ldc_i4_3 | ldc_i4_4
  | ldc_i4_5 | ldc_i4_6 | ldc_i4_7 | ldc_i4_8 | ldc_i4_s | ldc_i4 | ldc_i8 | ldc_r4 | ldc_r8 | dup
  | pop | jmp | call | calli | ret | br_s | brfalse_s | brtrue_s | beq_s | bge_s | bgt_s | ble_s
  | blt_s | bne_un_s | bge_un_s | bgt_un_s | ble_un_s | blt_un_s | br | brfalse | brtrue | beq
  | bge | bgt | ble | blt | bne_un | bge_un | bgt_un | ble_un | blt_un | switch | ldind_i1
  | ldind_u1 | ldind_i2 | ldind_u2 | ldind_i4 | ldind_u4 | ldind_i8 | ldind_i | ldind_r4 | ldind_r8
  | ldind_ref | stind_ref | stind_i1 | stind_i2 | stind_i4 | stind_i8 | stind_r4 | stind_r8 | add
  | sub | mul | div | div_un | rem | rem_un | and | or | xor | shl | shr | shr_un | neg | not
  | conv_i1 | conv_i2 | conv_i4 | conv_i8 | conv_r4 | conv_r8 | conv_u4 | conv_u8 | callvirt
  | cpobj | ldobj | ldstr | newobj | castclass | isinst | conv_r_un | unbox | throw | ldfld
  | ldflda | stfld | ldsfld | ldsflda | stsfld | stobj | conv_ovf_i1_un | conv_ovf_i2_un
  | conv_ovf_i4_un | conv_ovf_i8_un | conv_ovf_u1_un | conv_ovf_u2_un | conv_ovf_u4_un
  | conv_ovf_u8_un | conv_ovf_i_un | conv_ovf_u_un | box | newarr | ldlen | ldelema | ldelem_i1
  | ldelem_u1 | ldelem_i2 | ldelem_u2 | ldelem_i4 | ldelem_u4 | ldelem_i8 | ldelem_i | ldelem_r4
  | ldelem_r8 | ldelem_ref | stelem_i | stelem_i1 | stelem_i2 | stelem_i4 | stelem_i8 | stelem_r4
  | stelem_r8 | stelem_ref | ldelem | stelem | unbox_any | conv_ovf_i1 | conv_ovf_u1 | conv_ovf_i2
  | conv_ovf_u2 | conv_ovf_i4 | conv_ovf_u4 | conv_ovf_i8 | conv_ovf_u8 | refanyval | ckfinite
  | mkrefany | ldtoken | conv_u2 | conv_u1 | conv_i | conv_ovf_i | conv_ovf_u | add_ovf
  | add_ovf_un | mul_ovf | mul_ovf_un | sub_ovf | sub_ovf_un | endfinally | leave | leave_s
  | stind_i | conv_u | arglist | ceq | cgt | cgt_un | clt | clt_un | ldftn | ldvirtftn | ldarg
  | ldarga | starg | ldloc | ldloca | stloc | localloc | endfilter | unaligned | volatile
  | tailcall | initobj | constrained | cpblk | initblk | unchecked | rethrow | sizeof | refanytype
  | readonly
  deriving DecidableEq, Repr

/-- The kind of operand that follows an opcode. -/
inductive OperandKind where
  | none | shortTarget | target | shortInt | int32 | int64 | float32 | float64 | shortSlot | slot
  | method | field | type | signature | string | token | switch
  deriving DecidableEq, Repr

namespace OperandKind

/-- The number of bytes of an operand; for a switch, that of the number of its targets. -/
def size : OperandKind → Nat
  | none => 0
  | shortTarget | shortInt | shortSlot => 1
  | slot => 2
  | int64 | float64 => 8
  | _ => 4

end OperandKind

/-- How an instruction passes control on. -/
inductive FlowControl where
  /-- To the next instruction. -/
  | next
  | branch
  | conditionalBranch
  | returns
  | throws
  /-- To the next instruction, after a call. -/
  | call
  /-- To the next instruction, whose meaning it modifies. -/
  | modifier
  /-- To the next instruction, after a stop for a debugger. -/
  | breakpoint
  deriving DecidableEq, Repr

namespace FlowControl

/-- Whether no instruction of the same block can follow. -/
def endsBlock : FlowControl → Bool
  | branch | conditionalBranch | returns | throws => true
  | _ => false

/-- Whether control may reach the next instruction. -/
def fallsThrough : FlowControl → Bool
  | branch | returns | throws => false
  | _ => true

end FlowControl

/-- How many values an opcode takes from the stack. -/
inductive StackPop where
  | fixed (count : Nat)
  /-- As many as the call's signature or the method's return type says. -/
  | byContext
  /-- All there are. -/
  | all
  deriving DecidableEq, Repr

namespace StackPop

def count? : StackPop → Option Nat
  | fixed count => some count
  | _ => none

end StackPop

/-- How many values an opcode leaves on the stack. -/
inductive StackPush where
  | fixed (count : Nat)
  /-- One if the call's signature has a return type. -/
  | bySignature
  deriving DecidableEq, Repr

namespace StackPush

def count? : StackPush → Option Nat
  | fixed count => some count
  | bySignature => none

end StackPush

/-- The properties of an opcode. -/
structure OpcodeRow where
  /-- The encoding; opcodes of two bytes have their first byte in the high half. -/
  code : Nat
  mnemonic : String
  operand : OperandKind
  flow : FlowControl
  pop : StackPop
  push : StackPush

end CilAnalysis
