import CilAnalysis.Opcode.Basic

/-!
# The opcode table

One row for each opcode, and the look-ups by code and by mnemonic.
-/

namespace CilAnalysis.Opcode

/-- The properties of each opcode. -/
def row : Opcode → OpcodeRow
  | .nop => ⟨0x00, "nop", .none, .next, (.fixed 0), (.fixed 0)⟩
  | .breakpoint => ⟨0x01, "break", .none, .breakpoint, (.fixed 0), (.fixed 0)⟩
  | .ldarg_0 => ⟨0x02, "ldarg.0", .none, .next, (.fixed 0), (.fixed 1)⟩
  | .ldarg_1 => ⟨0x03, "ldarg.1", .none, .next, (.fixed 0), (.fixed 1)⟩
  | .ldarg_2 => ⟨0x04, "ldarg.2", .none, .next, (.fixed 0), (.fixed 1)⟩
  | .ldarg_3 => ⟨0x05, "ldarg.3", .none, .next, (.fixed 0), (.fixed 1)⟩
  | .ldloc_0 => ⟨0x06, "ldloc.0", .none, .next, (.fixed 0), (.fixed 1)⟩
  | .ldloc_1 => ⟨0x07, "ldloc.1", .none, .next, (.fixed 0), (.fixed 1)⟩
  | .ldloc_2 => ⟨0x08, "ldloc.2", .none, .next, (.fixed 0), (.fixed 1)⟩
  | .ldloc_3 => ⟨0x09, "ldloc.3", .none, .next, (.fixed 0), (.fixed 1)⟩
  | .stloc_0 => ⟨0x0a, "stloc.0", .none, .next, (.fixed 1), (.fixed 0)⟩
  | .stloc_1 => ⟨0x0b, "stloc.1", .none, .next, (.fixed 1), (.fixed 0)⟩
  | .stloc_2 => ⟨0x0c, "stloc.2", .none, .next, (.fixed 1), (.fixed 0)⟩
  | .stloc_3 => ⟨0x0d, "stloc.3", .none, .next, (.fixed 1), (.fixed 0)⟩
  | .ldarg_s => ⟨0x0e, "ldarg.s", .shortSlot, .next, (.fixed 0), (.fixed 1)⟩
  | .ldarga_s => ⟨0x0f, "ldarga.s", .shortSlot, .next, (.fixed 0), (.fixed 1)⟩
  | .starg_s => ⟨0x10, "starg.s", .shortSlot, .next, (.fixed 1), (.fixed 0)⟩
  | .ldloc_s => ⟨0x11, "ldloc.s", .shortSlot, .next, (.fixed 0), (.fixed 1)⟩
  | .ldloca_s => ⟨0x12, "ldloca.s", .shortSlot, .next, (.fixed 0), (.fixed 1)⟩
  | .stloc_s => ⟨0x13, "stloc.s", .shortSlot, .next, (.fixed 1), (.fixed 0)⟩
  | .ldnull => ⟨0x14, "ldnull", .none, .next, (.fixed 0), (.fixed 1)⟩
  | .ldc_i4_m1 => ⟨0x15, "ldc.i4.m1", .none, .next, (.fixed 0), (.fixed 1)⟩
  | .ldc_i4_0 => ⟨0x16, "ldc.i4.0", .none, .next, (.fixed 0), (.fixed 1)⟩
  | .ldc_i4_1 => ⟨0x17, "ldc.i4.1", .none, .next, (.fixed 0), (.fixed 1)⟩
  | .ldc_i4_2 => ⟨0x18, "ldc.i4.2", .none, .next, (.fixed 0), (.fixed 1)⟩
  | .ldc_i4_3 => ⟨0x19, "ldc.i4.3", .none, .next, (.fixed 0), (.fixed 1)⟩
  | .ldc_i4_4 => ⟨0x1a, "ldc.i4.4", .none, .next, (.fixed 0), (.fixed 1)⟩
  | .ldc_i4_5 => ⟨0x1b, "ldc.i4.5", .none, .next, (.fixed 0), (.fixed 1)⟩
  | .ldc_i4_6 => ⟨0x1c, "ldc.i4.6", .none, .next, (.fixed 0), (.fixed 1)⟩
  | .ldc_i4_7 => ⟨0x1d, "ldc.i4.7", .none, .next, (.fixed 0), (.fixed 1)⟩
  | .ldc_i4_8 => ⟨0x1e, "ldc.i4.8", .none, .next, (.fixed 0), (.fixed 1)⟩
  | .ldc_i4_s => ⟨0x1f, "ldc.i4.s", .shortInt, .next, (.fixed 0), (.fixed 1)⟩
  | .ldc_i4 => ⟨0x20, "ldc.i4", .int32, .next, (.fixed 0), (.fixed 1)⟩
  | .ldc_i8 => ⟨0x21, "ldc.i8", .int64, .next, (.fixed 0), (.fixed 1)⟩
  | .ldc_r4 => ⟨0x22, "ldc.r4", .float32, .next, (.fixed 0), (.fixed 1)⟩
  | .ldc_r8 => ⟨0x23, "ldc.r8", .float64, .next, (.fixed 0), (.fixed 1)⟩
  | .dup => ⟨0x25, "dup", .none, .next, (.fixed 1), (.fixed 2)⟩
  | .pop => ⟨0x26, "pop", .none, .next, (.fixed 1), (.fixed 0)⟩
  | .jmp => ⟨0x27, "jmp", .method, .call, (.fixed 0), (.fixed 0)⟩
  | .call => ⟨0x28, "call", .method, .call, .byContext, .bySignature⟩
  | .calli => ⟨0x29, "calli", .signature, .call, .byContext, .bySignature⟩
  | .ret => ⟨0x2a, "ret", .none, .returns, .byContext, (.fixed 0)⟩
  | .br_s => ⟨0x2b, "br.s", .shortTarget, .branch, (.fixed 0), (.fixed 0)⟩
  | .brfalse_s => ⟨0x2c, "brfalse.s", .shortTarget, .conditionalBranch, (.fixed 1), (.fixed 0)⟩
  | .brtrue_s => ⟨0x2d, "brtrue.s", .shortTarget, .conditionalBranch, (.fixed 1), (.fixed 0)⟩
  | .beq_s => ⟨0x2e, "beq.s", .shortTarget, .conditionalBranch, (.fixed 2), (.fixed 0)⟩
  | .bge_s => ⟨0x2f, "bge.s", .shortTarget, .conditionalBranch, (.fixed 2), (.fixed 0)⟩
  | .bgt_s => ⟨0x30, "bgt.s", .shortTarget, .conditionalBranch, (.fixed 2), (.fixed 0)⟩
  | .ble_s => ⟨0x31, "ble.s", .shortTarget, .conditionalBranch, (.fixed 2), (.fixed 0)⟩
  | .blt_s => ⟨0x32, "blt.s", .shortTarget, .conditionalBranch, (.fixed 2), (.fixed 0)⟩
  | .bne_un_s => ⟨0x33, "bne.un.s", .shortTarget, .conditionalBranch, (.fixed 2), (.fixed 0)⟩
  | .bge_un_s => ⟨0x34, "bge.un.s", .shortTarget, .conditionalBranch, (.fixed 2), (.fixed 0)⟩
  | .bgt_un_s => ⟨0x35, "bgt.un.s", .shortTarget, .conditionalBranch, (.fixed 2), (.fixed 0)⟩
  | .ble_un_s => ⟨0x36, "ble.un.s", .shortTarget, .conditionalBranch, (.fixed 2), (.fixed 0)⟩
  | .blt_un_s => ⟨0x37, "blt.un.s", .shortTarget, .conditionalBranch, (.fixed 2), (.fixed 0)⟩
  | .br => ⟨0x38, "br", .target, .branch, (.fixed 0), (.fixed 0)⟩
  | .brfalse => ⟨0x39, "brfalse", .target, .conditionalBranch, (.fixed 1), (.fixed 0)⟩
  | .brtrue => ⟨0x3a, "brtrue", .target, .conditionalBranch, (.fixed 1), (.fixed 0)⟩
  | .beq => ⟨0x3b, "beq", .target, .conditionalBranch, (.fixed 2), (.fixed 0)⟩
  | .bge => ⟨0x3c, "bge", .target, .conditionalBranch, (.fixed 2), (.fixed 0)⟩
  | .bgt => ⟨0x3d, "bgt", .target, .conditionalBranch, (.fixed 2), (.fixed 0)⟩
  | .ble => ⟨0x3e, "ble", .target, .conditionalBranch, (.fixed 2), (.fixed 0)⟩
  | .blt => ⟨0x3f, "blt", .target, .conditionalBranch, (.fixed 2), (.fixed 0)⟩
  | .bne_un => ⟨0x40, "bne.un", .target, .conditionalBranch, (.fixed 2), (.fixed 0)⟩
  | .bge_un => ⟨0x41, "bge.un", .target, .conditionalBranch, (.fixed 2), (.fixed 0)⟩
  | .bgt_un => ⟨0x42, "bgt.un", .target, .conditionalBranch, (.fixed 2), (.fixed 0)⟩
  | .ble_un => ⟨0x43, "ble.un", .target, .conditionalBranch, (.fixed 2), (.fixed 0)⟩
  | .blt_un => ⟨0x44, "blt.un", .target, .conditionalBranch, (.fixed 2), (.fixed 0)⟩
  | .switch => ⟨0x45, "switch", .switch, .conditionalBranch, (.fixed 1), (.fixed 0)⟩
  | .ldind_i1 => ⟨0x46, "ldind.i1", .none, .next, (.fixed 1), (.fixed 1)⟩
  | .ldind_u1 => ⟨0x47, "ldind.u1", .none, .next, (.fixed 1), (.fixed 1)⟩
  | .ldind_i2 => ⟨0x48, "ldind.i2", .none, .next, (.fixed 1), (.fixed 1)⟩
  | .ldind_u2 => ⟨0x49, "ldind.u2", .none, .next, (.fixed 1), (.fixed 1)⟩
  | .ldind_i4 => ⟨0x4a, "ldind.i4", .none, .next, (.fixed 1), (.fixed 1)⟩
  | .ldind_u4 => ⟨0x4b, "ldind.u4", .none, .next, (.fixed 1), (.fixed 1)⟩
  | .ldind_i8 => ⟨0x4c, "ldind.i8", .none, .next, (.fixed 1), (.fixed 1)⟩
  | .ldind_i => ⟨0x4d, "ldind.i", .none, .next, (.fixed 1), (.fixed 1)⟩
  | .ldind_r4 => ⟨0x4e, "ldind.r4", .none, .next, (.fixed 1), (.fixed 1)⟩
  | .ldind_r8 => ⟨0x4f, "ldind.r8", .none, .next, (.fixed 1), (.fixed 1)⟩
  | .ldind_ref => ⟨0x50, "ldind.ref", .none, .next, (.fixed 1), (.fixed 1)⟩
  | .stind_ref => ⟨0x51, "stind.ref", .none, .next, (.fixed 2), (.fixed 0)⟩
  | .stind_i1 => ⟨0x52, "stind.i1", .none, .next, (.fixed 2), (.fixed 0)⟩
  | .stind_i2 => ⟨0x53, "stind.i2", .none, .next, (.fixed 2), (.fixed 0)⟩
  | .stind_i4 => ⟨0x54, "stind.i4", .none, .next, (.fixed 2), (.fixed 0)⟩
  | .stind_i8 => ⟨0x55, "stind.i8", .none, .next, (.fixed 2), (.fixed 0)⟩
  | .stind_r4 => ⟨0x56, "stind.r4", .none, .next, (.fixed 2), (.fixed 0)⟩
  | .stind_r8 => ⟨0x57, "stind.r8", .none, .next, (.fixed 2), (.fixed 0)⟩
  | .add => ⟨0x58, "add", .none, .next, (.fixed 2), (.fixed 1)⟩
  | .sub => ⟨0x59, "sub", .none, .next, (.fixed 2), (.fixed 1)⟩
  | .mul => ⟨0x5a, "mul", .none, .next, (.fixed 2), (.fixed 1)⟩
  | .div => ⟨0x5b, "div", .none, .next, (.fixed 2), (.fixed 1)⟩
  | .div_un => ⟨0x5c, "div.un", .none, .next, (.fixed 2), (.fixed 1)⟩
  | .rem => ⟨0x5d, "rem", .none, .next, (.fixed 2), (.fixed 1)⟩
  | .rem_un => ⟨0x5e, "rem.un", .none, .next, (.fixed 2), (.fixed 1)⟩
  | .and => ⟨0x5f, "and", .none, .next, (.fixed 2), (.fixed 1)⟩
  | .or => ⟨0x60, "or", .none, .next, (.fixed 2), (.fixed 1)⟩
  | .xor => ⟨0x61, "xor", .none, .next, (.fixed 2), (.fixed 1)⟩
  | .shl => ⟨0x62, "shl", .none, .next, (.fixed 2), (.fixed 1)⟩
  | .shr => ⟨0x63, "shr", .none, .next, (.fixed 2), (.fixed 1)⟩
  | .shr_un => ⟨0x64, "shr.un", .none, .next, (.fixed 2), (.fixed 1)⟩
  | .neg => ⟨0x65, "neg", .none, .next, (.fixed 1), (.fixed 1)⟩
  | .not => ⟨0x66, "not", .none, .next, (.fixed 1), (.fixed 1)⟩
  | .conv_i1 => ⟨0x67, "conv.i1", .none, .next, (.fixed 1), (.fixed 1)⟩
  | .conv_i2 => ⟨0x68, "conv.i2", .none, .next, (.fixed 1), (.fixed 1)⟩
  | .conv_i4 => ⟨0x69, "conv.i4", .none, .next, (.fixed 1), (.fixed 1)⟩
  | .conv_i8 => ⟨0x6a, "conv.i8", .none, .next, (.fixed 1), (.fixed 1)⟩
  | .conv_r4 => ⟨0x6b, "conv.r4", .none, .next, (.fixed 1), (.fixed 1)⟩
  | .conv_r8 => ⟨0x6c, "conv.r8", .none, .next, (.fixed 1), (.fixed 1)⟩
  | .conv_u4 => ⟨0x6d, "conv.u4", .none, .next, (.fixed 1), (.fixed 1)⟩
  | .conv_u8 => ⟨0x6e, "conv.u8", .none, .next, (.fixed 1), (.fixed 1)⟩
  | .callvirt => ⟨0x6f, "callvirt", .method, .call, .byContext, .bySignature⟩
  | .cpobj => ⟨0x70, "cpobj", .type, .next, (.fixed 2), (.fixed 0)⟩
  | .ldobj => ⟨0x71, "ldobj", .type, .next, (.fixed 1), (.fixed 1)⟩
  | .ldstr => ⟨0x72, "ldstr", .string, .next, (.fixed 0), (.fixed 1)⟩
  | .newobj => ⟨0x73, "newobj", .method, .call, .byContext, (.fixed 1)⟩
  | .castclass => ⟨0x74, "castclass", .type, .next, (.fixed 1), (.fixed 1)⟩
  | .isinst => ⟨0x75, "isinst", .type, .next, (.fixed 1), (.fixed 1)⟩
  | .conv_r_un => ⟨0x76, "conv.r.un", .none, .next, (.fixed 1), (.fixed 1)⟩
  | .unbox => ⟨0x79, "unbox", .type, .next, (.fixed 1), (.fixed 1)⟩
  | .throw => ⟨0x7a, "throw", .none, .throws, (.fixed 1), (.fixed 0)⟩
  | .ldfld => ⟨0x7b, "ldfld", .field, .next, (.fixed 1), (.fixed 1)⟩
  | .ldflda => ⟨0x7c, "ldflda", .field, .next, (.fixed 1), (.fixed 1)⟩
  | .stfld => ⟨0x7d, "stfld", .field, .next, (.fixed 2), (.fixed 0)⟩
  | .ldsfld => ⟨0x7e, "ldsfld", .field, .next, (.fixed 0), (.fixed 1)⟩
  | .ldsflda => ⟨0x7f, "ldsflda", .field, .next, (.fixed 0), (.fixed 1)⟩
  | .stsfld => ⟨0x80, "stsfld", .field, .next, (.fixed 1), (.fixed 0)⟩
  | .stobj => ⟨0x81, "stobj", .type, .next, (.fixed 2), (.fixed 0)⟩
  | .conv_ovf_i1_un => ⟨0x82, "conv.ovf.i1.un", .none, .next, (.fixed 1), (.fixed 1)⟩
  | .conv_ovf_i2_un => ⟨0x83, "conv.ovf.i2.un", .none, .next, (.fixed 1), (.fixed 1)⟩
  | .conv_ovf_i4_un => ⟨0x84, "conv.ovf.i4.un", .none, .next, (.fixed 1), (.fixed 1)⟩
  | .conv_ovf_i8_un => ⟨0x85, "conv.ovf.i8.un", .none, .next, (.fixed 1), (.fixed 1)⟩
  | .conv_ovf_u1_un => ⟨0x86, "conv.ovf.u1.un", .none, .next, (.fixed 1), (.fixed 1)⟩
  | .conv_ovf_u2_un => ⟨0x87, "conv.ovf.u2.un", .none, .next, (.fixed 1), (.fixed 1)⟩
  | .conv_ovf_u4_un => ⟨0x88, "conv.ovf.u4.un", .none, .next, (.fixed 1), (.fixed 1)⟩
  | .conv_ovf_u8_un => ⟨0x89, "conv.ovf.u8.un", .none, .next, (.fixed 1), (.fixed 1)⟩
  | .conv_ovf_i_un => ⟨0x8a, "conv.ovf.i.un", .none, .next, (.fixed 1), (.fixed 1)⟩
  | .conv_ovf_u_un => ⟨0x8b, "conv.ovf.u.un", .none, .next, (.fixed 1), (.fixed 1)⟩
  | .box => ⟨0x8c, "box", .type, .next, (.fixed 1), (.fixed 1)⟩
  | .newarr => ⟨0x8d, "newarr", .type, .next, (.fixed 1), (.fixed 1)⟩
  | .ldlen => ⟨0x8e, "ldlen", .none, .next, (.fixed 1), (.fixed 1)⟩
  | .ldelema => ⟨0x8f, "ldelema", .type, .next, (.fixed 2), (.fixed 1)⟩
  | .ldelem_i1 => ⟨0x90, "ldelem.i1", .none, .next, (.fixed 2), (.fixed 1)⟩
  | .ldelem_u1 => ⟨0x91, "ldelem.u1", .none, .next, (.fixed 2), (.fixed 1)⟩
  | .ldelem_i2 => ⟨0x92, "ldelem.i2", .none, .next, (.fixed 2), (.fixed 1)⟩
  | .ldelem_u2 => ⟨0x93, "ldelem.u2", .none, .next, (.fixed 2), (.fixed 1)⟩
  | .ldelem_i4 => ⟨0x94, "ldelem.i4", .none, .next, (.fixed 2), (.fixed 1)⟩
  | .ldelem_u4 => ⟨0x95, "ldelem.u4", .none, .next, (.fixed 2), (.fixed 1)⟩
  | .ldelem_i8 => ⟨0x96, "ldelem.i8", .none, .next, (.fixed 2), (.fixed 1)⟩
  | .ldelem_i => ⟨0x97, "ldelem.i", .none, .next, (.fixed 2), (.fixed 1)⟩
  | .ldelem_r4 => ⟨0x98, "ldelem.r4", .none, .next, (.fixed 2), (.fixed 1)⟩
  | .ldelem_r8 => ⟨0x99, "ldelem.r8", .none, .next, (.fixed 2), (.fixed 1)⟩
  | .ldelem_ref => ⟨0x9a, "ldelem.ref", .none, .next, (.fixed 2), (.fixed 1)⟩
  | .stelem_i => ⟨0x9b, "stelem.i", .none, .next, (.fixed 3), (.fixed 0)⟩
  | .stelem_i1 => ⟨0x9c, "stelem.i1", .none, .next, (.fixed 3), (.fixed 0)⟩
  | .stelem_i2 => ⟨0x9d, "stelem.i2", .none, .next, (.fixed 3), (.fixed 0)⟩
  | .stelem_i4 => ⟨0x9e, "stelem.i4", .none, .next, (.fixed 3), (.fixed 0)⟩
  | .stelem_i8 => ⟨0x9f, "stelem.i8", .none, .next, (.fixed 3), (.fixed 0)⟩
  | .stelem_r4 => ⟨0xa0, "stelem.r4", .none, .next, (.fixed 3), (.fixed 0)⟩
  | .stelem_r8 => ⟨0xa1, "stelem.r8", .none, .next, (.fixed 3), (.fixed 0)⟩
  | .stelem_ref => ⟨0xa2, "stelem.ref", .none, .next, (.fixed 3), (.fixed 0)⟩
  | .ldelem => ⟨0xa3, "ldelem", .type, .next, (.fixed 2), (.fixed 1)⟩
  | .stelem => ⟨0xa4, "stelem", .type, .next, (.fixed 3), (.fixed 0)⟩
  | .unbox_any => ⟨0xa5, "unbox.any", .type, .next, (.fixed 1), (.fixed 1)⟩
  | .conv_ovf_i1 => ⟨0xb3, "conv.ovf.i1", .none, .next, (.fixed 1), (.fixed 1)⟩
  | .conv_ovf_u1 => ⟨0xb4, "conv.ovf.u1", .none, .next, (.fixed 1), (.fixed 1)⟩
  | .conv_ovf_i2 => ⟨0xb5, "conv.ovf.i2", .none, .next, (.fixed 1), (.fixed 1)⟩
  | .conv_ovf_u2 => ⟨0xb6, "conv.ovf.u2", .none, .next, (.fixed 1), (.fixed 1)⟩
  | .conv_ovf_i4 => ⟨0xb7, "conv.ovf.i4", .none, .next, (.fixed 1), (.fixed 1)⟩
  | .conv_ovf_u4 => ⟨0xb8, "conv.ovf.u4", .none, .next, (.fixed 1), (.fixed 1)⟩
  | .conv_ovf_i8 => ⟨0xb9, "conv.ovf.i8", .none, .next, (.fixed 1), (.fixed 1)⟩
  | .conv_ovf_u8 => ⟨0xba, "conv.ovf.u8", .none, .next, (.fixed 1), (.fixed 1)⟩
  | .refanyval => ⟨0xc2, "refanyval", .type, .next, (.fixed 1), (.fixed 1)⟩
  | .ckfinite => ⟨0xc3, "ckfinite", .none, .next, (.fixed 1), (.fixed 1)⟩
  | .mkrefany => ⟨0xc6, "mkrefany", .type, .next, (.fixed 1), (.fixed 1)⟩
  | .ldtoken => ⟨0xd0, "ldtoken", .token, .next, (.fixed 0), (.fixed 1)⟩
  | .conv_u2 => ⟨0xd1, "conv.u2", .none, .next, (.fixed 1), (.fixed 1)⟩
  | .conv_u1 => ⟨0xd2, "conv.u1", .none, .next, (.fixed 1), (.fixed 1)⟩
  | .conv_i => ⟨0xd3, "conv.i", .none, .next, (.fixed 1), (.fixed 1)⟩
  | .conv_ovf_i => ⟨0xd4, "conv.ovf.i", .none, .next, (.fixed 1), (.fixed 1)⟩
  | .conv_ovf_u => ⟨0xd5, "conv.ovf.u", .none, .next, (.fixed 1), (.fixed 1)⟩
  | .add_ovf => ⟨0xd6, "add.ovf", .none, .next, (.fixed 2), (.fixed 1)⟩
  | .add_ovf_un => ⟨0xd7, "add.ovf.un", .none, .next, (.fixed 2), (.fixed 1)⟩
  | .mul_ovf => ⟨0xd8, "mul.ovf", .none, .next, (.fixed 2), (.fixed 1)⟩
  | .mul_ovf_un => ⟨0xd9, "mul.ovf.un", .none, .next, (.fixed 2), (.fixed 1)⟩
  | .sub_ovf => ⟨0xda, "sub.ovf", .none, .next, (.fixed 2), (.fixed 1)⟩
  | .sub_ovf_un => ⟨0xdb, "sub.ovf.un", .none, .next, (.fixed 2), (.fixed 1)⟩
  | .endfinally => ⟨0xdc, "endfinally", .none, .returns, .all, (.fixed 0)⟩
  | .leave => ⟨0xdd, "leave", .target, .branch, .all, (.fixed 0)⟩
  | .leave_s => ⟨0xde, "leave.s", .shortTarget, .branch, .all, (.fixed 0)⟩
  | .stind_i => ⟨0xdf, "stind.i", .none, .next, (.fixed 2), (.fixed 0)⟩
  | .conv_u => ⟨0xe0, "conv.u", .none, .next, (.fixed 1), (.fixed 1)⟩
  | .arglist => ⟨0xfe00, "arglist", .none, .next, (.fixed 0), (.fixed 1)⟩
  | .ceq => ⟨0xfe01, "ceq", .none, .next, (.fixed 2), (.fixed 1)⟩
  | .cgt => ⟨0xfe02, "cgt", .none, .next, (.fixed 2), (.fixed 1)⟩
  | .cgt_un => ⟨0xfe03, "cgt.un", .none, .next, (.fixed 2), (.fixed 1)⟩
  | .clt => ⟨0xfe04, "clt", .none, .next, (.fixed 2), (.fixed 1)⟩
  | .clt_un => ⟨0xfe05, "clt.un", .none, .next, (.fixed 2), (.fixed 1)⟩
  | .ldftn => ⟨0xfe06, "ldftn", .method, .next, (.fixed 0), (.fixed 1)⟩
  | .ldvirtftn => ⟨0xfe07, "ldvirtftn", .method, .next, (.fixed 1), (.fixed 1)⟩
  | .ldarg => ⟨0xfe09, "ldarg", .slot, .next, (.fixed 0), (.fixed 1)⟩
  | .ldarga => ⟨0xfe0a, "ldarga", .slot, .next, (.fixed 0), (.fixed 1)⟩
  | .starg => ⟨0xfe0b, "starg", .slot, .next, (.fixed 1), (.fixed 0)⟩
  | .ldloc => ⟨0xfe0c, "ldloc", .slot, .next, (.fixed 0), (.fixed 1)⟩
  | .ldloca => ⟨0xfe0d, "ldloca", .slot, .next, (.fixed 0), (.fixed 1)⟩
  | .stloc => ⟨0xfe0e, "stloc", .slot, .next, (.fixed 1), (.fixed 0)⟩
  | .localloc => ⟨0xfe0f, "localloc", .none, .next, (.fixed 1), (.fixed 1)⟩
  | .endfilter => ⟨0xfe11, "endfilter", .none, .returns, (.fixed 1), (.fixed 0)⟩
  | .unaligned => ⟨0xfe12, "unaligned.", .shortInt, .modifier, (.fixed 0), (.fixed 0)⟩
  | .volatile => ⟨0xfe13, "volatile.", .none, .modifier, (.fixed 0), (.fixed 0)⟩
  | .tailcall => ⟨0xfe14, "tail.", .none, .modifier, (.fixed 0), (.fixed 0)⟩
  | .initobj => ⟨0xfe15, "initobj", .type, .next, (.fixed 1), (.fixed 0)⟩
  | .constrained => ⟨0xfe16, "constrained.", .type, .modifier, (.fixed 0), (.fixed 0)⟩
  | .cpblk => ⟨0xfe17, "cpblk", .none, .next, (.fixed 3), (.fixed 0)⟩
  | .initblk => ⟨0xfe18, "initblk", .none, .next, (.fixed 3), (.fixed 0)⟩
  | .unchecked => ⟨0xfe19, "no.", .shortInt, .modifier, (.fixed 0), (.fixed 0)⟩
  | .rethrow => ⟨0xfe1a, "rethrow", .none, .throws, (.fixed 0), (.fixed 0)⟩
  | .sizeof => ⟨0xfe1c, "sizeof", .type, .next, (.fixed 0), (.fixed 1)⟩
  | .refanytype => ⟨0xfe1d, "refanytype", .none, .next, (.fixed 1), (.fixed 1)⟩
  | .readonly => ⟨0xfe1e, "readonly.", .none, .modifier, (.fixed 0), (.fixed 0)⟩

def all : List Opcode := [
  .nop, .breakpoint, .ldarg_0, .ldarg_1, .ldarg_2, .ldarg_3, .ldloc_0, .ldloc_1, .ldloc_2,
  .ldloc_3, .stloc_0, .stloc_1, .stloc_2, .stloc_3, .ldarg_s, .ldarga_s, .starg_s, .ldloc_s,
  .ldloca_s, .stloc_s, .ldnull, .ldc_i4_m1, .ldc_i4_0, .ldc_i4_1, .ldc_i4_2, .ldc_i4_3, .ldc_i4_4,
  .ldc_i4_5, .ldc_i4_6, .ldc_i4_7, .ldc_i4_8, .ldc_i4_s, .ldc_i4, .ldc_i8, .ldc_r4, .ldc_r8, .dup,
  .pop, .jmp, .call, .calli, .ret, .br_s, .brfalse_s, .brtrue_s, .beq_s, .bge_s, .bgt_s, .ble_s,
  .blt_s, .bne_un_s, .bge_un_s, .bgt_un_s, .ble_un_s, .blt_un_s, .br, .brfalse, .brtrue, .beq,
  .bge, .bgt, .ble, .blt, .bne_un, .bge_un, .bgt_un, .ble_un, .blt_un, .switch, .ldind_i1,
  .ldind_u1, .ldind_i2, .ldind_u2, .ldind_i4, .ldind_u4, .ldind_i8, .ldind_i, .ldind_r4, .ldind_r8,
  .ldind_ref, .stind_ref, .stind_i1, .stind_i2, .stind_i4, .stind_i8, .stind_r4, .stind_r8, .add,
  .sub, .mul, .div, .div_un, .rem, .rem_un, .and, .or, .xor, .shl, .shr, .shr_un, .neg, .not,
  .conv_i1, .conv_i2, .conv_i4, .conv_i8, .conv_r4, .conv_r8, .conv_u4, .conv_u8, .callvirt,
  .cpobj, .ldobj, .ldstr, .newobj, .castclass, .isinst, .conv_r_un, .unbox, .throw, .ldfld,
  .ldflda, .stfld, .ldsfld, .ldsflda, .stsfld, .stobj, .conv_ovf_i1_un, .conv_ovf_i2_un,
  .conv_ovf_i4_un, .conv_ovf_i8_un, .conv_ovf_u1_un, .conv_ovf_u2_un, .conv_ovf_u4_un,
  .conv_ovf_u8_un, .conv_ovf_i_un, .conv_ovf_u_un, .box, .newarr, .ldlen, .ldelema, .ldelem_i1,
  .ldelem_u1, .ldelem_i2, .ldelem_u2, .ldelem_i4, .ldelem_u4, .ldelem_i8, .ldelem_i, .ldelem_r4,
  .ldelem_r8, .ldelem_ref, .stelem_i, .stelem_i1, .stelem_i2, .stelem_i4, .stelem_i8, .stelem_r4,
  .stelem_r8, .stelem_ref, .ldelem, .stelem, .unbox_any, .conv_ovf_i1, .conv_ovf_u1, .conv_ovf_i2,
  .conv_ovf_u2, .conv_ovf_i4, .conv_ovf_u4, .conv_ovf_i8, .conv_ovf_u8, .refanyval, .ckfinite,
  .mkrefany, .ldtoken, .conv_u2, .conv_u1, .conv_i, .conv_ovf_i, .conv_ovf_u, .add_ovf,
  .add_ovf_un, .mul_ovf, .mul_ovf_un, .sub_ovf, .sub_ovf_un, .endfinally, .leave, .leave_s,
  .stind_i, .conv_u, .arglist, .ceq, .cgt, .cgt_un, .clt, .clt_un, .ldftn, .ldvirtftn, .ldarg,
  .ldarga, .starg, .ldloc, .ldloca, .stloc, .localloc, .endfilter, .unaligned, .volatile,
  .tailcall, .initobj, .constrained, .cpblk, .initblk, .unchecked, .rethrow, .sizeof, .refanytype,
  .readonly
]

def code (op : Opcode) : Nat := op.row.code

def mnemonic (op : Opcode) : String := op.row.mnemonic

def operandKind (op : Opcode) : OperandKind := op.row.operand

def flow (op : Opcode) : FlowControl := op.row.flow

def stackPop (op : Opcode) : StackPop := op.row.pop

def stackPush (op : Opcode) : StackPush := op.row.push

def size (op : Opcode) : Nat := if op.code > 0xff then 2 else 1

def index (op : Opcode) : Nat := op.ctorIdx

def ofCode? (code : Nat) : Option Opcode := all.find? fun op => op.code == code

def ofMnemonic? (mnemonic : String) : Option Opcode := all.find? fun op => op.mnemonic == mnemonic

/-- The long form of an opcode that abbreviates another one. -/
def longForm? : Opcode → Option Opcode
  | ldarg_0 | ldarg_1 | ldarg_2 | ldarg_3 | ldarg_s => some ldarg
  | ldarga_s => some ldarga
  | starg_s => some starg
  | ldloc_0 | ldloc_1 | ldloc_2 | ldloc_3 | ldloc_s => some ldloc
  | ldloca_s => some ldloca
  | stloc_0 | stloc_1 | stloc_2 | stloc_3 | stloc_s => some stloc
  | ldc_i4_m1 | ldc_i4_0 | ldc_i4_1 | ldc_i4_2 | ldc_i4_3 | ldc_i4_4 | ldc_i4_5 | ldc_i4_6
  | ldc_i4_7 | ldc_i4_8 | ldc_i4_s => some ldc_i4
  | br_s => some br
  | brfalse_s => some brfalse
  | brtrue_s => some brtrue
  | beq_s => some beq
  | bge_s => some bge
  | bgt_s => some bgt
  | ble_s => some ble
  | blt_s => some blt
  | bne_un_s => some bne_un
  | bge_un_s => some bge_un
  | bgt_un_s => some bgt_un
  | ble_un_s => some ble_un
  | blt_un_s => some blt_un
  | leave_s => some leave
  | _ => none

end CilAnalysis.Opcode
