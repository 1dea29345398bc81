import Cil.Error
import Cil.Opcode.Kind

/-! The opcodes.

An opcode is one byte, or the escape byte and a second one; its code is the byte
or both bytes as one number. The catalogue lists every opcode once, in the order of
the codes. -/
namespace Cil

/-- The byte in front of a two-byte opcode. -/
def escapeByte : Nat := 0xFE

structure Opcode where
  code : Nat
  mnemonic : String
  kind : OperandKind
  deriving DecidableEq, Repr

namespace Opcode

/-- Bytes of the opcode itself. -/
def codeWidth (op : Opcode) : Nat := if op.code > 0xFF then 2 else 1

/-- Bytes of an instruction with this opcode. -/
def size (op : Opcode) : Nat := op.codeWidth + op.kind.width

/-- Opcodes of one byte. -/
def plain : List Opcode := [
  ⟨0x00, "nop", .none⟩,
  ⟨0x01, "break", .none⟩,
  ⟨0x02, "ldarg.0", .none⟩,
  ⟨0x03, "ldarg.1", .none⟩,
  ⟨0x04, "ldarg.2", .none⟩,
  ⟨0x05, "ldarg.3", .none⟩,
  ⟨0x06, "ldloc.0", .none⟩,
  ⟨0x07, "ldloc.1", .none⟩,
  ⟨0x08, "ldloc.2", .none⟩,
  ⟨0x09, "ldloc.3", .none⟩,
  ⟨0x0A, "stloc.0", .none⟩,
  ⟨0x0B, "stloc.1", .none⟩,
  ⟨0x0C, "stloc.2", .none⟩,
  ⟨0x0D, "stloc.3", .none⟩,
  ⟨0x0E, "ldarg.s", .varIndex8⟩,
  ⟨0x0F, "ldarga.s", .varIndex8⟩,
  ⟨0x10, "starg.s", .varIndex8⟩,
  ⟨0x11, "ldloc.s", .varIndex8⟩,
  ⟨0x12, "ldloca.s", .varIndex8⟩,
  ⟨0x13, "stloc.s", .varIndex8⟩,
  ⟨0x14, "ldnull", .none⟩,
  ⟨0x15, "ldc.i4.m1", .none⟩,
  ⟨0x16, "ldc.i4.0", .none⟩,
  ⟨0x17, "ldc.i4.1", .none⟩,
  ⟨0x18, "ldc.i4.2", .none⟩,
  ⟨0x19, "ldc.i4.3", .none⟩,
  ⟨0x1A, "ldc.i4.4", .none⟩,
  ⟨0x1B, "ldc.i4.5", .none⟩,
  ⟨0x1C, "ldc.i4.6", .none⟩,
  ⟨0x1D, "ldc.i4.7", .none⟩,
  ⟨0x1E, "ldc.i4.8", .none⟩,
  ⟨0x1F, "ldc.i4.s", .int8⟩,
  ⟨0x20, "ldc.i4", .int32⟩,
  ⟨0x21, "ldc.i8", .int64⟩,
  ⟨0x22, "ldc.r4", .float32⟩,
  ⟨0x23, "ldc.r8", .float64⟩,
  ⟨0x25, "dup", .none⟩,
  ⟨0x26, "pop", .none⟩,
  ⟨0x27, "jmp", .methodRef⟩,
  ⟨0x28, "call", .methodRef⟩,
  ⟨0x29, "calli", .signatureRef⟩,
  ⟨0x2A, "ret", .none⟩,
  ⟨0x2B, "br.s", .branchTargetShort⟩,
  ⟨0x2C, "brfalse.s", .branchTargetShort⟩,
  ⟨0x2D, "brtrue.s", .branchTargetShort⟩,
  ⟨0x2E, "beq.s", .branchTargetShort⟩,
  ⟨0x2F, "bge.s", .branchTargetShort⟩,
  ⟨0x30, "bgt.s", .branchTargetShort⟩,
  ⟨0x31, "ble.s", .branchTargetShort⟩,
  ⟨0x32, "blt.s", .branchTargetShort⟩,
  ⟨0x33, "bne.un.s", .branchTargetShort⟩,
  ⟨0x34, "bge.un.s", .branchTargetShort⟩,
  ⟨0x35, "bgt.un.s", .branchTargetShort⟩,
  ⟨0x36, "ble.un.s", .branchTargetShort⟩,
  ⟨0x37, "blt.un.s", .branchTargetShort⟩,
  ⟨0x38, "br", .branchTargetLong⟩,
  ⟨0x39, "brfalse", .branchTargetLong⟩,
  ⟨0x3A, "brtrue", .branchTargetLong⟩,
  ⟨0x3B, "beq", .branchTargetLong⟩,
  ⟨0x3C, "bge", .branchTargetLong⟩,
  ⟨0x3D, "bgt", .branchTargetLong⟩,
  ⟨0x3E, "ble", .branchTargetLong⟩,
  ⟨0x3F, "blt", .branchTargetLong⟩,
  ⟨0x40, "bne.un", .branchTargetLong⟩,
  ⟨0x41, "bge.un", .branchTargetLong⟩,
  ⟨0x42, "bgt.un", .branchTargetLong⟩,
  ⟨0x43, "ble.un", .branchTargetLong⟩,
  ⟨0x44, "blt.un", .branchTargetLong⟩,
  ⟨0x45, "switch", .switchTable⟩,
  ⟨0x46, "ldind.i1", .none⟩,
  ⟨0x47, "ldind.u1", .none⟩,
  ⟨0x48, "ldind.i2", .none⟩,
  ⟨0x49, "ldind.u2", .none⟩,
  ⟨0x4A, "ldind.i4", .none⟩,
  ⟨0x4B, "ldind.u4", .none⟩,
  ⟨0x4C, "ldind.i8", .none⟩,
  ⟨0x4D, "ldind.i", .none⟩,
  ⟨0x4E, "ldind.r4", .none⟩,
  ⟨0x4F, "ldind.r8", .none⟩,
  ⟨0x50, "ldind.ref", .none⟩,
  ⟨0x51, "stind.ref", .none⟩,
  ⟨0x52, "stind.i1", .none⟩,
  ⟨0x53, "stind.i2", .none⟩,
  ⟨0x54, "stind.i4", .none⟩,
  ⟨0x55, "stind.i8", .none⟩,
  ⟨0x56, "stind.r4", .none⟩,
  ⟨0x57, "stind.r8", .none⟩,
  ⟨0x58, "add", .none⟩,
  ⟨0x59, "sub", .none⟩,
  ⟨0x5A, "mul", .none⟩,
  ⟨0x5B, "div", .none⟩,
  ⟨0x5C, "div.un", .none⟩,
  ⟨0x5D, "rem", .none⟩,
  ⟨0x5E, "rem.un", .none⟩,
  ⟨0x5F, "and", .none⟩,
  ⟨0x60, "or", .none⟩,
  ⟨0x61, "xor", .none⟩,
  ⟨0x62, "shl", .none⟩,
  ⟨0x63, "shr", .none⟩,
  ⟨0x64, "shr.un", .none⟩,
  ⟨0x65, "neg", .none⟩,
  ⟨0x66, "not", .none⟩,
  ⟨0x67, "conv.i1", .none⟩,
  ⟨0x68, "conv.i2", .none⟩,
  ⟨0x69, "conv.i4", .none⟩,
  ⟨0x6A, "conv.i8", .none⟩,
  ⟨0x6B, "conv.r4", .none⟩,
  ⟨0x6C, "conv.r8", .none⟩,
  ⟨0x6D, "conv.u4", .none⟩,
  ⟨0x6E, "conv.u8", .none⟩,
  ⟨0x6F, "callvirt", .methodRef⟩,
  ⟨0x70, "cpobj", .typeRef⟩,
  ⟨0x71, "ldobj", .typeRef⟩,
  ⟨0x72, "ldstr", .stringRef⟩,
  ⟨0x73, "newobj", .methodRef⟩,
  ⟨0x74, "castclass", .typeRef⟩,
  ⟨0x75, "isinst", .typeRef⟩,
  ⟨0x76, "conv.r.un", .none⟩,
  ⟨0x79, "unbox", .typeRef⟩,
  ⟨0x7A, "throw", .none⟩,
  ⟨0x7B, "ldfld", .fieldRef⟩,
  ⟨0x7C, "ldflda", .fieldRef⟩,
  ⟨0x7D, "stfld", .fieldRef⟩,
  ⟨0x7E, "ldsfld", .fieldRef⟩,
  ⟨0x7F, "ldsflda", .fieldRef⟩,
  ⟨0x80, "stsfld", .fieldRef⟩,
  ⟨0x81, "stobj", .typeRef⟩,
  ⟨0x82, "conv.ovf.i1.un", .none⟩,
  ⟨0x83, "conv.ovf.i2.un", .none⟩,
  ⟨0x84, "conv.ovf.i4.un", .none⟩,
  ⟨0x85, "conv.ovf.i8.un", .none⟩,
  ⟨0x86, "conv.ovf.u1.un", .none⟩,
  ⟨0x87, "conv.ovf.u2.un", .none⟩,
  ⟨0x88, "conv.ovf.u4.un", .none⟩,
  ⟨0x89, "conv.ovf.u8.un", .none⟩,
  ⟨0x8A, "conv.ovf.i.un", .none⟩,
  ⟨0x8B, "conv.ovf.u.un", .none⟩,
  ⟨0x8C, "box", .typeRef⟩,
  ⟨0x8D, "newarr", .typeRef⟩,
  ⟨0x8E, "ldlen", .none⟩,
  ⟨0x8F, "ldelema", .typeRef⟩,
  ⟨0x90, "ldelem.i1", .none⟩,
  ⟨0x91, "ldelem.u1", .none⟩,
  ⟨0x92, "ldelem.i2", .none⟩,
  ⟨0x93, "ldelem.u2", .none⟩,
  ⟨0x94, "ldelem.i4", .none⟩,
  ⟨0x95, "ldelem.u4", .none⟩,
  ⟨0x96, "ldelem.i8", .none⟩,
  ⟨0x97, "ldelem.i", .none⟩,
  ⟨0x98, "ldelem.r4", .none⟩,
  ⟨0x99, "ldelem.r8", .none⟩,
  ⟨0x9A, "ldelem.ref", .none⟩,
  ⟨0x9B, "stelem.i", .none⟩,
  ⟨0x9C, "stelem.i1", .none⟩,
  ⟨0x9D, "stelem.i2", .none⟩,
  ⟨0x9E, "stelem.i4", .none⟩,
  ⟨0x9F, "stelem.i8", .none⟩,
  ⟨0xA0, "stelem.r4", .none⟩,
  ⟨0xA1, "stelem.r8", .none⟩,
  ⟨0xA2, "stelem.ref", .none⟩,
  ⟨0xA3, "ldelem", .typeRef⟩,
  ⟨0xA4, "stelem", .typeRef⟩,
  ⟨0xA5, "unbox.any", .typeRef⟩,
  ⟨0xB3, "conv.ovf.i1", .none⟩,
  ⟨0xB4, "conv.ovf.u1", .none⟩,
  ⟨0xB5, "conv.ovf.i2", .none⟩,
  ⟨0xB6, "conv.ovf.u2", .none⟩,
  ⟨0xB7, "conv.ovf.i4", .none⟩,
  ⟨0xB8, "conv.ovf.u4", .none⟩,
  ⟨0xB9, "conv.ovf.i8", .none⟩,
  ⟨0xBA, "conv.ovf.u8", .none⟩,
  ⟨0xC2, "refanyval", .typeRef⟩,
  ⟨0xC3, "ckfinite", .none⟩,
  ⟨0xC6, "mkrefany", .typeRef⟩,
  ⟨0xD0, "ldtoken", .genericToken⟩,
  ⟨0xD1, "conv.u2", .none⟩,
  ⟨0xD2, "conv.u1", .none⟩,
  ⟨0xD3, "conv.i", .none⟩,
  ⟨0xD4, "conv.ovf.i", .none⟩,
  ⟨0xD5, "conv.ovf.u", .none⟩,
  ⟨0xD6, "add.ovf", .none⟩,
  ⟨0xD7, "add.ovf.un", .none⟩,
  ⟨0xD8, "mul.ovf", .none⟩,
  ⟨0xD9, "mul.ovf.un", .none⟩,
  ⟨0xDA, "sub.ovf", .none⟩,
  ⟨0xDB, "sub.ovf.un", .none⟩,
  ⟨0xDC, "endfinally", .none⟩,
  ⟨0xDD, "leave", .branchTargetLong⟩,
  ⟨0xDE, "leave.s", .branchTargetShort⟩,
  ⟨0xDF, "stind.i", .none⟩,
  ⟨0xE0, "conv.u", .none⟩]

/-- Opcodes behind the escape byte. -/
def escaped : List Opcode := [
  ⟨0xFE00, "arglist", .none⟩,
  ⟨0xFE01, "ceq", .none⟩,
  ⟨0xFE02, "cgt", .none⟩,
  ⟨0xFE03, "cgt.un", .none⟩,
  ⟨0xFE04, "clt", .none⟩,
  ⟨0xFE05, "clt.un", .none⟩,
  ⟨0xFE06, "ldftn", .methodRef⟩,
  ⟨0xFE07, "ldvirtftn", .methodRef⟩,
  ⟨0xFE09, "ldarg", .varIndex16⟩,
  ⟨0xFE0A, "ldarga", .varIndex16⟩,
  ⟨0xFE0B, "starg", .varIndex16⟩,
  ⟨0xFE0C, "ldloc", .varIndex16⟩,
  ⟨0xFE0D, "ldloca", .varIndex16⟩,
  ⟨0xFE0E, "stloc", .varIndex16⟩,
  ⟨0xFE0F, "localloc", .none⟩,
  ⟨0xFE11, "endfilter", .none⟩,
  ⟨0xFE12, "unaligned.", .int8⟩,
  ⟨0xFE13, "volatile.", .none⟩,
  ⟨0xFE14, "tail.", .none⟩,
  ⟨0xFE15, "initobj", .typeRef⟩,
  ⟨0xFE16, "constrained.", .typeRef⟩,
  ⟨0xFE17, "cpblk", .none⟩,
  ⟨0xFE18, "initblk", .none⟩,
  ⟨0xFE19, "no.", .int8⟩,
  ⟨0xFE1A, "rethrow", .none⟩,
  ⟨0xFE1C, "sizeof", .typeRef⟩,
  ⟨0xFE1D, "refanytype", .none⟩,
  ⟨0xFE1E, "readonly.", .none⟩]

/-- All opcodes, in the order of their codes. -/
def catalogue : List Opcode := plain ++ escaped

/-- The opcode with this code. -/
def lookup (code : Nat) : Except Error Opcode :=
  match catalogue.find? fun op => op.code == code with
  | some op => .ok op
  | none => .error (.unknownOpcode code)

theorem size_pos (op : Opcode) : 0 < op.size := by
  unfold size codeWidth
  split <;> omega

theorem lookup_eq_ok {code : Nat} {op : Opcode} (h : lookup code = .ok op) :
    op ∈ catalogue ∧ op.code = code := by
  unfold lookup at h
  split at h
  · next found =>
    cases h
    exact ⟨List.mem_of_find?_eq_some found, by simpa using List.find?_some found⟩
  · cases h

end Opcode
end Cil
