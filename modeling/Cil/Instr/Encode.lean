import Cil.Instr.Basic

/-! The bytes of an instruction.

The opcode's bytes and then the operand at the width of its kind: a literal by its
bits, a branch by its displacement from the end of the instruction, a token, resolved
or not, by its value. -/
namespace Cil

open Bytes

/-- The bytes of an operand in an instruction that ends at `next`. -/
def Operand.toBytes (kind : OperandKind) (next : Nat) : Operand → List UInt8
  | none => []
  | immediate value => value.toBytes
  | target address => toLE kind.width (((address : Int) - next) % capacity kind.width).toNat
  | symbol s => toLE 4 s.token.value.toNat
  | token t => toLE 4 t.value.toNat

/-- The bytes of an opcode. -/
def Opcode.toBytes (op : Opcode) : List UInt8 := toBE op.codeWidth op.code

/-- The bytes of an instruction. -/
def Instr.encode (i : Instr) : List UInt8 :=
  i.opcode.toBytes ++ i.operand.toBytes i.opcode.kind (i.address + i.size)

end Cil
