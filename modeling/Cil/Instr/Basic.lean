import Cil.Instr.Resolver
import Cil.Opcode.Catalogue

/-! Instructions and their text.

A branch shows its target; a resolved operand shows the text or the name behind
it, in quotes, if names are asked for, and its token otherwise. -/
namespace Cil

open Bytes Text

/-- The greatest address of an instruction. -/
def maxAddress : Nat := 0xFFFFFFFF

/-- An address as a label, `IL_001A`. -/
def label (address : Nat) : String := "IL_" ++ upperHex 4 address

structure Instr where
  address : Nat
  /-- Bytes of opcode and operand. -/
  size : Nat
  opcode : Opcode
  operand : Operand

/-- The operand on its own; nothing for none. -/
def Operand.text : Operand → String
  | none => ""
  | immediate value => value.text
  | target address => upperHex 4 address
  | symbol s => s.token.text
  | token t => t.text

namespace Instr

/-- The address behind the instruction; addresses stop at the greatest one. -/
def next (i : Instr) : Nat := min (i.address + i.size) maxAddress

/-- The bytes of the instruction in its code. -/
def bytes? (i : Instr) (code : ByteArray) : Option ByteArray :=
  window? code i.address (i.next - i.address)

/-- The mnemonic and the operand as it stands. -/
def plainText (i : Instr) : String :=
  match i.operand with
  | .none => i.opcode.mnemonic
  | operand => i.opcode.mnemonic ++ " " ++ operand.text

/-- The instruction as a line of a listing. -/
def text (named : Bool) (i : Instr) : String :=
  match i.operand, named with
  | .symbol s, true =>
    match s.text? <|> s.name? with
    | some shown => i.opcode.mnemonic ++ " \"" ++ shown ++ "\""
    | none => i.plainText
  | _, _ => i.plainText

end Instr
end Cil
