import Cil.Opcode.Catalogue
import Cil.Text.Columns
import Cil.Text.Json

/-! The catalogue of opcodes as a report. -/
namespace Cil.Command

open Text

/-- The code with the digits of its bytes. -/
def codeText (op : Opcode) : String := upperHex (2 * op.codeWidth) op.code

/-- The catalogue as a table and its count. -/
def catalogueLines : List String :=
  let header := ["CODE", "MNEMONIC", "OPERAND", "SIZE"]
  let row (op : Opcode) := [codeText op, op.mnemonic, op.kind.name, toString op.kind.width]
  layout [.right, .left, .left, .right] (header :: Opcode.catalogue.map row)
    ++ ["", toString Opcode.catalogue.length ++ " opcodes"]

def opcodeJson (op : Opcode) : Json :=
  .record [("code", .string (codeText op)), ("mnemonic", .string op.mnemonic),
    ("operand", .string op.kind.name), ("operand_size", .number op.kind.width)]

def catalogueJson : Json :=
  .record [("count", .number Opcode.catalogue.length),
    ("opcodes", .list (Opcode.catalogue.map opcodeJson))]

end Cil.Command
