import Cil.Bytes.Scalar
import Cil.Token

/-! What follows an opcode.

An operand kind tells how many bytes its operand takes, whether it is a displacement or
a token, and which tables a token may refer to. Its form fixes how the bytes are read,
and agrees with that (`width_form`, `isBranch_iff`, `isToken_iff`). -/
namespace Cil

inductive OperandKind where
  | none
  | branchTargetShort
  | branchTargetLong
  | int8
  | int32
  | int64
  | float32
  | float64
  | varIndex8
  | varIndex16
  | fieldRef
  | methodRef
  | typeRef
  | signatureRef
  | stringRef
  | genericToken
  | switchTable
  deriving DecidableEq, Repr

namespace OperandKind

def all : List OperandKind :=
  [none, branchTargetShort, branchTargetLong, int8, int32, int64, float32, float64, varIndex8,
    varIndex16, fieldRef, methodRef, typeRef, signatureRef, stringRef, genericToken, switchTable]

def name : OperandKind → String
  | none => "none"
  | branchTargetShort => "branch_target_short"
  | branchTargetLong => "branch_target_long"
  | int8 => "int8"
  | int32 => "int32"
  | int64 => "int64"
  | float32 => "float32"
  | float64 => "float64"
  | varIndex8 => "var_index8"
  | varIndex16 => "var_index16"
  | fieldRef => "field_ref"
  | methodRef => "method_ref"
  | typeRef => "type_ref"
  | signatureRef => "signature_ref"
  | stringRef => "string_ref"
  | genericToken => "generic_token"
  | switchTable => "switch_table"

def ofName? (s : String) : Option OperandKind := all.find? fun k => k.name == s

/-! ### What a kind tells of itself -/

/-- Bytes taken by the operand. Of a jump table this is the count in front of it alone. -/
def width : OperandKind → Nat
  | none => 0
  | branchTargetShort | int8 | varIndex8 => 1
  | varIndex16 => 2
  | branchTargetLong | int32 | float32 | fieldRef | methodRef | typeRef | signatureRef | stringRef
  | genericToken | switchTable => 4
  | int64 | float64 => 8

/-- The operand is a displacement. -/
def isBranch : OperandKind → Bool
  | branchTargetShort | branchTargetLong => true
  | _ => false

/-- The operand is a token. -/
def isToken : OperandKind → Bool
  | fieldRef | methodRef | typeRef | signatureRef | stringRef | genericToken => true
  | _ => false

/-- The tables a token of this kind may refer to. -/
def accepted : OperandKind → List Table
  | fieldRef => [.field, .memberRef]
  | methodRef => [.methodDef, .memberRef, .methodSpec]
  | typeRef => [.typeDef, .typeRef, .typeSpec]
  | signatureRef => [.standAloneSig]
  | stringRef => [.userString]
  | genericToken => [.methodDef, .methodSpec, .typeDef, .typeRef, .typeSpec, .field, .memberRef]
  | _ => []

/-! ### How its bytes are read -/

/-- How the bytes of an operand are read. -/
inductive Form where
  | none
  /-- A signed displacement from the end of the instruction. -/
  | branch (displacement : Scalar.Format)
  | literal (format : Scalar.Format)
  | token
  deriving DecidableEq, Repr

/-- Bytes taken by an operand of this form. -/
def Form.width : Form → Nat
  | none => 0
  | branch f | literal f => f.width
  | token => 4

def form : OperandKind → Form
  | none => .none
  | branchTargetShort => .branch .int8
  | branchTargetLong => .branch .int32
  | int8 => .literal .int8
  | int32 => .literal .int32
  | int64 => .literal .int64
  | float32 => .literal .float32
  | float64 => .literal .float64
  | varIndex8 => .literal .uint8
  | varIndex16 => .literal .uint16
  | switchTable => .literal .uint32
  | fieldRef | methodRef | typeRef | signatureRef | stringRef | genericToken => .token

/-- An operand is read from as many bytes as its kind takes. -/
theorem width_form (k : OperandKind) : k.form.width = k.width := by
  cases k <;> rfl

/-- Displacements are read for the kinds that branch. -/
theorem isBranch_iff {k : OperandKind} : k.isBranch = true ↔ ∃ f, k.form = .branch f := by
  cases k <;> simp [isBranch, form]

/-- Tokens are read for the kinds that take one. -/
theorem isToken_iff {k : OperandKind} : k.isToken = true ↔ k.form = .token := by
  cases k <;> simp [isToken, form]

end OperandKind
end Cil
