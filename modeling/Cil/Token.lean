import Cil.Text.Digits

/-! Tables and tokens.

A token is the 32-bit value an instruction uses to refer to metadata. Its top
byte names a table, its low 24 bits a row, counted from one; in the table of
literals the low bits are an offset into the literal heap instead. -/
namespace Cil

open Text

/-- The tables an operand can refer to. -/
inductive Table where
  | typeRef
  | typeDef
  | field
  | methodDef
  | memberRef
  | standAloneSig
  | typeSpec
  | methodSpec
  | userString
  deriving DecidableEq, Repr

namespace Table

def all : List Table :=
  [typeRef, typeDef, field, methodDef, memberRef, standAloneSig, typeSpec, methodSpec, userString]

/-- The top byte of the table's tokens. -/
def byte : Table → Nat
  | typeRef => 0x01
  | typeDef => 0x02
  | field => 0x04
  | methodDef => 0x06
  | memberRef => 0x0A
  | standAloneSig => 0x11
  | typeSpec => 0x1B
  | methodSpec => 0x2B
  | userString => 0x70

/-- The table with this byte. -/
def ofByte? (b : Nat) : Option Table := all.find? fun t => t.byte == b

def name : Table → String
  | typeRef => "TypeRef"
  | typeDef => "TypeDef"
  | field => "Field"
  | methodDef => "MethodDef"
  | memberRef => "MemberRef"
  | standAloneSig => "StandAloneSig"
  | typeSpec => "TypeSpec"
  | methodSpec => "MethodSpec"
  | userString => "UserString"

def ofName? (s : String) : Option Table := all.find? fun t => t.name == s

theorem byte_lt (t : Table) : t.byte < 256 := by
  cases t <;> decide

theorem ofByte?_byte (t : Table) : ofByte? t.byte = some t := by
  cases t <;> rfl

theorem byte_of_ofByte? {b : Nat} {t : Table} (h : ofByte? b = some t) : t.byte = b := by
  simpa using List.find?_some h

end Table

/-- A reference to metadata: table byte above, row below. -/
structure Token where
  value : UInt32
  deriving DecidableEq, Repr

namespace Token

/-- The greatest row a token can carry. -/
def maxRow : Nat := 0xFFFFFF

def tableByte (t : Token) : Nat := t.value.toNat / 0x1000000

def row (t : Token) : Nat := t.value.toNat % 0x1000000

/-- The table of the token, if its byte names one. -/
def table? (t : Token) : Option Table := Table.ofByte? t.tableByte

def isNull (t : Token) : Bool := t.value == 0

/-- The token of a row; only the low 24 bits of the row are kept. -/
def ofParts (table : Table) (row : Nat) : Token :=
  ⟨UInt32.ofNat (table.byte * 0x1000000 + row % 0x1000000)⟩

/-- The token as it is written, `0x0a000001`. -/
def text (t : Token) : String := "0x" ++ lowerHex 8 t.value.toNat

/-- The token with its parts told apart. -/
def describe (t : Token) : String :=
  "Token(" ++ t.text ++ ", table: 0x" ++ lowerHex 2 t.tableByte ++ ", row: " ++ toString t.row ++ ")"

theorem row_lt (t : Token) : t.row < 0x1000000 := Nat.mod_lt _ (by decide)

theorem toNat_ofParts (table : Table) (row : Nat) :
    (ofParts table row).value.toNat = table.byte * 0x1000000 + row % 0x1000000 := by
  have hb := table.byte_lt
  have hr : row % 0x1000000 < 0x1000000 := Nat.mod_lt _ (by decide)
  rw [ofParts, UInt32.toNat_ofNat']
  omega

theorem tableByte_ofParts (table : Table) (row : Nat) : (ofParts table row).tableByte = table.byte := by
  have hr : row % 0x1000000 < 0x1000000 := Nat.mod_lt _ (by decide)
  rw [tableByte, toNat_ofParts]
  omega

theorem row_ofParts (table : Table) (row : Nat) : (ofParts table row).row = row % 0x1000000 := by
  rw [Token.row, toNat_ofParts]
  omega

@[simp]
theorem table?_ofParts (table : Table) (row : Nat) : (ofParts table row).table? = some table := by
  rw [table?, tableByte_ofParts, Table.ofByte?_byte]

end Token
end Cil
