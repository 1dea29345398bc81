import Cil.Store.Basic

/-! Growing a store.

Every edit appends: bytes at the end of a heap, a row at the end of a table. An
`Update` answers with a result or an error and with the store afterwards, which
is not always the store before: the parts of a compound edit that succeeded
before the error stay. `Edit` names the edits, so that histories are lists of
them. -/
namespace Cil

open Bytes Text

/-- A computation that changes a store and may fail, keeping what it changed. -/
abbrev Update := ExceptT Error (StateM Store)

namespace Store

/-- The number of bytes a 32-bit index can reach. -/
def maxIndex : Nat := 0xFFFFFFFF

/-- Where the next entry of a heap starts. -/
def nextIndex {kind : HeapKind} (h : Heap kind) : Except Error Nat :=
  if h.size ≤ maxIndex then .ok h.size else .error (.malformed (.heapTooLarge kind))

/-- The token of a row that fits. -/
def tokenFor (t : Table) (row : Nat) : Except Error Token :=
  if row ≤ Token.maxRow then .ok (.ofParts t row) else .error (.malformed (.rowTooLarge row t))

/-- Whether a unit makes a literal one that needs care when it is compared or printed. -/
def isSpecialUnit (u : UInt16) : Bool :=
  let n := u.toNat
  0x7F ≤ n || (0x01 ≤ n && n ≤ 0x08) || (0x0E ≤ n && n ≤ 0x1F) || n = 0x27 || n = 0x2D

/-- The bytes of an identifier's entry. -/
def identifierEntry (value : String) : ByteArray := value.toUTF8.push 0

/-- The bytes of a blob's entry. -/
def blobEntry (value : ByteArray) : Except Error ByteArray :=
  if value.size ≤ maxIndex then do return (← pushCompressed .empty value.size) ++ value
  else .error (.malformed (.blobTooLong value.size))

/-- The bytes of a literal's entry: its units and the flag byte, behind their length. -/
def literalEntry (value : String) : Except Error ByteArray :=
  let units := Utf16.encode value
  let length := 2 * units.length + 1
  if length ≤ maxIndex then do
    let flag : UInt8 := if units.any isSpecialUnit then 1 else 0
    return (← pushCompressed .empty length) ++ (Utf16.toBytes units ++ [flag]).toByteArray
  else .error (.malformed (.literalTooLong units.length))

/-- Appends a row and answers with its token. -/
def push {t : Table} (row : Row t) : Update Token := do
  let token ← tokenFor t ((← get).rowCount t + 1)
  modify fun s => { s with rows := s.rows.push row }
  return token

/-- Appends an identifier and answers with its index; the empty one is always there. -/
def addString (value : String) : Update Nat := do
  if value.isEmpty then return 0
  let index ← nextIndex (← get).strings
  modify fun s => { s with strings := s.strings.append (identifierEntry value) }
  return index

/-- Appends a blob and answers with its index. -/
def addBlob (value : ByteArray) : Update Nat := do
  let index ← nextIndex (← get).blobs
  let entry ← blobEntry value
  modify fun s => { s with blobs := s.blobs.append entry }
  return index

/-- Appends a literal and answers with its token, which has to reach its start. -/
def addLiteral (value : String) : Update Token := do
  let index ← nextIndex (← get).literals
  let token ← tokenFor .userString index
  let entry ← literalEntry value
  modify fun s => { s with literals := s.literals.append entry }
  return token

def addTypeRef (space name : String) : Update Token := do
  let space ← addString space
  let name ← addString name
  push (.typeRef space name)

def addTypeDef (space name : String) : Update Token := do
  let space ← addString space
  let name ← addString name
  push (.typeDef space name)

def addField (name : String) : Update Token := do push (.field (← addString name))

def addMethodDef (name : String) : Update Token := do push (.methodDef (← addString name))

def addMemberRef (name : String) : Update Token := do push (.memberRef (← addString name))

def addStandAloneSig (signature : ByteArray) : Update Token := do
  push (.standAloneSig (← addBlob signature))

def addTypeSpec (signature : ByteArray) : Update Token := do push (.typeSpec (← addBlob signature))

def addMethodSpec (method : Token) (instantiation : ByteArray) : Update Token := do
  push (.methodSpec method (← addBlob instantiation))

end Store

/-- The edits of a store. -/
inductive Edit where
  | push {t : Table} (row : Row t)
  | addString (value : String)
  | addBlob (value : ByteArray)
  | addLiteral (value : String)
  | addTypeRef (space name : String)
  | addTypeDef (space name : String)
  | addField (name : String)
  | addMethodDef (name : String)
  | addMemberRef (name : String)
  | addStandAloneSig (signature : ByteArray)
  | addTypeSpec (signature : ByteArray)
  | addMethodSpec (method : Token) (instantiation : ByteArray)

namespace Edit

/-- What a successful edit answers. -/
inductive Answer where
  | index (n : Nat)
  | token (t : Token)
  deriving DecidableEq, Repr

def update : Edit → Update Answer
  | push row => .token <$> Store.push row
  | addString value => .index <$> Store.addString value
  | addBlob value => .index <$> Store.addBlob value
  | addLiteral value => .token <$> Store.addLiteral value
  | addTypeRef space name => .token <$> Store.addTypeRef space name
  | addTypeDef space name => .token <$> Store.addTypeDef space name
  | addField name => .token <$> Store.addField name
  | addMethodDef name => .token <$> Store.addMethodDef name
  | addMemberRef name => .token <$> Store.addMemberRef name
  | addStandAloneSig signature => .token <$> Store.addStandAloneSig signature
  | addTypeSpec signature => .token <$> Store.addTypeSpec signature
  | addMethodSpec method instantiation => .token <$> Store.addMethodSpec method instantiation

/-- One edit: its answer and the store afterwards. -/
def apply (e : Edit) (s : Store) : Except Error Answer × Store := e.update.run s

/-- A history of edits: the answers, in order, and the store afterwards. -/
def run (s : Store) : List Edit → List (Except Error Answer) × Store
  | [] => ([], s)
  | e :: rest =>
    let (answer, s) := e.apply s
    let (answers, s) := run s rest
    (answer :: answers, s)

end Edit
end Cil
