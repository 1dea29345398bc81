import Cil.Heap
import Cil.Store.Symbol

/-! The metadata of a module: rows over three heaps.

A row holds indices into the heaps, unchecked until it is resolved. Rows are
indexed by their table, so that no table can hold a row of another one; the
table of literals has no rows at all. `Store.resolve` follows a token to the thing
it names. -/
namespace Cil

/-- A row of a table, with the columns needed to name it. -/
inductive Row : Table → Type where
  | typeRef (space name : Nat) : Row .typeRef
  | typeDef (space name : Nat) : Row .typeDef
  | field (name : Nat) : Row .field
  | methodDef (name : Nat) : Row .methodDef
  | memberRef (name : Nat) : Row .memberRef
  | standAloneSig (signature : Nat) : Row .standAloneSig
  | typeSpec (signature : Nat) : Row .typeSpec
  | methodSpec (method : Token) (instantiation : Nat) : Row .methodSpec

/-- The rows of every table, in the order of their tokens. -/
structure Rows where
  typeRefs : Array (Row .typeRef) := #[]
  typeDefs : Array (Row .typeDef) := #[]
  fields : Array (Row .field) := #[]
  methodDefs : Array (Row .methodDef) := #[]
  memberRefs : Array (Row .memberRef) := #[]
  standAloneSigs : Array (Row .standAloneSig) := #[]
  typeSpecs : Array (Row .typeSpec) := #[]
  methodSpecs : Array (Row .methodSpec) := #[]

namespace Rows

def get (rows : Rows) : (t : Table) → Array (Row t)
  | .typeRef => rows.typeRefs
  | .typeDef => rows.typeDefs
  | .field => rows.fields
  | .methodDef => rows.methodDefs
  | .memberRef => rows.memberRefs
  | .standAloneSig => rows.standAloneSigs
  | .typeSpec => rows.typeSpecs
  | .methodSpec => rows.methodSpecs
  | .userString => #[]

/-- The rows with one more at the end of its table. -/
def push (rows : Rows) : {t : Table} → Row t → Rows
  | .typeRef, row => { rows with typeRefs := rows.typeRefs.push row }
  | .typeDef, row => { rows with typeDefs := rows.typeDefs.push row }
  | .field, row => { rows with fields := rows.fields.push row }
  | .methodDef, row => { rows with methodDefs := rows.methodDefs.push row }
  | .memberRef, row => { rows with memberRefs := rows.memberRefs.push row }
  | .standAloneSig, row => { rows with standAloneSigs := rows.standAloneSigs.push row }
  | .typeSpec, row => { rows with typeSpecs := rows.typeSpecs.push row }
  | .methodSpec, row => { rows with methodSpecs := rows.methodSpecs.push row }
  | .userString, _ => rows

@[simp]
theorem get_push_self (rows : Rows) {t : Table} (row : Row t) :
    (rows.push row).get t = (rows.get t).push row := by
  cases row <;> rfl

@[simp]
theorem get_push_of_ne (rows : Rows) {t u : Table} (row : Row t) (h : u ≠ t) :
    (rows.push row).get u = rows.get u := by
  cases row <;> cases u <;> first | rfl | exact absurd rfl h

end Rows

structure Store where
  strings : Heap .strings := .empty
  literals : Heap .userStrings := .empty
  blobs : Heap .blob := .empty
  rows : Rows := {}

namespace Store

def empty : Store := {}

/-- A store without rows over these heaps, which are checked in this order. -/
def ofHeaps (strings literals blobs : ByteArray) : Except Error Store := do
  let strings ← Heap.ofBytes .strings strings
  let literals ← Heap.ofBytes .userStrings literals
  let blobs ← Heap.ofBytes .blob blobs
  return { strings, literals, blobs }

def rowCount (s : Store) (t : Table) : Nat := (s.rows.get t).size

/-- The row that a token of table `t` refers to. Rows count from one. -/
def row (s : Store) (t : Table) (token : Token) : Except Error (Row t) :=
  if token.row = 0 then .error (.tokenNotFound token)
  else
    match (s.rows.get t)[token.row - 1]? with
    | some row => .ok row
    | none => .error (.tokenNotFound token)

/-- A name with its namespace in front, if it has one. -/
def qualified (space name : String) : String :=
  if space.isEmpty then name else space ++ "." ++ name

def qualifiedName (s : Store) (space name : Nat) : Except Error String := do
  let space ← s.strings.identifier space
  let name ← s.strings.identifier name
  return qualified space name

/-- The literal behind a token; one that starts outside the heap is not found. -/
def literal (s : Store) (token : Token) : Except Error String :=
  if token.table? = some .userString then
    match s.literals.literal token.row with
    | .error .outOfBounds => .error (.tokenNotFound token)
    | result => result
  else .error (.unsupportedToken token.tableByte)

/-- The name of the method definition or member that a generic instantiation is made of. -/
def genericName (s : Store) (spec method : Token) : Except Error String :=
  match method.table? with
  | some .methodDef => do
    let .methodDef name ← s.row .methodDef method
    s.strings.identifier name
  | some .memberRef => do
    let .memberRef name ← s.row .memberRef method
    s.strings.identifier name
  | _ => .error (.malformed (.badInstantiation spec method))

/-- The thing a row names. A constructed type has no name, but its signature has to be
there; of a generic instantiation only the method is looked at. -/
def symbol (s : Store) (token : Token) : {t : Table} → Row t → Except Error Symbol
  | _, .typeRef space name => do
    return .type token (some (← s.qualifiedName space name))
  | _, .typeDef space name => do
    return .type token (some (← s.qualifiedName space name))
  | _, .field name => do return .field token (← s.strings.identifier name)
  | _, .methodDef name => do return .method token (← s.strings.identifier name)
  | _, .memberRef name => do return .member token (← s.strings.identifier name)
  | _, .standAloneSig signature => do return .signature token (← s.blobs.blob signature)
  | _, .typeSpec signature => do
    let _ ← s.blobs.blob signature
    return .type token none
  | _, .methodSpec method _ => do return .method token (← s.genericName token method)

/-- The thing a token names. -/
def resolve (s : Store) (token : Token) : Except Error Symbol :=
  match token.table? with
  | none => .error (.unsupportedToken token.tableByte)
  | some .userString => do return .literal token (← s.literal token)
  | some t => do
    let row ← s.row t token
    s.symbol token row

end Store
end Cil
