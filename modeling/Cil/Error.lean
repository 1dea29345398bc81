import Cil.Token

/-! What can go wrong, as causes.

An `Error` says what happened and with which values; `Error.message` is the only
place that words it. A failure while decoding carries the address of the
instruction, put there once by `Error.located`. -/
namespace Cil

open Text

/-- The heaps of a module: identifiers, literals and signatures. -/
inductive HeapKind where
  | strings
  | userStrings
  | blob
  deriving DecidableEq, Repr

/-- The heap's name in a module. -/
def HeapKind.name : HeapKind → String
  | .strings => "#Strings"
  | .userStrings => "#US"
  | .blob => "#Blob"

/-- Ways in which bytes or requests break the format. -/
inductive Malformation where
  /-- An instruction starts beyond the 32-bit address space. -/
  | addressTooLarge (address : Nat)
  | branchOutOfRange (target : Int)
  /-- No compressed integer starts with this byte; `start` is where it stands in what was read. -/
  | compressedLead (lead : Nat) (start : Nat)
  | notCompressible (value : Nat)
  | rowTooLarge (row : Nat) (table : Table)
  /-- A heap does not start with its empty entry. -/
  | heapStart (kind : HeapKind)
  | heapTooLarge (kind : HeapKind)
  | badIdentifier (index : Nat)
  | badLiteral (index : Nat)
  | blobTooLong (size : Nat)
  | literalTooLong (units : Nat)
  /-- A generic instantiation of something that is no method. -/
  | badInstantiation (spec method : Token)
  | emptyBody
  | headerTooSmall (size : Nat)
  | unknownHeader (first : Nat)
  deriving DecidableEq, Repr

def Malformation.message : Malformation → String
  | addressTooLarge address =>
    "Instruction offset " ++ toString address ++ " exceeds the 32-bit address space"
  | branchOutOfRange target => "Branch target " ++ toString target ++ " is out of range"
  | compressedLead lead start =>
    "Invalid compressed integer prefix 0x" ++ upperHex 2 lead ++ " at " ++ toString start
  | notCompressible value => "Value " ++ toString value ++ " is too large to compress"
  | rowTooLarge row table =>
    "Row 0x" ++ lowerHex 1 row ++ " does not fit in a " ++ table.name ++ " token"
  | heapStart .strings => "Provided #Strings heap is empty"
  | heapStart .userStrings => "Provided #US heap is empty"
  | heapStart .blob => "Invalid memory for #Blob heap"
  | heapTooLarge kind => kind.name ++ " heap exceeds 4 GiB"
  | badIdentifier index => "Invalid string at index - " ++ toString index
  | badLiteral index => "Invalid string from index - " ++ toString index
  | blobTooLong size => "Blob of " ++ toString size ++ " bytes is too long"
  | literalTooLong units => "User string of " ++ toString units ++ " units is too long"
  | badInstantiation spec method =>
    "MethodSpec " ++ spec.text ++ " instantiates " ++ method.text
      ++ ", expected a MethodDef or MemberRef"
  | emptyBody => "Provided data for body parsing is empty"
  | headerTooSmall size => "Fat method header declares " ++ toString size ++ " bytes"
  | unknownHeader first => "Unknown method header format 0x" ++ upperHex 2 first

inductive Error where
  /-- The code ends inside an instruction. -/
  | truncated
  | unknownOpcode (code : Nat)
  /-- A token of this table byte where none is allowed. -/
  | unsupportedToken (tableByte : Nat)
  | noBody
  | noMetadata
  | tokenNotFound (token : Token)
  | malformed (what : Malformation)
  | outOfBounds
  | cancelled
  /-- The system refused a file. -/
  | file (code : Nat) (reason : String)
  /-- Another error, met while decoding the instruction at `address`. -/
  | decode (address : Nat) (source : Error)
  deriving DecidableEq, Repr

namespace Error

/-- The error of a file that is not there. -/
def fileNotFound : Error := file 2 "No such file or directory"

/-- The wording. That of a malformation says what is wrong and with which values; the source location
that found it, its file and line, is left out. -/
def message : Error → String
  | truncated => "Instruction stream is truncated"
  | unknownOpcode code => "Unknown opcode 0x" ++ upperHex 4 code
  | unsupportedToken tableByte => "Unsupported token kind 0x" ++ upperHex 2 tableByte
  | noBody => "Method has no body"
  | noMetadata => "No metadata available to resolve symbols"
  | tokenNotFound token => "Token not found - " ++ token.text
  | malformed what => "Malformed - " ++ what.message
  | outOfBounds => "Out of Bound read would have occurred!"
  | cancelled => "Operation was cancelled"
  | file code reason => reason ++ " (os error " ++ toString code ++ ")"
  | decode address source =>
    "Failed to decode instruction at IL_" ++ upperHex 4 address ++ ": " ++ source.message

/-- Puts the address of an instruction on an error that has none yet. -/
def located (address : Nat) : Error → Error
  | decode a source => decode a source
  | e => decode address e

/-- The address of the outermost layer. -/
def address? : Error → Option Nat
  | decode address _ => some address
  | _ => none

/-- What went wrong, below all layers. -/
def cause : Error → Error
  | decode _ source => source.cause
  | e => e

end Error

/-- A computation that succeeds hands a value from its first part to its second. -/
theorem bind_eq_ok {ε α β : Type} {x : Except ε α} {f : α → Except ε β} {b : β} :
    (x >>= f) = .ok b ↔ ∃ a, x = .ok a ∧ f a = .ok b := by
  cases x <;> simp [bind, Except.bind]

/-- A computation fails in its first part, or in its second on a value from the first. -/
theorem bind_eq_error {ε α β : Type} {x : Except ε α} {f : α → Except ε β} {e : ε} :
    (x >>= f) = .error e ↔ x = .error e ∨ ∃ a, x = .ok a ∧ f a = .error e := by
  cases x <;> simp [bind, Except.bind]

end Cil
