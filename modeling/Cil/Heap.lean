import Cil.Error
import Cil.Bytes.Compressed
import Cil.Bytes.Cursor
import Cil.Text.Utf16

/-! The heaps of a module.

Every heap starts with a zero byte, its empty entry, and grows only at its end.
Identifiers are UTF-8 up to a zero byte. Literals and blobs are a compressed
length and that many bytes; a literal's bytes are UTF-16 and mostly end in an odd
flag byte, which is no part of the text. -/
namespace Cil

open Bytes Text

structure Heap (kind : HeapKind) where
  bytes : ByteArray
  starts : byte? bytes 0 = some 0

namespace Heap

variable {kind : HeapKind}

/-- The heap with only the empty entry. -/
def empty : Heap kind := ⟨⟨#[0]⟩, rfl⟩

/-- The heap over these bytes, if they start with the empty entry. -/
def ofBytes (kind : HeapKind) (bytes : ByteArray) : Except Error (Heap kind) :=
  if h : byte? bytes 0 = some 0 then .ok ⟨bytes, h⟩ else .error (.malformed (.heapStart kind))

def size (h : Heap kind) : Nat := h.bytes.size

/-- No entry but the empty one. -/
def isEmpty (h : Heap kind) : Bool := h.size ≤ 1

/-- The heap with more bytes at its end. -/
def append (h : Heap kind) (tail : ByteArray) : Heap kind :=
  ⟨h.bytes ++ tail, byte?_append tail h.starts⟩

/-- The bytes of the length-prefixed entry at `index`. -/
def entry (h : Heap kind) (index : Nat) : Except Error ByteArray :=
  match Compressed.read h.bytes index with
  | .ok (length, width) => slice h.bytes (index + width) length
  | .error .short => .error .outOfBounds
  | .error (.lead b) => .error (.malformed (.compressedLead b.toNat 0))

/-- The identifier at `index`. -/
def identifier (h : Heap .strings) (index : Nat) : Except Error String :=
  if index ≤ h.size then
    match (zeroFrom? h.bytes index).bind fun stop => String.fromUTF8? (h.bytes.extract index stop) with
    | some s => .ok s
    | none => .error (.malformed (.badIdentifier index))
  else .error .outOfBounds

/-- The literal at `index`. -/
def literal (h : Heap .userStrings) (index : Nat) : Except Error String :=
  match h.entry index with
  | .ok bytes =>
    match Utf16.decode? (Utf16.ofBytes (octets bytes)) with
    | some s => .ok s
    | none => .error (.malformed (.badLiteral index))
  | .error e => .error e

/-- The blob at `index`. -/
def blob (h : Heap .blob) (index : Nat) : Except Error ByteArray := h.entry index

end Heap
end Cil
