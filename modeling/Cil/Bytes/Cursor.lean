import Cil.Error
import Cil.Bytes.Scalar
import Cil.Bytes.Compressed

/-! Reading at a position of a buffer and writing at its end.

A read gives its result together with the cursor behind it; a read that does not
fit gives an error and no cursor, so nothing moves. In the same way a number that
cannot be written leaves no new buffer. -/
namespace Cil

open Bytes

/-- The `count` bytes of `data` from `start`. -/
def Bytes.slice (data : ByteArray) (start count : Nat) : Except Error ByteArray :=
  match window? data start count with
  | some bytes => .ok bytes
  | none => .error .outOfBounds

/-- The number of format `f` that starts at `pos`. -/
def Scalar.readAt (f : Scalar.Format) (data : ByteArray) (pos : Nat) : Except Error Scalar :=
  match window? data pos f.width with
  | some bytes => .ok (.ofBytes f (octets bytes))
  | none => .error .outOfBounds

/-- The buffer with a compressed number at its end. -/
def Bytes.pushCompressed (buffer : ByteArray) (n : Nat) : Except Error ByteArray :=
  match Compressed.encode? n with
  | some bytes => .ok (buffer ++ bytes.toByteArray)
  | none => .error (.malformed (.notCompressible n))

structure Cursor where
  data : ByteArray
  pos : Nat

namespace Cursor

/-- The cursor in front of the first byte. -/
def start (data : ByteArray) : Cursor := ⟨data, 0⟩

def remaining (c : Cursor) : Nat := c.data.size - c.pos

def hasMore (c : Cursor) : Bool := c.pos < c.data.size

def advance (c : Cursor) (count : Nat) : Cursor := { c with pos := c.pos + count }

def reset (c : Cursor) : Cursor := start c.data

/-- Moves to `pos`, at most to the end. -/
def seek (c : Cursor) (pos : Nat) : Except Error Cursor :=
  if pos ≤ c.data.size then .ok { c with pos } else .error .outOfBounds

def take (c : Cursor) (count : Nat) : Except Error (ByteArray × Cursor) :=
  match slice c.data c.pos count with
  | .ok bytes => .ok (bytes, c.advance count)
  | .error e => .error e

def scalar (c : Cursor) (f : Scalar.Format) : Except Error (Scalar × Cursor) :=
  match Scalar.readAt f c.data c.pos with
  | .ok s => .ok (s, c.advance f.width)
  | .error e => .error e

def compressed (c : Cursor) : Except Error (Nat × Cursor) :=
  match Compressed.read c.data c.pos with
  | .ok (n, width) => .ok (n, c.advance width)
  | .error .short => .error .outOfBounds
  | .error (.lead b) => .error (.malformed (.compressedLead b.toNat c.pos))

end Cursor
end Cil
