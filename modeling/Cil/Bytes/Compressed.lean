import Cil.Bytes.Window
import Cil.Bytes.Endian

/-! Compressed unsigned integers.

A number below `2 ^ 29` takes one, two or four bytes, most significant first. The
top bits of the first byte tell the form: `0`, `10` or `110`. A first byte with
`111` on top starts no number. The writer takes the shortest form; the reader
takes any. -/
namespace Cil.Bytes.Compressed

/-- One of the three forms: its width in bytes, the mark in its top bits, and the
bound of the numbers it can hold. -/
structure Form where
  width : Nat
  mark : Nat
  bound : Nat
  deriving DecidableEq, Repr

def byteForm : Form := ⟨1, 0, 0x80⟩

def pairForm : Form := ⟨2, 0x8000, 0x4000⟩

def quadForm : Form := ⟨4, 0xC0000000, 0x20000000⟩

/-- The form a first byte announces. -/
def Form.ofLead? (lead : UInt8) : Option Form :=
  if lead.toNat < 0x80 then some byteForm
  else if lead.toNat < 0xC0 then some pairForm
  else if lead.toNat < 0xE0 then some quadForm
  else none

/-- The shortest form that holds a number. -/
def Form.ofValue? (n : Nat) : Option Form :=
  if n < byteForm.bound then some byteForm
  else if n < pairForm.bound then some pairForm
  else if n < quadForm.bound then some quadForm
  else none

/-- The bytes of a number, unless it is too large. -/
def encode? (n : Nat) : Option (List UInt8) :=
  (Form.ofValue? n).map fun form => toBE form.width (form.mark + n)

/-- Why no number can be read. -/
inductive Fault where
  /-- The bytes end before the number does. -/
  | short
  /-- No form starts with this byte. -/
  | lead (byte : UInt8)
  deriving DecidableEq, Repr

/-- The number that starts at `pos`, and its width. -/
def read (data : ByteArray) (pos : Nat) : Except Fault (Nat × Nat) :=
  match byte? data pos with
  | none => .error .short
  | some lead =>
    match Form.ofLead? lead with
    | none => .error (.lead lead)
    | some form =>
      match window? data pos form.width with
      | none => .error .short
      | some bytes => .ok (ofBE (octets bytes) - form.mark, form.width)

end Cil.Bytes.Compressed
