import Cil.Bytes.Cursor

/-! Method bodies.

A body is a header and the code behind it. The two low bits of the first byte tell
the header: a tiny one is that byte, with the size of the code in its upper bits; a
fat one has at least twelve bytes, of which it counts the words itself. -/
namespace Cil

open Bytes

structure Body where
  headerSize : Nat
  codeSize : Nat
  maxStack : Nat
  localSignature : Token
  isFat : Bool
  initLocals : Bool
  hasSections : Bool
  deriving DecidableEq, Repr

namespace Body

/-- Bytes of header and code. -/
def size (b : Body) : Nat := b.headerSize + b.codeSize

/-- The code of the body at the start of `data`. -/
def code (b : Body) (data : ByteArray) : Except Error ByteArray := slice data b.headerSize b.codeSize

/-- The body, if `data` holds it all. -/
def within (b : Body) (data : ByteArray) : Except Error Body :=
  if b.size ≤ data.size then .ok b else .error .outOfBounds

/-- Bytes of the fixed fields of a fat header. -/
def fatFields : Nat := 12

def tiny (first : Nat) : Body where
  headerSize := 1
  codeSize := first / 4
  maxStack := 8
  localSignature := ⟨0⟩
  isFat := false
  initLocals := false
  hasSections := false

/-- The body with these fields: flags and header size, stack, code size, signature. -/
def fat (fields : List UInt8) : Body :=
  let flags := ofLE (fields.take 2)
  { headerSize := 4 * (flags / 0x1000)
    codeSize := ofLE ((fields.drop 4).take 4)
    maxStack := ofLE ((fields.drop 2).take 2)
    localSignature := ⟨UInt32.ofNat (ofLE ((fields.drop 8).take 4))⟩
    isFat := true
    initLocals := flags.testBit 4
    hasSections := flags.testBit 3 }

/-- The body at the start of `data`. -/
def parse (data : ByteArray) : Except Error Body :=
  match byte? data 0 with
  | none => .error (.malformed .emptyBody)
  | some first =>
    if first.toNat % 4 = 2 then (tiny first.toNat).within data
    else if first.toNat % 4 = 3 then
      match window? data 0 fatFields with
      | none => .error .outOfBounds
      | some fields =>
        let body := fat (octets fields)
        if body.headerSize < fatFields then .error (.malformed (.headerTooSmall body.headerSize))
        else body.within data
    else .error (.malformed (.unknownHeader first.toNat))

end Body
end Cil
