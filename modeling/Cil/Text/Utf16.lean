/-! Text as 16-bit code units.

A character outside the first plane is a pair of surrogates, high then low. Units
decode exactly when every surrogate stands in such a pair. -/
namespace Cil.Text.Utf16

def isHigh (u : UInt16) : Bool := 0xD800 ≤ u.toNat && u.toNat < 0xDC00

def isLow (u : UInt16) : Bool := 0xDC00 ≤ u.toNat && u.toNat < 0xE000

/-- The units of one character. -/
def units (c : Char) : List UInt16 :=
  if c.toNat < 0x10000 then [UInt16.ofNat c.toNat]
  else [UInt16.ofNat (0xD800 + (c.toNat - 0x10000) / 0x400),
    UInt16.ofNat (0xDC00 + (c.toNat - 0x10000) % 0x400)]

def encode (s : String) : List UInt16 := s.toList.flatMap units

/-- The character of a surrogate pair. -/
def pair (high low : UInt16) : Char :=
  Char.ofNat (0x10000 + (high.toNat - 0xD800) * 0x400 + (low.toNat - 0xDC00))

def chars? : List UInt16 → Option (List Char)
  | [] => some []
  | u :: rest =>
    if isHigh u then
      match rest with
      | v :: rest => if isLow v then (chars? rest).map (pair u v :: ·) else none
      | [] => none
    else if isLow u then none
    else (chars? rest).map (Char.ofNat u.toNat :: ·)

/-- The text with these units, if it is well formed. -/
def decode? (us : List UInt16) : Option String := (chars? us).map String.ofList

/-- Units from bytes, low byte first; an odd byte at the end is left out. -/
def ofBytes : List UInt8 → List UInt16
  | low :: high :: rest => UInt16.ofNat (low.toNat + 256 * high.toNat) :: ofBytes rest
  | _ => []

/-- Units to bytes, low byte first. -/
def toBytes (us : List UInt16) : List UInt8 :=
  us.flatMap fun u => [UInt8.ofNat u.toNat, UInt8.ofNat (u.toNat / 256)]

end Cil.Text.Utf16
