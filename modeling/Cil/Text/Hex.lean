import Cil.Bytes.Window
import Cil.Text.Digits
import Cil.Text.Utf8

/-! Bytes as hexadecimal text.

`dump` writes two upper-case digits a byte, with spaces between. `parse` reads
digits of either case in pairs and takes no notice of blanks, wherever they
stand. -/
namespace Cil.Text.Hex

/-- The bytes, two digits each. -/
def dump (bytes : List UInt8) : String :=
  String.intercalate " " (bytes.map fun b => upperHex 2 b.toNat)

/-- Why text is not hexadecimal. -/
inductive Fault where
  | notText (index : Nat) (fault : Utf8.Fault)
  | oddDigits
  /-- The first pair that is no byte. -/
  | badPair (high low : UInt8)
  deriving DecidableEq, Repr

/-- Space, tab, line feed, form feed and carriage return. -/
def isBlank (b : UInt8) : Bool := b = 0x20 || b = 0x09 || b = 0x0A || b = 0x0C || b = 0x0D

/-- The value of a digit. -/
def digit? (b : UInt8) : Option Nat :=
  let n := b.toNat
  if 0x30 ≤ n ∧ n ≤ 0x39 then some (n - 0x30)
  else if 0x61 ≤ n ∧ n ≤ 0x66 then some (n - 0x61 + 10)
  else if 0x41 ≤ n ∧ n ≤ 0x46 then some (n - 0x41 + 10)
  else none

/-- The bytes that digits spell in pairs. -/
def pairs : List UInt8 → Except Fault (List UInt8)
  | high :: low :: rest =>
    match digit? high, digit? low with
    | some h, some l =>
      match pairs rest with
      | .ok bytes => .ok (UInt8.ofNat (16 * h + l) :: bytes)
      | .error fault => .error fault
    | _, _ => .error (.badPair high low)
  | _ => .ok []

/-- The bytes that hexadecimal text spells. -/
def parse (text : List UInt8) : Except Fault (List UInt8) :=
  match Utf8.fault? 0 text with
  | some (index, fault) => .error (.notText index fault)
  | none =>
    let digits := text.filter fun b => !isBlank b
    if digits.length % 2 = 0 then pairs digits else .error .oddDigits

end Cil.Text.Hex
