/-! Numbers as digits.

Hexadecimal text is padded with zeros to a least width and never cut, so a
number keeps all its digits. -/
namespace Cil.Text

/-- Digits of `n` in lower case, at least `width` of them. -/
def hexDigits (width n : Nat) : List Char :=
  let digits := Nat.toDigits 16 n
  List.replicate (width - digits.length) '0' ++ digits

/-- `n` in lower-case hexadecimal, at least `width` digits. -/
def lowerHex (width n : Nat) : String := String.ofList (hexDigits width n)

/-- `n` in upper-case hexadecimal, at least `width` digits. -/
def upperHex (width n : Nat) : String := String.ofList ((hexDigits width n).map Char.toUpper)

/-- `count` copies of `c`. -/
def repeated (count : Nat) (c : Char) : String := String.ofList (List.replicate count c)

end Cil.Text
