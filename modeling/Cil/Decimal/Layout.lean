import Cil.Decimal.Shortest
import Cil.Text.Digits

/-! How a decimal is written out.

A `Style` gives the decimal exponents that are written positionally, in a form
with at least one digit after the point; all others take an exponent. -/
namespace Cil.Decimal

open Text

structure Style where
  /-- The least exponent of the first digit that is written positionally. -/
  least : Int
  /-- The greatest one. -/
  greatest : Int
  nan : String
  infinity : String

/-- Floating-point operands: `0.0001` to below `10 ^ 16` stand as they are. -/
def operandStyle : Style where
  least := -4
  greatest := 15
  nan := "NaN"
  infinity := "inf"

/-- A decimal in positional form; `point` is the number of digits before the point,
negative if zeros follow it. -/
def positional (digits : List Char) (point : Int) : String :=
  if point ≤ 0 then
    "0." ++ repeated (-point).toNat '0' ++ String.ofList digits
  else if point.toNat < digits.length then
    String.ofList (digits.take point.toNat) ++ "." ++ String.ofList (digits.drop point.toNat)
  else
    String.ofList digits ++ repeated (point.toNat - digits.length) '0' ++ ".0"

/-- A decimal with its first digit before the point and an exponent. -/
def exponential (digits : List Char) (exponent : Int) : String :=
  let fraction := digits.drop 1
  String.ofList (digits.take 1) ++ (if fraction.isEmpty then "" else "." ++ String.ofList fraction)
    ++ "e" ++ toString exponent

def Scientific.text (style : Style) (x : Scientific) : String :=
  let digits := Nat.toDigits 10 x.coefficient
  let leading := x.exponent + digits.length - 1
  if style.least ≤ leading ∧ leading ≤ style.greatest then positional digits (leading + 1)
  else exponential digits leading

def Value.text (style : Style) : Value → String
  | nan => style.nan
  | infinite negative => sign negative ++ style.infinity
  | zero negative => sign negative ++ "0.0"
  | finite negative size => sign negative ++ (shortest size).text style
where
  /-- A minus, or nothing. -/
  sign (negative : Bool) : String := if negative then "-" else ""

end Cil.Decimal
