/-! Binary floating-point numbers, read off their bits.

A format has a sign bit, an exponent field and a fraction field. A finite number
that is not zero is `mantissa * 2 ^ exponent`. -/
namespace Cil.Decimal

/-- Widths of the two fields below the sign bit. -/
structure Format where
  fraction : Nat
  exponent : Nat
  deriving DecidableEq, Repr

/-- How many values the fraction field has. -/
def Format.fractions (f : Format) : Nat := Nat.pow 2 f.fraction

/-- How many values the exponent field has. -/
def Format.exponents (f : Format) : Nat := Nat.pow 2 f.exponent

def single : Format := ⟨23, 8⟩

def double : Format := ⟨52, 11⟩

/-- A positive number `mantissa * 2 ^ exponent`. `narrow` says that the next number
below stands half as far as the next one above, as it does at a power of two. -/
structure Magnitude where
  mantissa : Nat
  exponent : Int
  narrow : Bool
  deriving DecidableEq, Repr

inductive Value where
  | nan
  | infinite (negative : Bool)
  | zero (negative : Bool)
  | finite (negative : Bool) (size : Magnitude)
  deriving DecidableEq, Repr

/-- The number with these bits. -/
def Value.ofBits (f : Format) (bits : Nat) : Value :=
  let fraction := bits % f.fractions
  let field := bits / f.fractions % f.exponents
  let negative := bits / f.fractions / f.exponents % 2 == 1
  let least : Int := 2 - (f.exponents / 2 : Nat) - f.fraction
  if field = f.exponents - 1 then
    if fraction = 0 then infinite negative else nan
  else if field = 0 then
    if fraction = 0 then zero negative else finite negative ⟨fraction, least, false⟩
  else
    finite negative ⟨f.fractions + fraction, least + (field - 1), fraction == 0 && field != 1⟩

end Cil.Decimal
