/-! Numbers given as text.

`0x` or `0X` in front means hexadecimal, anything else decimal; a plus may stand in
front of the digits. The number has to stay below `2 ^ 64` at every digit. -/
namespace Cil.Text.Numeral

/-- Why text is no number. -/
inductive Fault where
  | empty
  | badDigit
  | tooLarge
  deriving DecidableEq, Repr

def Fault.message : Fault → String
  | empty => "cannot parse integer from empty string"
  | badDigit => "invalid digit found in string"
  | tooLarge => "number too large to fit in target type"

/-- Numbers stay below this. -/
def bound : Nat := 0x10000000000000000

/-- The value of a digit, if it is one of the base. -/
def digit? (base : Nat) (c : Char) : Option Nat :=
  let n := c.toNat
  let value :=
    if 0x30 ≤ n ∧ n ≤ 0x39 then n - 0x30
    else if 0x61 ≤ n ∧ n ≤ 0x66 then n - 0x61 + 10
    else if 0x41 ≤ n ∧ n ≤ 0x46 then n - 0x41 + 10
    else base
  if value < base then some value else none

/-- Reads digits onto the number `n`. -/
def digits (base n : Nat) : List Char → Except Fault Nat
  | [] => .ok n
  | c :: rest =>
    match digit? base c with
    | none => .error .badDigit
    | some d => if base * n + d < bound then digits base (base * n + d) rest else .error .tooLarge

/-- An optional plus and at least one digit. -/
def signed (base : Nat) : List Char → Except Fault Nat
  | [] => .error .empty
  | ['+'] => .error .badDigit
  | '+' :: rest => digits base 0 rest
  | cs => digits base 0 cs

def parse (text : String) : Except Fault Nat :=
  match text.toList with
  | '0' :: 'x' :: rest => signed 16 rest
  | '0' :: 'X' :: rest => signed 16 rest
  | cs => signed 10 cs

end Cil.Text.Numeral
