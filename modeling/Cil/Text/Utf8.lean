/-! Where bytes stop being UTF-8.

A character is a first byte and up to three more; the first byte fixes how many,
and the range of the second. `front` looks at one character, and both the place of
the first fault and the text with the faults replaced follow from it. -/
namespace Cil.Text.Utf8

/-- Why no character stands at the front. -/
inductive Fault where
  /-- The first `width` bytes begin no character. -/
  | invalid (width : Nat)
  /-- The bytes end inside a character. -/
  | incomplete
  deriving DecidableEq, Repr

def Fault.message (index : Nat) : Fault → String
  | invalid width =>
    "invalid utf-8 sequence of " ++ toString width ++ " bytes from index " ++ toString index
  | incomplete => "incomplete utf-8 byte sequence from index " ++ toString index

/-- What a first byte asks for: more bytes, the second of them in a range. -/
structure Lead where
  more : Nat
  low : Nat
  high : Nat
  deriving DecidableEq, Repr

def Lead.ofByte? (b : Nat) : Option Lead :=
  if b < 0x80 then some ⟨0, 0x80, 0xBF⟩
  else if b < 0xC2 then none
  else if b < 0xE0 then some ⟨1, 0x80, 0xBF⟩
  else if b = 0xE0 then some ⟨2, 0xA0, 0xBF⟩
  else if b = 0xED then some ⟨2, 0x80, 0x9F⟩
  else if b < 0xF0 then some ⟨2, 0x80, 0xBF⟩
  else if b = 0xF0 then some ⟨3, 0x90, 0xBF⟩
  else if b < 0xF4 then some ⟨3, 0x80, 0xBF⟩
  else if b = 0xF4 then some ⟨3, 0x80, 0x8F⟩
  else none

/-- Reads `more` further bytes onto the number `n`; `width` bytes were read before. -/
def further : (more low high n width : Nat) → List UInt8 → Except Fault Nat
  | 0, _, _, n, _, _ => .ok n
  | _ + 1, _, _, _, _, [] => .error .incomplete
  | more + 1, low, high, n, width, b :: rest =>
    if low ≤ b.toNat ∧ b.toNat ≤ high then
      further more 0x80 0xBF (64 * n + b.toNat % 64) (width + 1) rest
    else .error (.invalid width)

/-- The bits a first byte gives to its character. -/
def leadBits (more b : Nat) : Nat :=
  match more with
  | 0 => b
  | 1 => b % 32
  | 2 => b % 16
  | _ => b % 8

/-- The character at the front, with the number of bytes behind its first. -/
def front (b : UInt8) (rest : List UInt8) : Except Fault (Char × Nat) :=
  match Lead.ofByte? b.toNat with
  | none => .error (.invalid 1)
  | some lead =>
    match further lead.more lead.low lead.high (leadBits lead.more b.toNat) 1 rest with
    | .ok n => .ok (Char.ofNat n, lead.more)
    | .error fault => .error fault

/-- The first fault and its index, counted from `index`. -/
def fault? (index : Nat) : List UInt8 → Option (Nat × Fault)
  | [] => none
  | b :: rest =>
    match front b rest with
    | .ok (_, more) => fault? (index + 1 + more) (rest.drop more)
    | .error fault => some (index, fault)
termination_by bytes => bytes.length
decreasing_by simp only [List.length_cons, List.length_drop]; omega

/-- The text of the bytes, with U+FFFD for every fault. -/
def lossy : List UInt8 → List Char
  | [] => []
  | b :: rest =>
    match front b rest with
    | .ok (c, more) => c :: lossy (rest.drop more)
    | .error (.invalid width) => '\uFFFD' :: lossy (rest.drop (width - 1))
    | .error .incomplete => ['\uFFFD']
termination_by bytes => bytes.length
decreasing_by all_goals simp only [List.length_cons, List.length_drop]; omega

end Cil.Text.Utf8
