import Cil.Text.Digits

/-! Text in quotes, with what cannot be seen spelled out.

Control characters, blanks other than the space, combining marks and numbers that
name no character are written by their number. -/
namespace Cil.Text

/-- The ranges of unseen characters from U+0080 up to U+07FF, which is as far as two
bytes of UTF-8 reach. -/
def unseenRanges : List (Nat × Nat) :=
  [
    (0x0080, 0x00A0), (0x00AD, 0x00AD), (0x0300, 0x036F), (0x0378, 0x0379), (0x0380, 0x0383),
    (0x038B, 0x038B), (0x038D, 0x038D), (0x03A2, 0x03A2), (0x0483, 0x0489), (0x0530, 0x0530),
    (0x0557, 0x0558), (0x058B, 0x058C), (0x0590, 0x05BD), (0x05BF, 0x05BF), (0x05C1, 0x05C2),
    (0x05C4, 0x05C5), (0x05C7, 0x05CF), (0x05EB, 0x05EE), (0x05F5, 0x0605), (0x0610, 0x061A),
    (0x061C, 0x061C), (0x064B, 0x065F), (0x0670, 0x0670), (0x06D6, 0x06DD), (0x06DF, 0x06E4),
    (0x06E7, 0x06E8), (0x06EA, 0x06ED), (0x070E, 0x070F), (0x0711, 0x0711), (0x0730, 0x074C),
    (0x07A6, 0x07B0), (0x07B2, 0x07BF), (0x07EB, 0x07F3), (0x07FB, 0x07FD)]

/-- Whether a character is written by its number. -/
def isUnseen (c : Char) : Bool :=
  let n := c.toNat
  n < 0x20 || n = 0x7F || unseenRanges.any fun (low, high) => low ≤ n && n ≤ high

def escaped (c : Char) : String :=
  if c = '"' then "\\\""
  else if c = '\\' then "\\\\"
  else if c = '\n' then "\\n"
  else if c = '\r' then "\\r"
  else if c = '\t' then "\\t"
  else if c.toNat = 0 then "\\0"
  else if isUnseen c then "\\u\x7b" ++ lowerHex 1 c.toNat ++ "\x7d"
  else c.toString

/-- The text in double quotes. -/
def quoted (cs : List Char) : String := "\"" ++ String.join (cs.map escaped) ++ "\""

end Cil.Text
