import Cil.Text.Digits

/-! Reports as JSON, one value a line and two spaces a level. -/
namespace Cil.Text

inductive Json where
  | string (s : String)
  | number (n : Nat)
  | bool (b : Bool)
  | list (items : List Json)
  | record (fields : List (String × Json))

namespace Json

def escaped (c : Char) : String :=
  if c = '"' then "\\\""
  else if c = '\\' then "\\\\"
  else if c = '\n' then "\\n"
  else if c = '\r' then "\\r"
  else if c = '\t' then "\\t"
  else if c.toNat = 0x08 then "\\b"
  else if c.toNat = 0x0C then "\\f"
  else if c.toNat < 0x20 then "\\u" ++ lowerHex 4 c.toNat
  else c.toString

def quote (s : String) : String := "\"" ++ String.join (s.toList.map escaped) ++ "\""

/-- Lines between brackets, a level deeper; nothing stands between them if there are none. -/
def block (level : Nat) (opening closing : String) (lines : List String) : String :=
  if lines.isEmpty then opening ++ closing
  else
    let margin := "\n" ++ repeated (2 * level) ' '
    opening ++ margin ++ "  " ++ String.intercalate ("," ++ margin ++ "  ") lines ++ margin ++ closing

mutual

/-- The value, at a level of indentation. -/
def render (level : Nat) : Json → String
  | string s => quote s
  | number n => toString n
  | bool b => if b then "true" else "false"
  | list items => block level "[" "]" (renderItems (level + 1) items)
  | record fields => block level "\x7b" "\x7d" (renderFields (level + 1) fields)

def renderItems (level : Nat) : List Json → List String
  | [] => []
  | item :: rest => render level item :: renderItems level rest

def renderFields (level : Nat) : List (String × Json) → List String
  | [] => []
  | (key, value) :: rest =>
    (quote key ++ ": " ++ render level value) :: renderFields level rest

end

end Json
end Cil.Text
