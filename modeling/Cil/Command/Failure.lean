import Cil.Error
import Cil.Text.Columns
import Cil.Text.Hex
import Cil.Text.Numeral
import Cil.Text.Quoted

/-! Why a command failed, and how it says so.

A failure is reported with the causes below it: one cause stands on a line of its
own, several are numbered. -/
namespace Cil

open Text

/-- The messages of an error, from the outermost layer inwards. An error of the system is
worded once by the program and once by the system. -/
def Error.chain : Error → List String
  | decode address source => (decode address source).message :: source.chain
  | file code reason => [(file code reason).message, (file code reason).message]
  | e => [e.message]

namespace Command

inductive Failure where
  | unreadable (path : String) (cause : Error)
  | badHex (fault : Hex.Fault)
  | badNumber (text : String) (fault : Numeral.Fault)
  | offsetPastEnd (offset size : Nat)
  | lengthPastEnd (length available : Nat)
  | badHeader (cause : Error)
  | truncatedBody (cause : Error)
  /-- The code stopped making sense. -/
  | undecodable (error : Error)
  deriving DecidableEq, Repr

namespace Failure

def message : Failure → String
  | unreadable path _ => "failed to open: " ++ path
  | badHex (.notText ..) => "hex input is not valid text"
  | badHex .oddDigits => "hex input has an odd number of digits"
  | badHex (.badPair high low) => "invalid hex byte: " ++ quoted (Utf8.lossy [high, low])
  | badNumber text _ => "invalid number: " ++ text
  | offsetPastEnd offset size =>
    "offset 0x" ++ lowerHex 1 offset ++ " is past the end of the input (0x" ++ lowerHex 1 size
      ++ " bytes)"
  | lengthPastEnd length available =>
    "length 0x" ++ lowerHex 1 length ++ " exceeds the 0x" ++ lowerHex 1 available
      ++ " bytes after the offset"
  | badHeader _ => "invalid method body header"
  | truncatedBody _ => "method body is truncated"
  | undecodable error => error.message

def causes : Failure → List String
  | unreadable _ cause | badHeader cause | truncatedBody cause => cause.chain
  | badHex (.notText index fault) => [fault.message index]
  | badNumber _ fault => [fault.message]
  | _ => []

/-- The lines of the causes. -/
def causeLines (causes : List String) : List String :=
  match causes with
  | [cause] => ["    " ++ cause]
  | causes => causes.mapIdx fun n cause => pad .right 5 (toString n) ++ ": " ++ cause

def report (f : Failure) : String :=
  let causes := f.causes
  "Error: " ++ f.message ++ "\n"
    ++ if causes.isEmpty then ""
      else "\nCaused by:\n" ++ String.join ((causeLines causes).map fun line => line ++ "\n")

end Failure
end Command
end Cil
