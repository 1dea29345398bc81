import Cil.Body
import Cil.Command.Arguments
import Cil.Command.Failure
import Cil.Listing
import Cil.Text.Json

/-! Disassembling a file.

The file's bytes, or the bytes its hexadecimal text spells, are cut to a window; a
method body in it is cut to its code; and the code is decoded as far as it goes. -/
namespace Cil.Command

open Bytes Text

/-! ### From the file to the code -/

/-- The bytes of the input. -/
def Options.input (o : Options) (file : ByteArray) : Except Failure ByteArray :=
  if o.hex then
    match Hex.parse (octets file) with
    | .ok bytes => .ok bytes.toByteArray
    | .error fault => .error (.badHex fault)
  else .ok file

/-- A number given as text, or what stands for it. -/
def number (text : Option String) (default : Nat) : Except Failure Nat :=
  match text with
  | none => .ok default
  | some text =>
    match Numeral.parse text with
    | .ok n => .ok n
    | .error fault => .error (.badNumber text fault)

/-- The window of the data from the offset, of the given length or to the end. -/
def select (offset length : Option String) (data : ByteArray) : Except Failure ByteArray := do
  let start ← number offset 0
  if start ≤ data.size then
    let available := data.size - start
    let count ← number length available
    if count ≤ available then return data.extract start (start + count)
    else .error (.lengthPastEnd count available)
  else .error (.offsetPastEnd start data.size)

/-- The header of a method body, if there is to be one, and the code. -/
def Options.cut (o : Options) (window : ByteArray) : Except Failure (Option Body × ByteArray) :=
  if o.body then
    match Body.parse window with
    | .error e => .error (.badHeader e)
    | .ok body =>
      match body.code window with
      | .error e => .error (.truncatedBody e)
      | .ok code => .ok (some body, code)
  else .ok (none, window)

/-- The header and the code that a file holds under these options. -/
def Options.code (o : Options) (file : ByteArray) : Except Failure (Option Body × ByteArray) := do
  let data ← o.input file
  let window ← select o.offset o.length data
  o.cut window

/-! ### From the code to the report -/

/-- An instruction in a report. -/
structure Entry where
  address : Nat
  bytes : Option String
  text : String
  deriving DecidableEq, Repr

/-- The instruction's bytes as a dump. -/
def dumpOf (code : ByteArray) (i : Instr) : String :=
  match i.bytes? code with
  | some bytes => Hex.dump (octets bytes)
  | none => ""

def entryOf (bytes : Bool) (code : ByteArray) (i : Instr) : Entry where
  address := i.address
  bytes := if bytes then some (dumpOf code i) else none
  text := i.text false

/-- What is shown of a file. -/
structure Report where
  header : Option Body
  entries : List Entry
  error : Option Error

namespace Report

/-- Takes an item of a stream to what there is: an instruction behind the others, and an error in
place of any before it. -/
def gather (bytes : Bool) (code : ByteArray) (given : Array Entry × Option Error) :
    Except Error Instr → Array Entry × Option Error
  | .ok i => (given.1.push (entryOf bytes code i), given.2)
  | .error e => (given.1, some e)

/-- The report on code: all that its stream gives, item by item to the end. -/
def ofCode (bytes : Bool) (header : Option Body) (code : ByteArray) : Report :=
  let given := (Decoder.start .bare code).rest.1.foldl (gather bytes code) (#[], none)
  { header
    entries := given.1.toList
    error := given.2 }


def format (b : Body) : String := if b.isFat then "fat" else "tiny"

/-- The header as comment lines. -/
def headerLines (b : Body) : List String :=
  ("// " ++ format b ++ " header, " ++ toString b.headerSize ++ " bytes; code size "
      ++ toString b.codeSize ++ "; .maxstack " ++ toString b.maxStack
      ++ if b.initLocals then "; .locals init" else "")
    :: if b.localSignature.isNull then [] else ["// local signature " ++ b.localSignature.text]

/-- An entry as a line, its bytes in a column of the given width. -/
def entryLine (width : Nat) (e : Entry) : String :=
  match e.bytes with
  | some bytes => label e.address ++ ": " ++ pad .left width bytes ++ "  " ++ e.text
  | none => label e.address ++ ": " ++ e.text

/-- The width of the column of bytes. -/
def bytesWidth (entries : List Entry) : Nat :=
  entries.foldl (fun widest e => max widest ((e.bytes.map String.length).getD 0)) 0

/-- The lines of the report. -/
def lines (r : Report) : List String :=
  let header := match r.header with
    | some b => headerLines b
    | none => []
  header ++ r.entries.map (entryLine (bytesWidth r.entries))

def headerJson (b : Body) : Json :=
  .record [("format", .string (format b)), ("header_size", .number b.headerSize),
    ("code_size", .number b.codeSize), ("max_stack", .number b.maxStack),
    ("init_locals", .bool b.initLocals), ("local_var_sig", .string b.localSignature.text)]

def entryJson (e : Entry) : Json :=
  let bytes := match e.bytes with
    | some bytes => [("bytes", Json.string bytes)]
    | none => []
  .record ([("address", .string (label e.address))] ++ bytes ++ [("text", .string e.text)])

def json (r : Report) : Json :=
  let header := match r.header with
    | some b => [("header", headerJson b)]
    | none => []
  let error := match r.error with
    | some e => [("error", Json.string e.message)]
    | none => []
  .record (header ++ [("instructions", .list (r.entries.map entryJson))] ++ error)

end Report
end Cil.Command
