import Cil.Command.Disasm
import Cil.Command.Opcodes

/-! A run of the program, from its arguments to what it prints.

The only thing a run needs from outside is the file it names; everything else is a
function of the arguments. Notes on the way go to the error output, unless the
report is JSON. -/
namespace Cil.Command

open Text

/-- What a run leaves behind. -/
structure Outcome where
  exit : Nat
  stdout : String
  stderr : String
  deriving DecidableEq, Repr

/-- Lines, each with its end. -/
def unlines (lines : List String) : String := String.join (lines.map fun line => line ++ "\n")

/-- A note of a level, which is padded to five letters. -/
def note (level text : String) : String := "[" ++ pad .left 5 level ++ "] " ++ text

/-- The notes that a run keeps. -/
def notes (g : Globals) (verbose always : List String) : String :=
  if g.json then "" else unlines ((if g.verbose then verbose else []) ++ always)

/-- The report in the form asked for. -/
def shown (g : Globals) (lines : List String) (json : Json) : String :=
  if g.json then json.render 0 ++ "\n" else unlines lines

def opcodesOutcome (g : Globals) : Outcome := ⟨0, shown g catalogueLines catalogueJson, ""⟩

/-- Disassembles a file that was opened, or says why it was not. -/
def disasmOutcome (g : Globals) (path : String) (o : Options) (file : Except Error ByteArray) : Outcome :=
  match file with
  | .error e => ⟨1, "", (Failure.unreadable path e).report⟩
  | .ok file =>
    let opened := note "DEBUG" ("mapped " ++ path ++ " (" ++ toString file.size ++ " bytes)")
    match o.code file with
    | .error failure => ⟨1, "", notes g [opened] [] ++ failure.report⟩
    | .ok (header, code) =>
      let report := Report.ofCode o.bytes header code
      let decoding :=
        note "DEBUG" ("decoding " ++ toString code.size ++ " bytes from " ++ path)
      let stdout := shown g report.lines report.json
      match report.error with
      | none => ⟨0, stdout, notes g [opened, decoding] []⟩
      | some e =>
        ⟨1, stdout, notes g [opened, decoding] [note "WARN" e.message] ++ (Failure.undecodable e).report⟩

def versionText : String := "ilscope 0.1.0\n"

def helpText : String :=
  unlines
    ["Command line disassembler for CIL method bodies",
      "",
      "Usage: ilscope [OPTIONS] <COMMAND>",
      "",
      "Commands:",
      "  disasm   Disassemble a raw CIL instruction stream or a method body",
      "  opcodes  List the opcode catalog",
      "  help     Print this message or the help of the given subcommand(s)",
      "",
      "Options:",
      "      --json     Emit output as JSON instead of human-readable text",
      "  -v, --verbose  Enable verbose (debug-level) logging output",
      "  -h, --help     Print help",
      "  -V, --version  Print version"]

/-- The file a request needs. -/
def Request.path? : Request → Option String
  | disasm _ path _ => some path
  | _ => none

/-- Carries out a request. `file` is what became of the file that it names. -/
def Request.outcome (file : Except Error ByteArray) : Request → Outcome
  | misuse => ⟨2, "", helpText⟩
  | help => ⟨0, helpText, ""⟩
  | version => ⟨0, versionText, ""⟩
  | opcodes g => opcodesOutcome g
  | disasm g path o => disasmOutcome g path o file

/-- A run with these arguments, where `files` tells what becomes of a file that is opened. -/
def run (files : String → Except Error ByteArray) (args : List String) : Outcome :=
  let request := parse args
  request.outcome ((request.path?.map files).getD (.error .fileNotFound))

end Cil.Command
