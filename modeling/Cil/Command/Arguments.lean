/-! The arguments of the command line.

Flags, options and one file name may come in any order behind the command; the two
flags that every command knows may also stand in front of it. `parse` reads the
arguments from left to right and stops at the first that settles the outcome. -/
namespace Cil.Command

/-- Options of every command. -/
structure Globals where
  json : Bool
  verbose : Bool
  deriving DecidableEq, Repr

/-- Options of the disassembly. -/
structure Options where
  body : Bool
  hex : Bool
  bytes : Bool
  offset : Option String
  length : Option String
  deriving DecidableEq, Repr

/-- What the arguments ask for. -/
inductive Request where
  /-- They are no proper command. -/
  | misuse
  | help
  | version
  | opcodes (globals : Globals)
  | disasm (globals : Globals) (path : String) (options : Options)
  deriving DecidableEq, Repr

/-! ### Words -/

/-- An argument by its shape. -/
inductive Word where
  /-- Behind it everything is a value. -/
  | escape
  | long (name : String) (value : Option String)
  | short (letters : List Char)
  | value (text : String)
  deriving DecidableEq, Repr

def Word.ofArgument (text : String) : Word :=
  match text.toList with
  | ['-', '-'] => escape
  | '-' :: '-' :: rest =>
    let name := String.ofList (rest.takeWhile (· != '='))
    match rest.dropWhile (· != '=') with
    | [] => long name none
    | _ :: assigned => long name (some (String.ofList assigned))
  | '-' :: letter :: rest => short (letter :: rest)
  | _ => value text

/-! ### Flags -/

inductive Flag where
  | json | verbose | version | help | body | hex | bytes
  deriving DecidableEq, Repr

def Flag.name : Flag → String
  | json => "json"
  | verbose => "verbose"
  | version => "version"
  | help => "help"
  | body => "body"
  | hex => "hex"
  | bytes => "bytes"

def Flag.letter? : Flag → Option Char
  | verbose => some 'v'
  | version => some 'V'
  | help => some 'h'
  | _ => none

/-- Adds a flag to those given. No flag may be given twice, and two of them settle the outcome. -/
def give (given : List Flag) : Option Flag → Except Request (List Flag)
  | none => .error .misuse
  | some .help => .error .help
  | some .version => .error .version
  | some flag => if flag ∈ given then .error .misuse else .ok (flag :: given)

/-- Adds the flags of a word to those given. -/
def giveWord (allowed given : List Flag) : Word → Except Request (List Flag)
  | .long name none => give given (allowed.find? fun flag => flag.name == name)
  | .short letters =>
    letters.foldlM
      (fun given letter => give given (allowed.find? fun flag => flag.letter? == some letter)) given
  | _ => .error .misuse

/-- The options of every command, from the flags in front of the command and behind it. -/
def globals (front given : List Flag) : Globals where
  json := .json ∈ front ∨ .json ∈ given
  verbose := .verbose ∈ front ∨ .verbose ∈ given

/-! ### Commands -/

/-- The flags of the catalogue command, behind those already given. -/
def catalogueFlags (given : List Flag) : List String → Except Request (List Flag)
  | [] => .ok given
  | arg :: rest =>
    match Word.ofArgument arg with
    | .escape => if rest.isEmpty then .ok given else .error .misuse
    | word => do catalogueFlags (← giveWord [.json, .verbose, .help] given word) rest

/-- A disassembly command as far as it was read. -/
structure Draft where
  given : List Flag := []
  path : Option String := none
  offset : Option String := none
  length : Option String := none

namespace Draft

/-- Takes the file name; there is one, and it is not empty. -/
def takePath (d : Draft) (text : String) : Except Request Draft :=
  if d.path.isNone && !text.isEmpty then .ok { d with path := some text } else .error .misuse

/-- Options with a value. -/
def optionNames : List String := ["offset", "length"]

/-- Takes the value of an option, unless it has one. -/
def takeOption (d : Draft) (name text : String) : Except Request Draft :=
  if name == "offset" && d.offset.isNone then .ok { d with offset := some text }
  else if name == "length" && d.length.isNone then .ok { d with length := some text }
  else .error .misuse

def takeFlags (d : Draft) (word : Word) : Except Request Draft := do
  return { d with given := ← giveWord [.json, .verbose, .help, .body, .hex, .bytes] d.given word }

/-- Reads the words behind the command. An option's value is the next word, which has to
look like a value, or stands behind an equals sign and may be anything. -/
def read (d : Draft) : List String → Except Request Draft
  | [] => .ok d
  | arg :: rest =>
    match Word.ofArgument arg with
    | .escape => rest.foldlM takePath d
    | .value text => do (← d.takePath text).read rest
    | .long name (some text) => do (← d.takeOption name text).read rest
    | .long name none =>
      if name ∈ optionNames then
        match rest with
        | text :: rest =>
          match Word.ofArgument text with
          | .value text => do (← d.takeOption name text).read rest
          | _ => .error .misuse
        | [] => .error .misuse
      else do (← d.takeFlags (.long name none)).read rest
    | word => do (← d.takeFlags word).read rest

/-- The finished command, which needs a file name. -/
def finish (front : List Flag) (d : Draft) : Except Request Request :=
  match d.path with
  | none => .error .misuse
  | some path =>
    .ok (.disasm (globals front d.given) path
      { body := .body ∈ d.given
        hex := .hex ∈ d.given
        bytes := .bytes ∈ d.given
        offset := d.offset
        length := d.length })

end Draft

/-- The topics of the help command. -/
def helpTopics : List (List String) := [[], ["disasm"], ["opcodes"], ["help"]]

/-- Reads the arguments up to the command and then the command. -/
def front (given : List Flag) : List String → Except Request Request
  | [] => .error .misuse
  | "disasm" :: rest => do (← Draft.read {} rest).finish given
  | "opcodes" :: rest => do return .opcodes (globals given (← catalogueFlags [] rest))
  | "help" :: rest => if rest ∈ helpTopics then .ok .help else .error .misuse
  | arg :: rest => do
    front (← giveWord [.json, .verbose, .version, .help] given (Word.ofArgument arg)) rest

/-- What the arguments ask for. -/
def parse (args : List String) : Request :=
  match front [] args with
  | .ok request | .error request => request

end Cil.Command
