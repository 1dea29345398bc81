import Cil.Decoder

/-! Listings: code as lines of text. -/
namespace Cil

structure Line where
  address : Nat
  text : String
  deriving DecidableEq, Repr

/-- The line with its label. -/
def Line.toText (l : Line) : String := label l.address ++ ": " ++ l.text

/-- The line of an instruction. -/
def Instr.line (named : Bool) (i : Instr) : Line := ⟨i.address, i.text named⟩

/-- The lines of code, or the first error. Names are shown if there is a store. -/
def disassemble (r : Resolver) (code : ByteArray) : Except Error (List Line) :=
  let run := decodeAll r code
  match run.failure with
  | some e => .error e
  | none => .ok (run.instrs.toList.map (Instr.line r.store.isSome))

/-- A method as a module knows it: without code it has no body. -/
structure Method where
  name : String
  code : Option ByteArray
  resolver : Resolver

/-- The lines of a method, which needs a body and then metadata. -/
def Method.listing (m : Method) : Except Error (List Line) :=
  match m.code, m.resolver.store with
  | none, _ => .error .noBody
  | some _, none => .error .noMetadata
  | some code, some _ => disassemble m.resolver code

/-- The lines of many methods, in order; none is started once the work is cancelled. -/
def listings (cancelled : Bool) (methods : List Method) : List (Except Error (List Line)) :=
  methods.map fun m => if cancelled then .error .cancelled else m.listing

end Cil
