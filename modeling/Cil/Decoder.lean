import Cil.Instr.Decode

/-! A stream of instructions.

A decoder gives the instructions of its code in order and then nothing. The first
error is given once and ends the stream; `reset` starts it again. -/
namespace Cil

structure Decoder where
  cursor : Cursor
  resolver : Resolver
  failed : Bool

namespace Decoder

/-- The decoder in front of the first instruction. -/
def start (resolver : Resolver) (code : ByteArray) : Decoder := ⟨.start code, resolver, false⟩

def pos (d : Decoder) : Nat := d.cursor.pos

def isFinished (d : Decoder) : Bool := d.failed || !d.cursor.hasMore

def reset (d : Decoder) : Decoder := { d with cursor := d.cursor.reset, failed := false }

/-- The next item, if there is one, and the decoder behind it. -/
def next (d : Decoder) : Option (Except Error Instr) × Decoder :=
  if d.failed then (none, d)
  else
    match Instr.decodeNext d.resolver d.cursor with
    | .ok (some (i, cursor)) => (some (.ok i), { d with cursor })
    | .ok none => (none, d)
    | .error e => (some (.error e), { d with failed := true })

/-- Steps a stream can still take: the bytes left, and one for the error. -/
def fuel (d : Decoder) : Nat := if d.failed then 0 else d.cursor.remaining + 1

theorem fuel_next {d d' : Decoder} {item : Except Error Instr} (h : d.next = (some item, d')) :
    d'.fuel < d.fuel := by
  unfold next at h
  split at h
  · cases h
  · next live =>
    split at h
    · next i cursor decoded =>
      cases h
      obtain ⟨more, same, forward⟩ := Instr.decodeNext_forward decoded
      simp only [Cursor.hasMore, decide_eq_true_eq] at more
      simp only [fuel, live, Cursor.remaining, same]
      simp
      omega
    · cases h
    · cases h
      simp [fuel, live]

/-- All items to the end of the stream, behind those in `seen`. -/
def collect (d : Decoder) (seen : Array (Except Error Instr)) : Array (Except Error Instr) × Decoder :=
  match _h : d.next with
  | (some item, d') => d'.collect (seen.push item)
  | (none, d') => (seen, d')
termination_by d.fuel
decreasing_by exact fuel_next _h

/-- The rest of the stream and the decoder at its end. -/
def rest (d : Decoder) : Array (Except Error Instr) × Decoder := d.collect #[]

end Decoder

/-- A finished run: the instructions, in order, the error that ended it, and where it stands. -/
structure Run where
  instrs : Array Instr
  failure : Option Error
  decoder : Decoder

/-- Splits the items of a stream into its instructions and its error. -/
def Run.ofItems (items : Array (Except Error Instr)) (decoder : Decoder) : Run where
  instrs := items.filterMap fun
    | .ok i => some i
    | .error _ => none
  failure := items.findSome? fun
    | .ok _ => none
    | .error e => some e
  decoder

/-- Decodes code from its start to its end. -/
def decodeAll (r : Resolver) (code : ByteArray) : Run :=
  let (items, decoder) := (Decoder.start r code).rest
  Run.ofItems items decoder

end Cil
