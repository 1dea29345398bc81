import Cil.Instr.Decode

/-! A cursor under a series of requests.

One cursor answers reads of numbers, bytes and instructions and moves as it is
told; a request that fails leaves it where it was. -/
namespace Cil

namespace Cursor

/-- What a cursor can be asked for. -/
inductive Request where
  | scalar (format : Scalar.Format)
  | bytes (count : Nat)
  | compressed
  | seek (pos : Nat)
  | reset
  /-- The next instruction, with its token looked up among these symbols. -/
  | instr (symbols : Option Symbols)
  | data

inductive Reply where
  | scalar (value : Scalar)
  | bytes (value : ByteArray)
  | number (value : Nat)
  | moved
  /-- The next instruction, or nothing at the end. -/
  | instr (value : Option Instr)
  | data (value : ByteArray)

/-- The reply to a request, with the cursor behind what was read. -/
def request (c : Cursor) : Request → Except Error (Reply × Cursor)
  | .scalar f => do
    let (value, c) ← c.scalar f
    return (.scalar value, c)
  | .bytes count => do
    let (value, c) ← c.take count
    return (.bytes value, c)
  | .compressed => do
    let (value, c) ← c.compressed
    return (.number value, c)
  | .seek pos => do return (.moved, ← c.seek pos)
  | .reset => .ok (.moved, c.reset)
  | .instr symbols => do
    match ← Instr.decodeNextIn symbols c with
    | some (i, c) => return (.instr (some i), c)
    | none => return (.instr none, c)
  | .data => .ok (.data c.data, c)

/-- The answer to a request and the cursor afterwards. -/
def answer (c : Cursor) (q : Request) : Except Error Reply × Cursor :=
  match c.request q with
  | .ok (reply, c) => (.ok reply, c)
  | .error e => (.error e, c)

/-- The answers to a series of requests, each with the cursor after it. -/
def answers (c : Cursor) : List Request → List (Except Error Reply × Cursor)
  | [] => []
  | q :: rest =>
    let given := c.answer q
    given :: given.2.answers rest

end Cursor
end Cil
