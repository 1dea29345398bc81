import Cil.Bytes.Cursor
import Cil.Instr.Basic

/-! Decoding one instruction.

The opcode is read, then looked up; its operand has to fit into what is left, and
only then is it read. The order of these checks decides which error an
instruction with several faults gives. Every error carries the address of the
instruction, and the cursor stays in front of it. Tokens are looked up among whatever
symbols there are; those of a resolver are the ones of its store. -/
namespace Cil

open Bytes

/-- The target of a branch from the end of its instruction. -/
def branchTarget (next : Nat) (displacement : Int) : Except Error Nat :=
  let target : Int := next + displacement
  if 0 ≤ target ∧ target ≤ maxAddress then .ok target.toNat
  else .error (.malformed (.branchOutOfRange target))

/-- The operand with these bytes, in an instruction that ends at `next`. -/
def Operand.ofBytesIn (symbols : Option Symbols) (kind : OperandKind) (next : Nat) (bytes : List UInt8) :
    Except Error Operand :=
  match kind.form with
  | .none => .ok .none
  | .branch f => do return .target (← branchTarget next (Scalar.ofBytes f bytes).bits.toInt)
  | .literal f => .ok (.immediate (.ofBytes f bytes))
  | .token => Resolver.operandIn symbols kind ⟨UInt32.ofNat (ofLE bytes)⟩

/-- The operand with these bytes, its token looked up in the store of a resolver. -/
def Operand.ofBytes (r : Resolver) (kind : OperandKind) (next : Nat) (bytes : List UInt8) :
    Except Error Operand :=
  ofBytesIn r.symbols kind next bytes

namespace Instr

/-- The code of the opcode at `pos`. -/
def codeAt (data : ByteArray) (pos : Nat) : Except Error Nat :=
  match byte? data pos with
  | none => .error .truncated
  | some first =>
    if first.toNat = escapeByte then
      match byte? data (pos + 1) with
      | none => .error .truncated
      | some second => .ok (256 * escapeByte + second.toNat)
    else .ok first.toNat

/-- The instruction at `pos`. -/
def decodeAtIn (symbols : Option Symbols) (data : ByteArray) (pos : Nat) : Except Error Instr := do
  let opcode ← Opcode.lookup (← codeAt data pos)
  match window? data (pos + opcode.codeWidth) opcode.kind.width with
  | none => .error .truncated
  | some bytes =>
    let operand ← Operand.ofBytesIn symbols opcode.kind (pos + opcode.size) (octets bytes)
    return { address := pos, size := opcode.size, opcode, operand }

/-- The instruction at the cursor and the cursor behind it; nothing at the end. -/
def decodeNextIn (symbols : Option Symbols) (c : Cursor) : Except Error (Option (Instr × Cursor)) :=
  if c.hasMore then
    if c.pos ≤ maxAddress then
      match decodeAtIn symbols c.data c.pos with
      | .ok i => .ok (some (i, c.advance i.size))
      | .error e => .error (e.located c.pos)
    else .error (.malformed (.addressTooLarge c.pos))
  else .ok none

/-- The instruction at the cursor, its token looked up in the store of a resolver. -/
def decodeNext (r : Resolver) (c : Cursor) : Except Error (Option (Instr × Cursor)) :=
  decodeNextIn r.symbols c

theorem size_of_decodeAtIn {symbols : Option Symbols} {data : ByteArray} {pos : Nat} {i : Instr}
    (h : decodeAtIn symbols data pos = .ok i) : i.size = i.opcode.size := by
  unfold decodeAtIn at h
  simp only [bind, Except.bind, pure, Except.pure] at h
  repeat' split at h
  all_goals first
    | cases h
      rfl
    | cases h

/-- An instruction that is given stands at the cursor, which moves behind it. -/
theorem decodeNextIn_some {symbols : Option Symbols} {c c' : Cursor} {i : Instr}
    (h : decodeNextIn symbols c = .ok (some (i, c'))) :
    c.hasMore = true ∧ decodeAtIn symbols c.data c.pos = .ok i ∧ c' = c.advance i.size := by
  unfold decodeNextIn at h
  split at h
  · next more =>
    split at h
    · split at h
      · next decoded =>
        cases h
        exact ⟨more, decoded, rfl⟩
      · cases h
    · cases h
  · cases h

/-- Decoding an instruction moves forward, and stays in the same code. -/
theorem decodeNext_forward {r : Resolver} {c c' : Cursor} {i : Instr}
    (h : decodeNext r c = .ok (some (i, c'))) : c.hasMore = true ∧ c'.data = c.data ∧ c.pos < c'.pos := by
  obtain ⟨more, decoded, rfl⟩ := decodeNextIn_some h
  have hsize := size_of_decodeAtIn decoded
  have hpos := i.opcode.size_pos
  refine ⟨more, rfl, ?_⟩
  simp only [Cursor.advance]
  omega

end Instr
end Cil
