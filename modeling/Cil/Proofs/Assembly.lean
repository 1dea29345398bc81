import Cil.Proofs.Trace

/-! Decoding and assembling are inverse.

What is decoded as an instruction is the instruction's own encoding, with metadata
and without (`encode_isPrefix`). In the other direction an instruction that is
`Written`, which is every shape that decoding without metadata can give, is decoded
from its encoding whatever stands before it and behind it (`ofBytes_encode`). Both
go from single instructions to whole streams, which `assembly_inverse` states
together. -/
namespace Cil

open Bytes

/-- An instruction as it can be written without metadata: an opcode of the catalogue other
than `ldtoken`, an operand that has the shape of its kind, and the size of both. -/
structure Instr.Written (i : Instr) : Prop where
  listed : i.opcode ∈ Opcode.catalogue
  notLdtoken : i.opcode.mnemonic ≠ "ldtoken"
  size : i.size = i.opcode.size
  fits : i.operand.Fits i.opcode.kind (i.address + i.size)

/-- Instructions that follow one another without a gap, the first at `start`. -/
def Instr.Consecutive : Nat → List Instr → Prop
  | _, [] => True
  | start, i :: rest => i.address = start ∧ Consecutive i.next rest

/-! ### One instruction -/

namespace Instr

theorem next_eq {i : Instr} (h : i.address + i.size ≤ maxAddress) : i.next = i.address + i.size :=
  Nat.min_eq_left h

/-- The bytes that an instruction is decoded from start with its encoding, which has its size. -/
theorem encode_isPrefix {r : Resolver} {address : Nat} {bytes : List UInt8} {i : Instr}
    (h : ofBytes r address bytes = .ok i) : i.encode <+: bytes ∧ i.encode.length = i.size := by
  obtain ⟨operandBytes, hfetch, hoperand, haddress, hsize⟩ := ofBytes_eq_ok.1 h
  obtain ⟨_, hlen, hpre⟩ := fetch_eq_ok.1 hfetch
  have hbytes : i.operand.toBytes i.opcode.kind (i.address + i.size) = operandBytes := by
    rw [haddress, hsize]
    exact Operand.toBytes_ofBytes hlen hoperand
  rw [encode, hbytes]
  refine ⟨hpre, ?_⟩
  rw [List.length_append, Opcode.length_toBytes, hlen, hsize, Opcode.size]

theorem length_encode {i : Instr} (h : i.Written) : i.encode.length = i.size := by
  rw [encode, List.length_append, Opcode.length_toBytes, Operand.length_toBytes h.fits, h.size,
    Opcode.size]

/-- A written instruction is decoded from its encoding, and what follows does not matter. -/
theorem ofBytes_encode {i : Instr} (h : i.Written) (rest : List UInt8) :
    ofBytes .bare i.address (i.encode ++ rest) = .ok i := by
  have hkind : i.opcode.kind ≠ .genericToken := fun hgeneric =>
    h.notLdtoken (Opcode.ldtoken_of_genericToken h.listed hgeneric).1
  refine ofBytes_eq_ok.2 ⟨i.operand.toBytes i.opcode.kind (i.address + i.size), ?_, ?_, rfl, h.size⟩
  · exact fetch_eq_ok.2 ⟨h.listed, Operand.length_toBytes h.fits, List.prefix_append ..⟩
  · rw [← h.size]
    exact Operand.ofBytes_toBytes h.fits hkind

section
variable {r : Resolver} {code : ByteArray} {pos : Nat} {i : Instr}

/-- A decoded instruction lies inside its code. -/
theorem end_le_size (h : ofBytes r pos (ahead code pos) = .ok i) (hpos : pos ≤ code.size) :
    pos + i.size ≤ code.size := by
  obtain ⟨hpre, hlen⟩ := encode_isPrefix h
  have hle := hpre.length_le
  rw [hlen, length_ahead] at hle
  omega

theorem next_of_ofBytes (hsize : code.size ≤ maxAddress) (hpos : pos ≤ code.size)
    (h : ofBytes r pos (ahead code pos) = .ok i) : i.next = pos + i.size := by
  have haddress := address_of_ofBytes h
  have hend := end_le_size h hpos
  rw [next_eq (by omega), haddress]

theorem bytes?_eq (hsize : code.size ≤ maxAddress) (hpos : pos ≤ code.size)
    (h : ofBytes r pos (ahead code pos) = .ok i) : (i.bytes? code).map octets = some i.encode := by
  have hend := end_le_size h hpos
  obtain ⟨hpre, hlen⟩ := encode_isPrefix h
  have haddress := address_of_ofBytes h
  have hwidth : i.next - i.address = i.size := by
    rw [next_of_ofBytes hsize hpos h, haddress, Nat.add_sub_cancel_left]
  obtain ⟨w, hw⟩ : ∃ w, window? code pos i.size = some w := ⟨_, window?_eq_some.2 ⟨hend, rfl⟩⟩
  rw [bytes?, hwidth, haddress, hw, Option.map_some, octets_of_window? hw, ← hlen]
  exact congrArg some (List.prefix_iff_eq_take.1 hpre).symm

end

end Instr

/-! ### Streams -/

namespace Trace

variable {r : Resolver} {code : ByteArray} {pos stop : Nat} {is : List Instr} {failure : Option Error}

theorem bounds (h : Trace r code pos is failure stop) (hpos : pos ≤ code.size) :
    pos ≤ stop ∧ stop ≤ code.size := by
  induction h with
  | ended => exact ⟨Nat.le_refl _, hpos⟩
  | failed => exact ⟨Nat.le_refl _, hpos⟩
  | step hsome _ ih =>
    obtain ⟨⟨_, _, hdecoded⟩, _⟩ := Instr.decodeNext_eq_some.1 hsome
    obtain ⟨hle, hstop⟩ := ih (Instr.end_le_size hdecoded hpos)
    exact ⟨by omega, hstop⟩

/-- The code up to where a trace stops is the code before it and the encodings of its
instructions. -/
theorem take_stop (h : Trace r code pos is failure stop) :
    (octets code).take stop = (octets code).take pos ++ is.flatMap Instr.encode := by
  induction h with
  | ended => simp
  | failed => simp
  | @step pos i rest failure stop hsome _ ih =>
    obtain ⟨⟨_, _, hdecoded⟩, _⟩ := Instr.decodeNext_eq_some.1 hsome
    obtain ⟨hpre, hlen⟩ := Instr.encode_isPrefix hdecoded
    have hfront : ((octets code).drop pos).take i.size = i.encode := by
      rw [← hlen]
      exact (List.prefix_iff_eq_take.1 hpre).symm
    rw [ih, List.take_add, hfront, List.flatMap_cons, List.append_assoc]

end Trace

/-- Written instructions that lie one behind another are decoded one after another. -/
theorem trace_encode {code : ByteArray} (hsize : code.size ≤ maxAddress) (is : List Instr)
    (hwritten : ∀ i ∈ is, i.Written) (before : List UInt8)
    (hcode : octets code = before ++ is.flatMap Instr.encode)
    (hconsecutive : Instr.Consecutive before.length is) :
    Trace .bare code before.length is none code.size := by
  induction is generalizing before with
  | nil =>
    have hlen : before.length = code.size := by
      rw [← length_octets, hcode]
      simp
    rw [hlen]
    exact .ended (Instr.decodeNext_eq_none.2 (Nat.le_refl _))
  | cons i rest ih =>
    obtain ⟨haddress, hrest⟩ := hconsecutive
    have hi := hwritten i (List.mem_cons_self ..)
    have hlen := Instr.length_encode hi
    have hend : (before ++ i.encode).length = i.address + i.size := by
      rw [List.length_append, hlen, haddress]
    have htotal : code.size = before.length + i.size + (rest.flatMap Instr.encode).length := by
      rw [← length_octets, hcode, List.flatMap_cons, List.length_append, List.length_append, hlen]
      omega
    have hdecoded : Instr.ofBytes .bare before.length (ahead code before.length) = .ok i := by
      rw [ahead, hcode, List.drop_left, List.flatMap_cons, ← haddress]
      exact Instr.ofBytes_encode hi _
    have hpos := Instr.size_pos_of_ofBytes hdecoded
    have hsome := Instr.decodeNext_eq_some.2
      ⟨⟨show before.length < code.size by omega, by omega, hdecoded⟩, rfl⟩
    refine .step hsome ?_
    have htail := ih (fun j hj => hwritten j (List.mem_cons_of_mem i hj)) (before ++ i.encode)
      (by rw [hcode, List.flatMap_cons, List.append_assoc])
      (by rw [hend, ← Instr.next_eq (by omega)]; exact hrest)
    rw [hend, haddress] at htail
    exact htail

/-- **Decoding and assembling are inverse.** The bytes of a decoded instruction are its
encoding; a written instruction is decoded from its encoding between any two pieces of
code; the encodings of a run's instructions are the code up to where it stopped; and the
encodings of written instructions, one behind another, are decoded as exactly those. -/
theorem assembly_inverse :
    (∀ (r : Resolver) (c c' : Cursor) (i : Instr), c.data.size ≤ maxAddress →
      Instr.decodeNext r c = .ok (some (i, c')) →
        (i.bytes? c.data).map octets = some i.encode) ∧
    (∀ (i : Instr) (before after code : ByteArray), i.Written → before.size = i.address →
      code = before ++ i.encode.toByteArray ++ after → code.size ≤ maxAddress →
        Instr.decodeNext .bare ⟨code, i.address⟩ = .ok (some (i, ⟨code, i.address + i.encode.length⟩))) ∧
    (∀ (r : Resolver) (code : ByteArray),
      (decodeAll r code).instrs.toList.flatMap Instr.encode =
        (octets code).take (decodeAll r code).decoder.pos) ∧
    (∀ (is : List Instr) (code : ByteArray), (∀ i ∈ is, i.Written) → Instr.Consecutive 0 is →
      octets code = is.flatMap Instr.encode → code.size ≤ maxAddress →
        (decodeAll .bare code).instrs.toList = is ∧ (decodeAll .bare code).failure = none ∧
          (decodeAll .bare code).decoder.pos = code.size) := by
  refine ⟨?_, ?_, ?_, ?_⟩
  · intro r c c' i hsize hnext
    obtain ⟨⟨hmore, _, hdecoded⟩, _⟩ := Instr.decodeNext_eq_some.1 hnext
    exact Instr.bytes?_eq hsize (Nat.le_of_lt hmore) hdecoded
  · intro i before after code hwritten haddress hcode hsize
    have hlen := Instr.length_encode hwritten
    have hahead : ahead code i.address = i.encode ++ octets after := by
      rw [ahead, hcode, octets_append, octets_append, octets_toByteArray, List.append_assoc,
        ← haddress, ← length_octets, List.drop_left]
    have hdecoded : Instr.ofBytes .bare i.address (ahead code i.address) = .ok i := by
      rw [hahead]
      exact Instr.ofBytes_encode hwritten _
    have hpos := Instr.size_pos_of_ofBytes hdecoded
    have hmore : i.address < code.size := by
      have hlength := congrArg List.length hahead
      rw [length_ahead, List.length_append] at hlength
      omega
    rw [hlen]
    exact Instr.decodeNext_eq_some.2 ⟨⟨hmore, by omega, hdecoded⟩, rfl⟩
  · intro r code
    simpa using (decodeAll_trace r code).take_stop.symm
  · intro is code hwritten hconsecutive hcode hsize
    rw [decodeAll_eq (trace_encode hsize is hwritten [] hcode hconsecutive)]
    exact ⟨rfl, rfl, rfl⟩

/-- `nop`, a branch to itself and `ret`, from and to their bytes. -/
theorem assembly_inverse_selfBranch :
    let nop : Instr := ⟨0, 1, ⟨0x00, "nop", .none⟩, .none⟩
    let loop : Instr := ⟨1, 2, ⟨0x2B, "br.s", .branchTargetShort⟩, .target 1⟩
    let ret : Instr := ⟨3, 1, ⟨0x2A, "ret", .none⟩, .none⟩
    let code : ByteArray := ⟨#[0x00, 0x2B, 0xFE, 0x2A]⟩
    Instr.decodeNext .bare ⟨code, 1⟩ = .ok (some (loop, ⟨code, 3⟩)) ∧
      (loop.bytes? code).map octets = some [0x2B, 0xFE] ∧
      (decodeAll .bare code).instrs.toList = [nop, loop, ret] ∧
      (decodeAll .bare code).instrs.toList.flatMap Instr.encode = octets code := by
  intro nop loop ret code
  have hnop : nop.Written := ⟨by decide +kernel, by decide, by decide, rfl⟩
  have hloop : loop.Written := ⟨by decide +kernel, by decide, by decide, rfl, by decide, by decide, by decide⟩
  have hret : ret.Written := ⟨by decide +kernel, by decide, by decide, rfl⟩
  have hencode : loop.encode = [0x2B, 0xFE] := by decide +kernel
  have hsize : code.size ≤ maxAddress := by decide
  have hnext := assembly_inverse.2.1 loop ⟨#[0x00]⟩ ⟨#[0x2A]⟩ code hloop rfl
    (by decide +kernel) hsize
  have hbytes := assembly_inverse.1 .bare _ _ loop hsize hnext
  have hrun := assembly_inverse.2.2.2 [nop, loop, ret] code (by simp [hnop, hloop, hret])
    (by simp [Instr.Consecutive, nop, loop, ret, Instr.next, maxAddress]) (by decide +kernel) hsize
  rw [hencode] at hnext hbytes
  refine ⟨hnext, hbytes, hrun.1, ?_⟩
  rw [assembly_inverse.2.2.1 .bare code, hrun.2.2]
  rfl

end Cil
