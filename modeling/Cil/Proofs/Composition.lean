import Cil.Proofs.Truncation

/-! Code in two parts.

An instruction looks the same wherever it stands, but for its address and the target
of a branch, which counts from it (`Instr.ofBytes_shift`). So code that is complete
can be followed by other code, and can follow it: its run stays as it is in front of
more code (`Trace.append`), and behind other code it is moved by the size of that
(`Trace.shift`), as long as no branch is moved out of the address space. Together the
two runs are the run of both parts (`decodeAll_append`). In the other direction the
code up to where a run stopped, for whatever reason, is complete code with the same
instructions (`decodeAll_upTo`). -/
namespace Cil

open Bytes

/-! ### At another address -/

/-- The operand of an instruction that is moved; only a branch tells where it stands. -/
def Operand.shift (offset : Nat) : Operand → Operand
  | target address => target (address + offset)
  | operand => operand

/-- The instruction, moved to a higher address. -/
def Instr.shift (offset : Nat) (i : Instr) : Instr :=
  { i with address := i.address + offset, operand := i.operand.shift offset }

/-- The target of a branch is an address also when it is moved. -/
def Operand.Movable (offset : Nat) (o : Operand) : Prop :=
  ∀ address, o = .target address → address + offset ≤ maxAddress

theorem Operand.shift_of_token? {o : Operand} {t : Token} (h : o.token? = some t) (offset : Nat) :
    o.shift offset = o := by
  cases o <;> first | rfl | cases h

theorem Operand.ofBytes_shift {r : Resolver} {kind : OperandKind} {next offset : Nat}
    {bytes : List UInt8} {o : Operand} (h : ofBytes r kind next bytes = .ok o)
    (hmovable : o.Movable offset) : ofBytes r kind (next + offset) bytes = .ok (o.shift offset) := by
  rw [ofBytes_eq] at h ⊢
  split at h
  · cases h
    rfl
  · next f _ =>
    obtain ⟨address, htarget, hpure⟩ := bind_eq_ok.1 h
    cases hpure
    obtain ⟨hsum, _⟩ := branchTarget_eq_ok.1 htarget
    -- the displacement is the same, so the target moves with the end of the instruction
    have hmoved : branchTarget (next + offset) (Scalar.ofBytes f bytes).bits.toInt =
        .ok (address + offset) :=
      branchTarget_eq_ok.2 ⟨by omega, hmovable address rfl⟩
    exact bind_eq_ok.2 ⟨_, hmoved, rfl⟩
  · cases h
    rfl
  · rw [shift_of_token? (Resolver.token?_of_operand h)]
    exact h

/-- The same bytes, further on, are the same instruction, moved. -/
theorem Instr.ofBytes_shift {r : Resolver} {address offset : Nat} {bytes : List UInt8} {i : Instr}
    (h : ofBytes r address bytes = .ok i) (hmovable : i.operand.Movable offset) :
    ofBytes r (address + offset) bytes = .ok (i.shift offset) := by
  obtain ⟨operandBytes, hfetch, hoperand, haddress, hsize⟩ := ofBytes_eq_ok.1 h
  refine ofBytes_eq_ok.2 ⟨operandBytes, hfetch, ?_, congrArg (· + offset) haddress, hsize⟩
  have hmoved := Operand.ofBytes_shift hoperand hmovable
  rw [Nat.add_right_comm] at hmoved
  exact hmoved

/-- Behind the first part lies the second, from its start on. -/
theorem Bytes.ahead_append_right (front back : ByteArray) (pos : Nat) :
    ahead (front ++ back) (pos + front.size) = ahead back pos := by
  rw [ahead, octets_append, Nat.add_comm, ← List.drop_drop, ← length_octets, List.drop_left, ahead]

/-! ### Many instructions -/

namespace Trace

variable {r : Resolver} {front back : ByteArray} {pos stop stop' : Nat} {is js : List Instr}
  {failure : Option Error}

/-- Code that is complete is decoded in the same way in front of more code, which is decoded
from there on. -/
theorem append (h : Trace r front pos is none stop) (hpos : pos ≤ front.size)
    (hback : Trace r (front ++ back) front.size js failure stop') :
    Trace r (front ++ back) pos (is ++ js) failure stop' := by
  generalize hcomplete : none = ended at h
  induction h with
  | @ended pos hnone =>
    have hend := Instr.decodeNext_eq_none.1 hnone
    obtain rfl : pos = front.size := by omega
    exact hback
  | failed => cases hcomplete
  | @step pos i rest ended stop hsome _ ih =>
    obtain ⟨⟨hmore, haddress, hdecoded⟩, _⟩ := Instr.decodeNext_eq_some.1 hsome
    have hsame : Instr.ofBytes r pos (ahead (front ++ back) pos) = .ok i := by
      rw [ahead_append front back hpos, Instr.ofBytes_append (by rw [hdecoded]; nofun), hdecoded]
    have hinside : pos < (front ++ back).size := by
      rw [ByteArray.size_append]
      omega
    refine .step (Instr.decodeNext_eq_some.2 ⟨⟨hinside, haddress, hsame⟩, rfl⟩) ?_
    exact ih (Instr.end_le_size hdecoded hpos) hcomplete

/-- Code that is complete is decoded behind other code to the same instructions, moved. -/
theorem shift (front : ByteArray) (h : Trace r back pos is none stop)
    (hsize : (front ++ back).size ≤ maxAddress) (hmovable : ∀ i ∈ is, i.operand.Movable front.size) :
    Trace r (front ++ back) (pos + front.size) (is.map (Instr.shift front.size)) none
      (stop + front.size) := by
  rw [ByteArray.size_append] at hsize
  generalize hcomplete : none = ended at h ⊢
  induction h with
  | @ended pos hnone =>
    have hend := Instr.decodeNext_eq_none.1 hnone
    refine .ended (Instr.decodeNext_eq_none.2 ?_)
    rw [ByteArray.size_append]
    omega
  | failed => cases hcomplete
  | @step pos i rest ended stop hsome _ ih =>
    obtain ⟨⟨hmore, _, hdecoded⟩, _⟩ := Instr.decodeNext_eq_some.1 hsome
    obtain ⟨hfirst, hrest⟩ := List.forall_mem_cons.1 hmovable
    have hmoved : Instr.ofBytes r (pos + front.size) (ahead (front ++ back) (pos + front.size)) =
        .ok (i.shift front.size) := by
      rw [ahead_append_right]
      exact Instr.ofBytes_shift hdecoded hfirst
    have hinside : pos + front.size < (front ++ back).size := by
      rw [ByteArray.size_append]
      omega
    have htail := ih hrest hcomplete
    rw [Nat.add_right_comm] at htail
    exact .step (Instr.decodeNext_eq_some.2 ⟨⟨hinside, by omega, hmoved⟩, rfl⟩) htail

/-- Where a trace stops, the code can be cut without losing an instruction, and is complete. -/
theorem upTo (h : Trace r (front ++ back) pos is failure stop) (hstop : front.size = stop) :
    Trace r front pos is none stop := by
  induction h with
  | ended => exact .ended (Instr.decodeNext_eq_none.2 (Nat.le_of_eq hstop))
  | failed => exact .ended (Instr.decodeNext_eq_none.2 (Nat.le_of_eq hstop))
  | @step pos i rest failure stop hsome htail ih =>
    obtain ⟨⟨_, haddress, hdecoded⟩, _⟩ := Instr.decodeNext_eq_some.1 hsome
    have hone := Instr.size_pos_of_ofBytes hdecoded
    have hend := htail.length_le
    rw [ahead_append front back (by omega)] at hdecoded
    have hwhole := Instr.ofBytes_of_size_le hdecoded (by rw [length_ahead]; omega)
    exact .step (Instr.decodeNext_eq_some.2 ⟨⟨by omega, haddress, hwhole⟩, rfl⟩) (ih hstop)

end Trace

/-! ### Runs -/

/-- The code up to where its run stopped has the same instructions and no error. -/
theorem decodeAll_upTo (r : Resolver) (code : ByteArray) :
    let done := decodeAll r (code.extract 0 (decodeAll r code).decoder.pos)
    done.instrs = (decodeAll r code).instrs ∧ done.failure = none := by
  obtain ⟨is, failure, stop, htrace⟩ := Trace.exists r code 0
  have hinside := (htrace.bounds (Nat.zero_le _)).2
  have hcut : (code.extract 0 stop).size = stop := by
    rw [ByteArray.size_extract]
    omega
  have hparts := htrace
  rw [← extract_append code hinside] at hparts
  rw [decodeAll_eq htrace]
  show (decodeAll r (code.extract 0 stop)).instrs = is.toArray ∧
    (decodeAll r (code.extract 0 stop)).failure = none
  rw [decodeAll_eq (hparts.upTo hcut)]
  exact ⟨rfl, rfl⟩

/-- **Complete code decodes part by part.** If two pieces of code both decode to their ends,
and no branch of the second is moved out of the address space, the one behind the other
decodes to its end: to the instructions of the first, unchanged, and those of the second,
with the size of the first added to every address and every target. -/
theorem decodeAll_append (r : Resolver) (front back : ByteArray)
    (hsize : front.size + back.size ≤ maxAddress)
    (hfront : (decodeAll r front).failure = none) (hback : (decodeAll r back).failure = none)
    (htargets : ∀ i ∈ (decodeAll r back).instrs.toList, ∀ address,
      i.operand = .target address → address + front.size ≤ maxAddress) :
    (decodeAll r (front ++ back)).failure = none ∧
      (decodeAll r (front ++ back)).instrs.toList =
        (decodeAll r front).instrs.toList ++
          (decodeAll r back).instrs.toList.map (Instr.shift front.size) := by
  have hfirst := decodeAll_trace r front
  have hsecond := decodeAll_trace r back
  rw [hfront] at hfirst
  rw [hback] at hsecond
  have hmoved := hsecond.shift front (by rwa [ByteArray.size_append]) htargets
  rw [Nat.zero_add] at hmoved
  rw [decodeAll_eq (hfirst.append (Nat.zero_le _) hmoved)]
  exact ⟨rfl, rfl⟩

/-- Two loops, of which the second goes on branching to itself behind the first. -/
theorem decodeAll_append_loops :
    let front : ByteArray := ⟨#[0x00, 0x2B, 0xFE]⟩
    let back : ByteArray := ⟨#[0x2B, 0xFE, 0x2A]⟩
    ((decodeAll .bare front).failure = none ∧ (decodeAll .bare back).failure = none) ∧
      (decodeAll .bare (front ++ back)).failure = none ∧
      (decodeAll .bare (front ++ back)).instrs.toList.map (fun i => (i.address, i.text false)) =
        [(0, "nop"), (1, "br.s 0001"), (3, "br.s 0003"), (5, "ret")] := by
  intro front back
  have hfront : (decodeAll .bare front).failure = none := by decide +kernel
  have hback : (decodeAll .bare back).failure = none := by decide +kernel
  have htargets : ∀ i ∈ (decodeAll .bare back).instrs.toList,
      (i.operand matches .target 0 | .none) = true := by decide +kernel
  obtain ⟨hended, hinstrs⟩ := decodeAll_append .bare front back (by decide) hfront hback (by
    intro i hi address htarget
    have hzero := htargets i hi
    rw [htarget] at hzero
    cases address with
    | zero => decide
    | succ address => cases hzero)
  rw [hinstrs]
  exact ⟨⟨hfront, hback⟩, hended, by decide +kernel⟩

end Cil
