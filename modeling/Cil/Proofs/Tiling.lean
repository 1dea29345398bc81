import Cil.Proofs.Assembly

/-! A run tiles its code.

The instructions of a run lie one behind another from the first byte on, and
together they are the code up to where the run stopped. It stops at the end of the
code, or in front of the instruction that it could not decode, whose address its
error carries. Since every instruction takes a byte at least, a run is never
longer than its code. `Tiling` collects this, and every run has it
(`decodeAll_tiles`). -/
namespace Cil

open Bytes

/-! ### Along a trace -/

namespace Trace

variable {r : Resolver} {code : ByteArray} {pos stop : Nat} {is : List Instr} {failure : Option Error}

/-- Every instruction of a trace was decoded at its address, at or behind the start of the
trace. -/
theorem decoded (h : Trace r code pos is failure stop) :
    ∀ i ∈ is, pos ≤ i.address ∧ i.address < code.size ∧
      Instr.ofBytes r i.address (ahead code i.address) = .ok i := by
  induction h with
  | ended => intro i hi; cases hi
  | failed => intro i hi; cases hi
  | @step pos i rest failure stop hsome _ ih =>
    obtain ⟨⟨hmore, _, hdecoded⟩, _⟩ := Instr.decodeNext_eq_some.1 hsome
    have haddress := Instr.address_of_ofBytes hdecoded
    intro j hj
    rcases List.mem_cons.1 hj with rfl | hj
    · rw [haddress]
      exact ⟨Nat.le_refl _, hmore, hdecoded⟩
    · obtain ⟨hle, hrest⟩ := ih j hj
      exact ⟨by omega, hrest⟩

theorem length_le (h : Trace r code pos is failure stop) : pos + is.length ≤ stop := by
  induction h with
  | ended => exact Nat.le_refl _
  | failed => exact Nat.le_refl _
  | step hsome _ ih =>
    obtain ⟨⟨_, _, hdecoded⟩, _⟩ := Instr.decodeNext_eq_some.1 hsome
    have hone := Instr.size_pos_of_ofBytes hdecoded
    rw [List.length_cons]
    omega

/-- Every instruction of a trace ends before the trace does. -/
theorem end_le_stop (h : Trace r code pos is failure stop) :
    ∀ i ∈ is, i.address + i.size ≤ stop := by
  induction h with
  | ended => intro i hi; cases hi
  | failed => intro i hi; cases hi
  | @step pos i rest failure stop hsome htail ih =>
    obtain ⟨⟨_, _, hdecoded⟩, _⟩ := Instr.decodeNext_eq_some.1 hsome
    have haddress := Instr.address_of_ofBytes hdecoded
    intro j hj
    rcases List.mem_cons.1 hj with rfl | hj
    · have hle := htail.length_le
      omega
    · exact ih j hj

/-- A trace stops where decoding gives nothing, or gives the error of the trace. -/
theorem stopped (h : Trace r code pos is failure stop) :
    Instr.decodeNext r ⟨code, stop⟩ = failure.elim (.ok none) .error := by
  induction h with
  | ended hnone => exact hnone
  | failed herror => exact herror
  | step _ _ ih => exact ih

theorem consecutive (h : Trace r code pos is failure stop) (hsize : code.size ≤ maxAddress)
    (hpos : pos ≤ code.size) : Instr.Consecutive pos is := by
  induction h with
  | ended => trivial
  | failed => trivial
  | step hsome _ ih =>
    obtain ⟨⟨_, _, hdecoded⟩, _⟩ := Instr.decodeNext_eq_some.1 hsome
    refine ⟨Instr.address_of_ofBytes hdecoded, ?_⟩
    rw [Instr.next_of_ofBytes hsize hpos hdecoded]
    exact ih (Instr.end_le_size hdecoded hpos)

/-- Without an error a trace goes to the end of the code. -/
theorem stop_eq_size (h : Trace r code pos is none stop) (hpos : pos ≤ code.size) :
    stop = code.size := by
  have hend := Instr.decodeNext_eq_none.1 h.stopped
  have hstop := (h.bounds hpos).2
  omega

/-- An error carries the address where the trace stopped, once, and that lies inside the code. -/
theorem failure_eq {e : Error} (h : Trace r code pos is (some e) stop) (hsize : code.size ≤ maxAddress) :
    stop < code.size ∧ ∃ cause, Instr.ofBytes r stop (ahead code stop) = .error cause ∧
      e = .decode stop cause ∧ cause.address? = none := by
  obtain ⟨hmore, cause, hcause, he⟩ := (Instr.decodeNext_eq_error hsize).1 h.stopped
  exact ⟨hmore, cause, hcause, he, Instr.address?_of_ofBytes hcause⟩

end Trace

/-- Instructions whose bytes are their encodings have them all, and in the same order. -/
theorem mapM_bytes? {code : ByteArray} (is : List Instr)
    (h : ∀ i ∈ is, (i.bytes? code).map octets = some i.encode) :
    ∃ windows, is.mapM (·.bytes? code) = some windows ∧
      windows.flatMap octets = is.flatMap Instr.encode := by
  induction is with
  | nil => exact ⟨[], rfl, rfl⟩
  | cons i rest ih =>
    obtain ⟨w, hw, hoctets⟩ := Option.map_eq_some_iff.1 (h i (List.mem_cons_self ..))
    obtain ⟨windows, hwindows, hflat⟩ := ih fun j hj => h j (List.mem_cons_of_mem i hj)
    refine ⟨w :: windows, ?_, ?_⟩
    · simp [List.mapM_cons, hw, hwindows]
    · rw [List.flatMap_cons, List.flatMap_cons, hoctets, hflat]

/-! ### Runs -/

/-- How the run of a stream lies in its code. -/
structure Tiling (r : Resolver) (code : ByteArray) (run : Run) : Prop where
  /-- The items of the stream are the instructions and, if there is an error, it alone
  behind them. -/
  items : (Decoder.start r code).rest.1.toList = run.instrs.toList.map .ok ++ run.failure.toList.map .error
  count : (Decoder.start r code).rest.1.size ≤ code.size + 1
  ended : run.decoder.next = (none, run.decoder)
  consecutive : Instr.Consecutive 0 run.instrs.toList
  sizes : ∀ i ∈ run.instrs.toList, i.size = i.opcode.codeWidth + i.opcode.kind.width
  /-- The bytes of the instructions, taken together, are the code up to the decoder. -/
  bytes : ∃ windows, run.instrs.toList.mapM (·.bytes? code) = some windows ∧
    windows.flatMap octets = (octets code).take run.decoder.pos
  inside : run.decoder.pos ≤ code.size
  complete : run.failure = none → run.decoder.pos = code.size
  /-- An error carries the decoder's position in its only layer. -/
  located : ∀ e, run.failure = some e → run.decoder.pos < code.size ∧
    ∃ cause, e = .decode run.decoder.pos cause ∧ cause.address? = none

theorem count_le (r : Resolver) (code : ByteArray) :
    (Decoder.start r code).rest.1.size ≤ code.size + 1 := by
  have htrace := decodeAll_trace r code
  have hlength := htrace.length_le
  have hstop := (htrace.bounds (Nat.zero_le _)).2
  rw [← Array.length_toList, items_eq, itemsOf, List.length_append, List.length_map, List.length_map]
  cases hfailure : (decodeAll r code).failure with
  | none =>
    simp only [Option.toList_none, List.length_nil]
    omega
  | some e =>
    simp only [Option.toList_some, List.length_singleton]
    omega

/-- A decoder that followed a trace to its end gives nothing more. -/
theorem next_decodeAll (r : Resolver) (code : ByteArray) :
    (decodeAll r code).decoder.next = (none, (decodeAll r code).decoder) := by
  obtain ⟨is, failure, stop, htrace⟩ := Trace.exists r code 0
  rw [decodeAll_eq htrace]
  cases failure with
  | none => exact Decoder.next_of_none htrace.stopped
  | some e => rfl

/-- **Every run tiles its code.** -/
theorem decodeAll_tiles (r : Resolver) (code : ByteArray) (hsize : code.size ≤ maxAddress) :
    Tiling r code (decodeAll r code) := by
  have htrace := decodeAll_trace r code
  have hbytes : ∀ i ∈ (decodeAll r code).instrs.toList, (i.bytes? code).map octets = some i.encode := by
    intro i hi
    obtain ⟨_, hlt, hdecoded⟩ := htrace.decoded i hi
    exact Instr.bytes?_eq hsize (Nat.le_of_lt hlt) hdecoded
  obtain ⟨windows, hwindows, hflat⟩ := mapM_bytes? _ hbytes
  refine
    { items := items_eq r code
      count := count_le r code
      ended := next_decodeAll r code
      consecutive := htrace.consecutive hsize (Nat.zero_le _)
      sizes := ?_
      bytes := ⟨windows, hwindows, ?_⟩
      inside := (htrace.bounds (Nat.zero_le _)).2
      complete := ?_
      located := ?_ }
  · intro i hi
    obtain ⟨_, _, hdecoded⟩ := htrace.decoded i hi
    exact Instr.size_of_ofBytes hdecoded
  · rw [hflat]
    simpa using htrace.take_stop.symm
  · intro hnone
    rw [hnone] at htrace
    exact htrace.stop_eq_size (Nat.zero_le _)
  · intro e he
    rw [he] at htrace
    obtain ⟨hmore, cause, _, hdecode, haddress⟩ := htrace.failure_eq hsize
    exact ⟨hmore, cause, hdecode, haddress⟩

/-- A run that ends in the middle: `nop` and an opcode that is not there. -/
theorem decodeAll_tiles_unknown :
    (⟨#[0x00, 0x24]⟩ : ByteArray).size ≤ maxAddress ∧
      Tiling .bare ⟨#[0x00, 0x24]⟩ (decodeAll .bare ⟨#[0x00, 0x24]⟩) :=
  ⟨by decide, decodeAll_tiles .bare ⟨#[0x00, 0x24]⟩ (by decide)⟩

end Cil
