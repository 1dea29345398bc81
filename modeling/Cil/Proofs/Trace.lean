import Cil.Decoder
import Cil.Proofs.Fetch
import Cil.Proofs.Operand

/-! Runs of a decoder, step by step.

A `Trace` says what a decoder gives from a position on: instructions, each where
the one before it ended, and then nothing at the end of the code or one error.
There is a trace from every position (`Trace.exists`), and `decodeAll` follows the
one from the start (`decodeAll_eq`), so that a statement about runs is one about
traces and is proved by induction on their steps. -/
namespace Cil

open Bytes

/-! ### One step -/

theorem Error.located_of_address? {e : Error} (h : e.address? = none) (address : Nat) :
    e.located address = .decode address e := by
  cases e <;> first | rfl | cases h

theorem Error.Unresolved.address? {e : Error} (h : e.Unresolved) : e.address? = none := by
  cases e <;> first | rfl | exact h.elim

namespace Instr

/-- No error of an instruction carries an address of its own. -/
theorem address?_of_ofBytes {r : Resolver} {address : Nat} {bytes : List UInt8} {e : Error}
    (h : ofBytes r address bytes = .error e) : e.address? = none := by
  rcases bind_eq_error.1 h with hfetch | ⟨⟨op, operandBytes⟩, _, hop⟩
  · rcases fetch_error hfetch with rfl | ⟨code, rfl⟩ <;> rfl
  · rcases bind_eq_error.1 hop with hoperand | ⟨_, _, hpure⟩
    · rcases Operand.ofBytes_error hoperand with ⟨_, rfl⟩ | rfl | hunresolved
      · rfl
      · rfl
      · exact hunresolved.address?
    · cases hpure

theorem size_pos_of_ofBytes {r : Resolver} {address : Nat} {bytes : List UInt8} {i : Instr}
    (h : ofBytes r address bytes = .ok i) : 0 < i.size := by
  rw [size_of_ofBytes h]
  exact i.opcode.size_pos

section
variable {r : Resolver} {code : ByteArray} {pos : Nat}

theorem decodeNext_eq_none : decodeNext r ⟨code, pos⟩ = .ok none ↔ code.size ≤ pos := by
  unfold decodeNext decodeNextIn Cursor.hasMore
  by_cases hmore : pos < code.size
  · simp only [hmore, decide_true, if_true]
    refine ⟨fun h => ?_, fun h => absurd hmore (Nat.not_lt.2 h)⟩
    split at h
    · split at h <;> cases h
    · cases h
  · simp only [hmore, decide_false, Bool.false_eq_true, if_false, true_iff]
    exact Nat.not_lt.1 hmore

theorem decodeNext_eq_some {i : Instr} {c : Cursor} :
    decodeNext r ⟨code, pos⟩ = .ok (some (i, c)) ↔
      (pos < code.size ∧ pos ≤ maxAddress ∧ ofBytes r pos (ahead code pos) = .ok i) ∧
        c = ⟨code, pos + i.size⟩ := by
  unfold decodeNext decodeNextIn Cursor.hasMore
  rw [decodeAtIn_eq]
  by_cases hmore : pos < code.size
  · simp only [hmore, decide_true, if_true, true_and]
    by_cases hpos : pos ≤ maxAddress
    · simp only [hpos, if_true, true_and]
      cases ofBytes r pos (ahead code pos) with
      | ok j =>
        simp only [Except.ok.injEq, Option.some.injEq, Prod.mk.injEq, Cursor.advance]
        constructor
        · rintro ⟨rfl, rfl⟩
          exact ⟨rfl, rfl⟩
        · rintro ⟨rfl, rfl⟩
          exact ⟨rfl, rfl⟩
      | error e => simp
    · simp [hpos]
  · simp [hmore]

theorem decodeNext_eq_error (hsize : code.size ≤ maxAddress) {e : Error} :
    decodeNext r ⟨code, pos⟩ = .error e ↔
      pos < code.size ∧ ∃ cause, ofBytes r pos (ahead code pos) = .error cause ∧ e = .decode pos cause := by
  unfold decodeNext decodeNextIn Cursor.hasMore
  rw [decodeAtIn_eq]
  by_cases hmore : pos < code.size
  · have hpos : pos ≤ maxAddress := by omega
    simp only [hmore, decide_true, if_true, hpos, true_and]
    cases hdecoded : ofBytes r pos (ahead code pos) with
    | ok i => simp
    | error cause =>
      simp only [Error.located_of_address? (address?_of_ofBytes hdecoded), Except.error.injEq]
      constructor
      · intro h
        exact ⟨cause, rfl, h.symm⟩
      · rintro ⟨_, rfl, rfl⟩
        rfl
  · simp [hmore]

end

end Instr

/-! ### Many steps -/

/-- What a decoder gives from a position on, and the position where it stops. -/
inductive Trace (r : Resolver) (code : ByteArray) : Nat → List Instr → Option Error → Nat → Prop where
  | ended {pos : Nat} : Instr.decodeNext r ⟨code, pos⟩ = .ok none → Trace r code pos [] none pos
  | failed {pos : Nat} {e : Error} :
    Instr.decodeNext r ⟨code, pos⟩ = .error e → Trace r code pos [] (some e) pos
  | step {pos : Nat} {i : Instr} {rest : List Instr} {failure : Option Error} {stop : Nat} :
    Instr.decodeNext r ⟨code, pos⟩ = .ok (some (i, ⟨code, pos + i.size⟩)) →
      Trace r code (pos + i.size) rest failure stop → Trace r code pos (i :: rest) failure stop

/-- The items of a stream: its instructions and then its error, if there is one. -/
def itemsOf (is : List Instr) (failure : Option Error) : List (Except Error Instr) :=
  is.map .ok ++ failure.toList.map .error

theorem ofItems_itemsOf (is : List Instr) (failure : Option Error) (d : Decoder) :
    Run.ofItems (itemsOf is failure).toArray d = ⟨is.toArray, failure, d⟩ := by
  cases failure with
  | none => simp [Run.ofItems, itemsOf]
  | some e =>
    have hnone : (is.findSome? fun _ => (none : Option Error)) = none :=
      List.findSome?_eq_none_iff.2 fun _ _ => rfl
    simp [Run.ofItems, itemsOf, List.findSome?_map, Function.comp_def, hnone]

/-! ### The decoder follows its trace -/

namespace Decoder

theorem collect_of_some {d d' : Decoder} {item : Except Error Instr} (h : d.next = (some item, d'))
    (seen : Array (Except Error Instr)) : d.collect seen = d'.collect (seen.push item) := by
  rw [collect]
  split
  · next item' d'' hnext =>
    cases hnext.symm.trans h
    rfl
  · next d'' hnext => cases hnext.symm.trans h

theorem collect_of_none {d d' : Decoder} (h : d.next = (none, d'))
    (seen : Array (Except Error Instr)) : d.collect seen = (seen, d') := by
  rw [collect]
  split
  · next item' d'' hnext => cases hnext.symm.trans h
  · next d'' hnext =>
    cases hnext.symm.trans h
    rfl

/-- A decoder that has failed gives nothing more. -/
theorem next_of_failed (c : Cursor) (r : Resolver) : next ⟨c, r, true⟩ = (none, ⟨c, r, true⟩) := rfl

section
variable {r : Resolver} {code : ByteArray} {pos : Nat}

theorem next_of_none (h : Instr.decodeNext r ⟨code, pos⟩ = .ok none) :
    next ⟨⟨code, pos⟩, r, false⟩ = (none, ⟨⟨code, pos⟩, r, false⟩) := by
  simp [next, h]

theorem next_of_some {i : Instr} {c : Cursor} (h : Instr.decodeNext r ⟨code, pos⟩ = .ok (some (i, c))) :
    next ⟨⟨code, pos⟩, r, false⟩ = (some (.ok i), ⟨c, r, false⟩) := by
  simp [next, h]

theorem next_of_error {e : Error} (h : Instr.decodeNext r ⟨code, pos⟩ = .error e) :
    next ⟨⟨code, pos⟩, r, false⟩ = (some (.error e), ⟨⟨code, pos⟩, r, true⟩) := by
  simp [next, h]

end

/-- A decoder collects, behind what it has seen before, the items of its trace. -/
theorem collect_eq {r : Resolver} {code : ByteArray} {pos stop : Nat} {is : List Instr}
    {failure : Option Error} (h : Trace r code pos is failure stop)
    (seen : Array (Except Error Instr)) :
    collect ⟨⟨code, pos⟩, r, false⟩ seen =
      (seen ++ (itemsOf is failure).toArray, ⟨⟨code, stop⟩, r, failure.isSome⟩) := by
  induction h generalizing seen with
  | ended hnone =>
    rw [collect_of_none (next_of_none hnone)]
    simp [itemsOf]
  | failed herror =>
    rw [collect_of_some (next_of_error herror), collect_of_none (next_of_failed ..)]
    simp [itemsOf]
  | step hsome _ ih =>
    rw [collect_of_some (next_of_some hsome), ih]
    simp [itemsOf]

end Decoder

/-- There is a trace from every position: each step leaves fewer bytes ahead. -/
theorem Trace.exists (r : Resolver) (code : ByteArray) (pos : Nat) :
    ∃ is failure stop, Trace r code pos is failure stop := by
  generalize hleft : code.size - pos = left
  induction left using Nat.strongRecOn generalizing pos with
  | ind left ih =>
    cases hnext : Instr.decodeNext r ⟨code, pos⟩ with
    | error e => exact ⟨[], some e, pos, .failed hnext⟩
    | ok given =>
      cases given with
      | none => exact ⟨[], none, pos, .ended hnext⟩
      | some given =>
        obtain ⟨i, c⟩ := given
        obtain ⟨⟨hmore, _, hdecoded⟩, rfl⟩ := Instr.decodeNext_eq_some.1 hnext
        have hpos : 0 < i.size := Instr.size_pos_of_ofBytes hdecoded
        obtain ⟨rest, failure, stop, htail⟩ := ih _ (by omega) (pos + i.size) rfl
        exact ⟨i :: rest, failure, stop, .step hnext htail⟩

/-- **A run follows the trace from the start of its code.** -/
theorem decodeAll_eq {r : Resolver} {code : ByteArray} {stop : Nat} {is : List Instr}
    {failure : Option Error} (h : Trace r code 0 is failure stop) :
    decodeAll r code = ⟨is.toArray, failure, ⟨⟨code, stop⟩, r, failure.isSome⟩⟩ := by
  have hcollect := Decoder.collect_eq h #[]
  simp only [decodeAll, Decoder.rest, Decoder.start, Cursor.start, hcollect, Array.empty_append,
    ofItems_itemsOf]

theorem decodeAll_trace (r : Resolver) (code : ByteArray) :
    Trace r code 0 (decodeAll r code).instrs.toList (decodeAll r code).failure
      (decodeAll r code).decoder.pos := by
  obtain ⟨is, failure, stop, htrace⟩ := Trace.exists r code 0
  rw [decodeAll_eq htrace]
  exact htrace

/-- The items of a stream are the instructions of its run and then its error. -/
theorem items_eq (r : Resolver) (code : ByteArray) :
    (Decoder.start r code).rest.1.toList =
      itemsOf (decodeAll r code).instrs.toList (decodeAll r code).failure := by
  have hcollect := Decoder.collect_eq (decodeAll_trace r code) #[]
  simp only [Decoder.rest, Decoder.start, Cursor.start, hcollect]
  simp

end Cil
