import Cil.Command.Disasm

/-! What a disassembly selects of its file.

The file gives bytes, two numbers select a window of them (`select_eq_ok`), and the
window is cut to its code (`Options.code_eq_ok`). Each step fails in ways of its own,
so the failure tells which step it was. -/
namespace Cil.Command

open Bytes Text

/-! ### Windows -/

theorem number_eq_ok {text : Option String} {default n : Nat} :
    number text default = .ok n ↔
      (text = none ∧ n = default) ∨ ∃ digits, text = some digits ∧ Numeral.parse digits = .ok n := by
  cases text with
  | none => simp [number, eq_comm]
  | some digits => cases hparse : Numeral.parse digits <;> simp [number, hparse]

theorem number_error {text : Option String} {default : Nat} {f : Failure} (h : number text default = .error f) :
    ∃ text fault, f = .badNumber text fault := by
  unfold number at h
  split at h
  · cases h
  · next text =>
    split at h
    · cases h
    · next fault _ => exact ⟨text, fault, (Except.error.inj h).symm⟩

/-- A window is selected by two numbers that stay inside the data. -/
theorem select_eq_ok {offset length : Option String} {data window : ByteArray} :
    select offset length data = .ok window ↔
      ∃ start count, number offset 0 = .ok start ∧ number length (data.size - start) = .ok count ∧
        start + count ≤ data.size ∧ data.extract start (start + count) = window := by
  constructor
  · intro h
    obtain ⟨start, hstart, hrest⟩ := bind_eq_ok.1 h
    split at hrest
    · next hinside =>
      obtain ⟨count, hcount, hlast⟩ := bind_eq_ok.1 hrest
      split at hlast
      · next havailable => exact ⟨start, count, hstart, hcount, by omega, Except.ok.inj hlast⟩
      · cases hlast
    · cases hrest
  · rintro ⟨start, count, hstart, hcount, hend, rfl⟩
    refine bind_eq_ok.2 ⟨start, hstart, ?_⟩
    rw [if_pos (by omega)]
    refine bind_eq_ok.2 ⟨count, hcount, ?_⟩
    rw [if_pos (by omega)]
    rfl

/-- A window fails for a number that is none, or that is too large. -/
theorem select_error {offset length : Option String} {data : ByteArray} {f : Failure}
    (h : select offset length data = .error f) :
    (∃ text fault, f = .badNumber text fault) ∨ (∃ start size, f = .offsetPastEnd start size) ∨
      ∃ count available, f = .lengthPastEnd count available := by
  rcases bind_eq_error.1 h with hstart | ⟨start, _, hrest⟩
  · exact .inl (number_error hstart)
  · split at hrest
    · rcases bind_eq_error.1 hrest with hcount | ⟨count, _, hlast⟩
      · exact .inl (number_error hcount)
      · split at hlast
        · cases hlast
        · exact .inr (.inr ⟨_, _, (Except.error.inj hlast).symm⟩)
    · exact .inr (.inl ⟨_, _, (Except.error.inj hrest).symm⟩)

/-! ### From the file to the code -/

theorem Options.input_error {o : Options} {file : ByteArray} {f : Failure} (h : o.input file = .error f) :
    ∃ fault, f = .badHex fault := by
  unfold input at h
  split at h
  · split at h
    · cases h
    · next fault _ => exact ⟨fault, (Except.error.inj h).symm⟩
  · cases h

theorem Options.code_eq_ok {o : Options} {file code : ByteArray} {header : Option Body} :
    o.code file = .ok (header, code) ↔
      ∃ data window, o.input file = .ok data ∧ select o.offset o.length data = .ok window ∧
        o.cut window = .ok (header, code) := by
  constructor
  · intro h
    obtain ⟨data, hinput, hrest⟩ := bind_eq_ok.1 h
    obtain ⟨window, hselect, hcut⟩ := bind_eq_ok.1 hrest
    exact ⟨data, window, hinput, hselect, hcut⟩
  · rintro ⟨data, window, hinput, hselect, hcut⟩
    exact bind_eq_ok.2 ⟨data, hinput, bind_eq_ok.2 ⟨window, hselect, hcut⟩⟩

end Cil.Command
