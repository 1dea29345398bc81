import Cil.Proofs.Compressed
import Cil.Proofs.HexText
import Cil.Proofs.Outcome
import Cil.Proofs.Utf8

/-! Dumps read back.

Hexadecimal text spells bytes by its digits alone, in pairs, and blanks between them
say nothing (`Hex.Spells`). A byte is written as its two digits, so a dump spells its
bytes, and dumps with blanks between them spell all their bytes (`Hex.Joined.spells`).
The dumps of a report are those of its instructions, which are the code up to where it
stopped (`dumpOf_eq`). So the column of bytes is a file from which the same
instructions can be read again, without the error (`dump_reads_back`). -/
namespace Cil

open Bytes Text

/-! ### Text that spells bytes -/

namespace Text.Hex

theorem digitByte_plain {d : Nat} (h : d < 16) : (digitByte d).toNat < 0x80 ∧ isBlank (digitByte d) = false :=
  (digit?_eq_some.1 (digit?_digitByte d h)).plain

/-- The text has the digits of these bytes, and otherwise only blanks. -/
structure Spells (text bytes : List UInt8) : Prop where
  plain : ∀ b ∈ text, b.toNat < 0x80
  digits : text.filter (fun b => !isBlank b) = digitsOf bytes

theorem Spells.parse {text bytes : List UInt8} (h : Spells text bytes) : parse text = .ok bytes := by
  have heven : (digitsOf bytes).length % 2 = 0 := by
    rw [digitsOf, List.length_flatMap]
    simp
  simp only [Hex.parse, Utf8.fault?_eq_none h.plain, h.digits, heven, if_true, pairs_digitsOf]

theorem Spells.append {text text' bytes bytes' : List UInt8} (h : Spells text bytes)
    (h' : Spells text' bytes') : Spells (text ++ text') (bytes ++ bytes') where
  plain b hb := (List.mem_append.1 hb).elim (h.plain b) (h'.plain b)
  digits := by rw [List.filter_append, h.digits, h'.digits, digitsOf, digitsOf, digitsOf, List.flatMap_append]

theorem spells_blanks {text : List UInt8} (h : ∀ b ∈ text, isBlank b = true) : Spells text [] where
  plain b hb := (plain_of_isBlank (h b hb)).1
  digits := by
    refine List.filter_eq_nil_iff.2 fun b hb => ?_
    rw [h b hb]
    decide

/-- Pieces of text with blanks between them. -/
inductive Joined : List (List UInt8) → List UInt8 → Prop where
  | nil : Joined [] []
  | single (piece : List UInt8) : Joined [piece] piece
  | cons (piece : List UInt8) {blanks next text : List UInt8} {rest : List (List UInt8)} :
    blanks ≠ [] → (∀ b ∈ blanks, isBlank b = true) → Joined (next :: rest) text →
      Joined (piece :: next :: rest) (piece ++ blanks ++ text)

/-- Joined pieces spell, one after the other, what the pieces spell. -/
theorem Joined.spells {α : Type} {items : List α} {textOf bytesOf : α → List UInt8} {text : List UInt8}
    (h : Joined (items.map textOf) text) (hitems : ∀ item ∈ items, Spells (textOf item) (bytesOf item)) :
    Spells text (items.flatMap bytesOf) := by
  induction items generalizing text with
  | nil =>
    cases h
    exact ⟨List.forall_mem_nil _, rfl⟩
  | cons item rest ih =>
    obtain ⟨hitem, hrest⟩ := List.forall_mem_cons.1 hitems
    cases rest with
    | nil =>
      cases h
      rw [List.flatMap_singleton]
      exact hitem
    | cons next others =>
      cases h with
      | cons _ _ hblanks hjoined =>
        have hfront := (hitem.append (spells_blanks hblanks)).append (ih hjoined hrest)
        rwa [List.append_nil] at hfront

/-! ### Dumps -/

theorem hexDigits_two {n : Nat} (h : n < 256) :
    hexDigits 2 n = [(n / 16).digitChar, (n % 16).digitChar] := by
  by_cases hone : n < 16
  · rw [hexDigits, Nat.toDigits_of_lt_base hone, Nat.div_eq_of_lt hone, Nat.mod_eq_of_lt hone]
    rfl
  · rw [hexDigits, Nat.toDigits_of_base_le (by decide) (by omega),
      Nat.toDigits_of_lt_base (show n / 16 < 16 by omega)]
    rfl

theorem octets_upperHex (b : UInt8) : octets (upperHex 2 b.toNat).toUTF8 = digitsOf [b] := by
  have hlt : b.toNat < 256 := b.toNat_lt
  have hdigit : ∀ d < 16, String.utf8EncodeChar d.digitChar.toUpper = [digitByte d] := by decide
  rw [Utf8.octets_toUTF8, upperHex, String.toList_ofList, hexDigits_two hlt]
  simp only [List.map_cons, List.map_nil, List.flatMap_cons, List.flatMap_nil,
    hdigit (b.toNat / 16) (by omega), hdigit (b.toNat % 16) (by omega)]
  rfl

theorem spells_upperHex (b : UInt8) : Spells (octets (upperHex 2 b.toNat).toUTF8) [b] := by
  have hlt : b.toNat < 256 := b.toNat_lt
  have hhigh := digitByte_plain (show b.toNat / 16 < 16 by omega)
  have hlow := digitByte_plain (show b.toNat % 16 < 16 by omega)
  rw [octets_upperHex]
  exact ⟨List.forall_mem_cons.2 ⟨hhigh.1, List.forall_mem_singleton.2 hlow.1⟩, by
    simp [digitsOf, hhigh.2, hlow.2]⟩

/-- A dump joins its bytes with single spaces. -/
theorem joined_dump (bytes : List UInt8) :
    Joined (bytes.map fun b => octets (upperHex 2 b.toNat).toUTF8) (octets (dump bytes).toUTF8) := by
  induction bytes with
  | nil => exact .nil
  | cons b rest ih =>
    cases rest with
    | nil => exact .single _
    | cons next others =>
      have hparts : octets (dump (b :: next :: others)).toUTF8 =
          octets (upperHex 2 b.toNat).toUTF8 ++ [0x20] ++ octets (dump (next :: others)).toUTF8 := by
        simp only [Utf8.octets_toUTF8, dump, String.toList_intercalate, List.map_cons,
          List.intercalate_cons_cons, List.flatMap_append]
        rfl
      rw [hparts]
      exact .cons _ (List.cons_ne_nil _ _) (List.forall_mem_singleton.2 rfl) ih

theorem spells_dump (bytes : List UInt8) : Spells (octets (dump bytes).toUTF8) bytes := by
  have hspells := (joined_dump bytes).spells fun b _ => spells_upperHex b
  rwa [List.flatMap_singleton'] at hspells

end Text.Hex

/-! ### Reports -/

namespace Command

/-- The dump of an instruction is that of its encoding. -/
theorem dumpOf_eq {code : ByteArray} (hsize : code.size ≤ maxAddress) {i : Instr}
    (hi : i ∈ (decodeAll .bare code).instrs.toList) : dumpOf code i = Hex.dump i.encode := by
  obtain ⟨_, hlt, hdecoded⟩ := (decodeAll_trace .bare code).decoded i hi
  obtain ⟨window, hwindow, hoctets⟩ := Option.map_eq_some_iff.1
    (Instr.bytes?_eq hsize (Nat.le_of_lt hlt) hdecoded)
  rw [dumpOf, hwindow, ← hoctets]

/-- The column of bytes of a report. -/
def Report.dumps (r : Report) : List String := r.entries.filterMap Entry.bytes

theorem Report.dumps_ofCode (header : Option Body) {code : ByteArray} (hsize : code.size ≤ maxAddress) :
    (ofCode true header code).dumps =
      (decodeAll .bare code).instrs.toList.map fun i => Hex.dump i.encode := by
  rw [ofCode_eq, dumps, List.filterMap_map]
  refine (List.filterMap_eq_map_iff_forall_eq_some.2 fun i hi => ?_)
  exact congrArg some (dumpOf_eq hsize hi)

/-- The report on the code up to where it stopped has the same entries and no error. -/
theorem Report.ofCode_upTo (header : Option Body) {code : ByteArray} (hsize : code.size ≤ maxAddress) :
    ofCode true none (code.extract 0 (decodeAll .bare code).decoder.pos) =
      { header := none, entries := (ofCode true header code).entries, error := none } := by
  obtain ⟨hinstrs, hended⟩ := decodeAll_upTo .bare code
  generalize hcut : code.extract 0 (decodeAll .bare code).decoder.pos = cut at hinstrs hended
  have hcutSize : cut.size ≤ maxAddress := by
    rw [← hcut, ByteArray.size_extract]
    omega
  -- both dumps are of the encoding, so it does not matter from which code they are taken
  have hentries : ∀ i ∈ (decodeAll .bare code).instrs.toList, entryOf true cut i = entryOf true code i := by
    intro i hi
    have hdump : dumpOf cut i = dumpOf code i := by
      rw [dumpOf_eq hsize hi, dumpOf_eq hcutSize (by rw [hinstrs]; exact hi)]
    simp only [entryOf, hdump]
  simp only [ofCode_eq, hinstrs, hended, List.map_congr_left hentries]

theorem select_all (data : ByteArray) : select none none data = .ok data := by
  have hwhole : data.extract 0 (0 + (data.size - 0)) = data := by
    rw [Nat.zero_add, Nat.sub_zero, ByteArray.extract_zero_size]
  simp only [select, number, bind, Except.bind, Nat.zero_le, if_true, Nat.le_refl, hwhole]
  rfl

/-- The options that read hexadecimal text and show the column of bytes. -/
def dumpOptions : Options := { body := false, hex := true, bytes := true, offset := none, length := none }

theorem code_of_parse {file code : ByteArray} (h : Hex.parse (octets file) = .ok (octets code)) :
    dumpOptions.code file = .ok (none, code) := by
  have hinput : dumpOptions.input file = .ok code := by
    have hcode : (octets code).toByteArray = code := octets_inj.1 (octets_toByteArray _)
    simp only [Options.input, dumpOptions, if_true, h, hcode]
  rw [Options.code, hinput]
  show (select none none code).bind dumpOptions.cut = _
  rw [select_all]
  rfl

end Command

open Command

/-- **The column of bytes is a file that reads back.** Joined by whatever blanks, the dumps of a
report spell the code up to where it stopped; and a disassembly of that text, with the column
of bytes again, has the same entries, and no error. -/
theorem dump_reads_back (code : ByteArray) (hsize : code.size ≤ maxAddress) (header : Option Body)
    (file : ByteArray) (hfile : Hex.Joined
      ((Report.ofCode true header code).dumps.map fun dump => octets dump.toUTF8) (octets file)) :
    let again : Report :=
      { header := none, entries := (Report.ofCode true header code).entries, error := none }
    Hex.parse (octets file) = .ok ((octets code).take (decodeAll .bare code).decoder.pos) ∧
    (∃ code', dumpOptions.code file = .ok (none, code') ∧ Report.ofCode true none code' = again) ∧
    (∀ files args g path, parse args = .disasm g path dumpOptions → files path = .ok file →
      (run files args).exit = 0 ∧ (run files args).stdout = shown g again.lines again.json) := by
  intro again
  let cut := code.extract 0 (decodeAll .bare code).decoder.pos
  have hagain : Report.ofCode true none cut = again := Report.ofCode_upTo header hsize
  have hcut : octets cut = (octets code).take (decodeAll .bare code).decoder.pos := octets_extract ..
  have hparse : Hex.parse (octets file) = .ok (octets cut) := by
    rw [Report.dumps_ofCode header hsize, List.map_map] at hfile
    have hspells := hfile.spells fun i _ => Hex.spells_dump i.encode
    rw [hspells.parse, hcut, (decodeAll_trace .bare code).take_stop]
    rfl
  have hcode := code_of_parse hparse
  refine ⟨hcut ▸ hparse, ⟨cut, hcode, hagain⟩, ?_⟩
  intro files args g path hargs hopened
  obtain ⟨log, _, houtcome⟩ := disasmOutcome_eq g path hcode
  have hended : (decodeAll .bare cut).failure = none := (decodeAll_upTo .bare code).2
  rw [run_eq hargs, hopened, houtcome, hended]
  exact ⟨rfl, congrArg (fun report => shown g report.lines report.json) hagain⟩

/-- `nop`, `ceq` and an opcode that is not there: the dumps of the first two, on lines of their
own, are shown as the same two instructions. -/
theorem dump_reads_back_lines :
    let code : ByteArray := ⟨#[0x00, 0xFE, 0x01, 0x24]⟩
    let file : ByteArray := ⟨#[0x30, 0x30, 0x0A, 0x09, 0x46, 0x45, 0x20, 0x30, 0x31]⟩
    let args := ["disasm", "--hex", "--bytes", "a.txt"]
    ((Report.ofCode true none code).error = some (.decode 3 (.unknownOpcode 0x24)) ∧
      (Report.ofCode true none code).dumps = ["00", "FE 01"]) ∧
    Hex.parse (octets file) = .ok [0x00, 0xFE, 0x01] ∧
    (run (fun _ => .ok file) args).exit = 0 ∧
    (run (fun _ => .ok file) args).stdout = "IL_0000: 00     nop\nIL_0001: FE 01  ceq\n" := by
  intro code file args
  have herror : (Report.ofCode true none code).error = some (.decode 3 (.unknownOpcode 0x24)) := by
    decide +kernel
  have hdumps : (Report.ofCode true none code).dumps = ["00", "FE 01"] := by decide +kernel
  have hfile : Hex.Joined ((Report.ofCode true none code).dumps.map fun dump => octets dump.toUTF8)
      ([0x30, 0x30] ++ [0x0A, 0x09] ++ [0x46, 0x45, 0x20, 0x30, 0x31]) := by
    rw [hdumps]
    exact .cons _ (List.cons_ne_nil _ _)
      (List.forall_mem_cons.2 ⟨rfl, List.forall_mem_singleton.2 rfl⟩) (.single _)
  have hargs : parse args = .disasm ⟨false, false⟩ "a.txt" dumpOptions := by decide +kernel
  obtain ⟨hparse, _, hrun⟩ := dump_reads_back code (by decide) none file hfile
  obtain ⟨hexit, hstdout⟩ := hrun (fun _ => .ok file) args _ _ hargs rfl
  refine ⟨⟨herror, hdumps⟩, ?_, hexit, ?_⟩
  · rw [hparse]
    decide +kernel
  · rw [hstdout]
    decide +kernel

end Cil
