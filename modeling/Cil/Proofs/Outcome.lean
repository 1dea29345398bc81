import Cil.Command.Run
import Cil.Proofs.Composition

/-! What a disassembly prints.

A report takes all that the stream of its code gives, which are the instructions of the
run and its error (`Report.ofCode_eq`), where a listing is given up at the error
(`disassemble_eq_error`). But the code up to the error is complete, with the same
instructions (`decodeAll_upTo`), so that it has a listing. Whichever way the code
was cut out of the file, the lines behind the comments are those of a listing, and the
outcome says whether it is the listing of all the code (`run_prints_listing`). -/
namespace Cil

/-! ### Listings -/

theorem disassemble_eq_ok {r : Resolver} {code : ByteArray} {lines : List Line} :
    disassemble r code = .ok lines ↔ (decodeAll r code).failure = none ∧
      (decodeAll r code).instrs.toList.map (Instr.line r.store.isSome) = lines := by
  simp only [disassemble]
  cases (decodeAll r code).failure <;> simp

theorem disassemble_eq_error {r : Resolver} {code : ByteArray} {e : Error} :
    disassemble r code = .error e ↔ (decodeAll r code).failure = some e := by
  simp only [disassemble]
  cases (decodeAll r code).failure <;> simp

/-- In front of the error that code has, it has a listing: of the instructions before it. -/
theorem disassemble_upTo {r : Resolver} {code : ByteArray} {e : Error} (hsize : code.size ≤ maxAddress)
    (h : disassemble r code = .error e) :
    ∃ address, e.address? = some address ∧ disassemble r (code.extract 0 address) =
      .ok ((decodeAll r code).instrs.toList.map (Instr.line r.store.isSome)) := by
  have htrace := decodeAll_trace r code
  rw [disassemble_eq_error.1 h] at htrace
  obtain ⟨_, cause, _, rfl, _⟩ := htrace.failure_eq hsize
  obtain ⟨hinstrs, hended⟩ := decodeAll_upTo r code
  refine ⟨_, rfl, disassemble_eq_ok.2 ⟨hended, ?_⟩⟩
  rw [hinstrs]

namespace Command

open Text

/-! ### Reports -/

namespace Report

/-- The comments that a report starts with. -/
def comments (header : Option Body) : List String := (header.map headerLines).getD []

theorem isPrefix_of_mem_comments {header : Option Body} {line : String} (h : line ∈ comments header) :
    "// ".toList <+: line.toList := by
  cases header with
  | none => cases h
  | some body =>
    have hline : line ∈ headerLines body := h
    unfold headerLines at hline
    rcases List.mem_cons.1 hline with rfl | hsignature
    · simp only [String.toList_append, List.append_assoc]
      exact List.prefix_append _ _
    · split at hsignature
      · cases hsignature
      · obtain rfl := List.mem_singleton.1 hsignature
        rw [String.toList_append]
        exact (List.prefix_append "// ".toList "local signature ".toList).trans
          (List.prefix_append _ _)

theorem lines_eq (r : Report) :
    r.lines = comments r.header ++ r.entries.map (entryLine (bytesWidth r.entries)) := by
  unfold lines comments
  cases r.header <;> rfl

/-- A stream has one error and nothing behind it, so that gathering its items splits them. -/
theorem foldl_gather (bytes : Bool) (code : ByteArray) (is : List Instr) (failure : Option Error)
    (entries : Array Entry) :
    (itemsOf is failure).foldl (gather bytes code) (entries, none) =
      (entries ++ (is.map (entryOf bytes code)).toArray, failure) := by
  induction is generalizing entries with
  | nil => cases failure <;> simp [itemsOf, gather]
  | cons i rest ih =>
    show (itemsOf rest failure).foldl (gather bytes code) (entries.push (entryOf bytes code i), none) = _
    rw [ih]
    simp

/-- A report has the instructions of the run and its error. -/
theorem ofCode_eq (bytes : Bool) (header : Option Body) (code : ByteArray) :
    ofCode bytes header code =
      { header
        entries := (decodeAll .bare code).instrs.toList.map (entryOf bytes code)
        error := (decodeAll .bare code).failure } := by
  simp only [ofCode, ← Array.foldl_toList, items_eq, foldl_gather]
  simp

/-- Without the column of bytes, a report shows its instructions as a listing does. -/
theorem lines_ofCode (header : Option Body) (code : ByteArray) :
    (ofCode false header code).lines = comments header ++
      ((decodeAll .bare code).instrs.toList.map (Instr.line false)).map Line.toText := by
  rw [lines_eq, ofCode_eq, List.map_map, List.map_map]
  rfl

end Report

/-! ### Outcomes -/

/-- All lines are notes that were made on the way. -/
def IsLog (log : List String) : Prop := ∀ line ∈ log, ∃ level text, line = note level text

theorem IsLog.nil : IsLog [] := List.forall_mem_nil _

theorem IsLog.cons {log : List String} (level text : String) (h : IsLog log) :
    IsLog (note level text :: log) :=
  List.forall_mem_cons.2 ⟨⟨level, text, rfl⟩, h⟩

theorem IsLog.notes {verbose always : List String} (hverbose : IsLog verbose) (halways : IsLog always)
    (g : Globals) : ∃ log, IsLog log ∧ notes g verbose always = unlines log := by
  unfold Command.notes
  split
  · exact ⟨[], .nil, rfl⟩
  · refine ⟨_, ?_, rfl⟩
    intro line hline
    rcases List.mem_append.1 hline with hfirst | hlast
    · split at hfirst
      · exact hverbose line hfirst
      · cases hfirst
    · exact halways line hlast

theorem Failure.report_undecodable (e : Error) :
    (Failure.undecodable e).report = "Error: " ++ e.message ++ "\n" :=
  String.append_empty

/-- A run that reaches the code prints the report on it, and fails exactly with its error. -/
theorem disasmOutcome_eq (g : Globals) (path : String) {o : Options} {file code : ByteArray}
    {header : Option Body} (hcode : o.code file = .ok (header, code)) :
    ∃ log, IsLog log ∧ disasmOutcome g path o (.ok file) =
      { exit := if (decodeAll .bare code).failure.isSome then 1 else 0
        stdout := shown g (Report.ofCode o.bytes header code).lines (Report.ofCode o.bytes header code).json
        stderr := unlines log ++ (decodeAll .bare code).failure.elim "" fun e =>
          "Error: " ++ e.message ++ "\n" } := by
  have herror : (Report.ofCode o.bytes header code).error = (decodeAll .bare code).failure := by
    rw [Report.ofCode_eq]
  simp only [disasmOutcome, hcode, herror]
  -- what the notes on the way say does not matter
  generalize "mapped " ++ path ++ " (" ++ toString file.size ++ " bytes)" = opened
  generalize "decoding " ++ toString code.size ++ " bytes from " ++ path = decoding
  have hverbose : IsLog [note "DEBUG" opened, note "DEBUG" decoding] := .cons _ _ (.cons _ _ .nil)
  cases (decodeAll .bare code).failure with
  | none =>
    obtain ⟨log, hlog, hnotes⟩ := hverbose.notes .nil g
    refine ⟨log, hlog, ?_⟩
    simp only [hnotes]
    exact congrArg (Outcome.mk _ _) String.append_empty.symm
  | some e =>
    obtain ⟨log, hlog, hnotes⟩ := hverbose.notes (.cons "WARN" e.message .nil) g
    refine ⟨log, hlog, ?_⟩
    simp only [hnotes, Failure.report_undecodable]
    rfl

theorem run_eq {files : String → Except Error ByteArray} {args : List String} {g : Globals} {path : String}
    {o : Options} (hargs : parse args = .disasm g path o) :
    run files args = disasmOutcome g path o (files path) := by
  rw [run, hargs]
  rfl

end Command

open Command

/-- **The program prints what a listing holds.** Whatever part of a file a disassembly is asked
for, once it reaches the code its output is the comments on the header and then lines: those
of the listing, if the code has one, and it succeeds; otherwise those of the listing that
the code up to its error has, and it fails with the message of that error. -/
theorem run_prints_listing {files : String → Except Error ByteArray} {args : List String} {g : Globals}
    {path : String} {o : Options} {file code : ByteArray} {header : Option Body}
    (hargs : parse args = .disasm g path o) (htext : g.json = false) (hbytes : o.bytes = false)
    (hfile : files path = .ok file) (hcode : o.code file = .ok (header, code))
    (hsize : code.size ≤ maxAddress) :
    (∀ line ∈ Report.comments header, "// ".toList <+: line.toList) ∧
    (∀ lines, disassemble .bare code = .ok lines →
      (run files args).exit = 0 ∧
        (run files args).stdout = unlines (Report.comments header ++ lines.map Line.toText) ∧
        ∃ log, IsLog log ∧ (run files args).stderr = unlines log) ∧
    (∀ e, disassemble .bare code = .error e →
      ∃ address lines, e.address? = some address ∧
        disassemble .bare (code.extract 0 address) = .ok lines ∧
        (run files args).exit = 1 ∧
        (run files args).stdout = unlines (Report.comments header ++ lines.map Line.toText) ∧
        ∃ log, IsLog log ∧
          (run files args).stderr = unlines log ++ ("Error: " ++ e.message ++ "\n")) := by
  obtain ⟨log, hlog, houtcome⟩ := disasmOutcome_eq g path hcode
  have hstdout : (run files args).stdout = unlines (Report.comments header ++
      ((decodeAll .bare code).instrs.toList.map (Instr.line false)).map Line.toText) := by
    rw [run_eq hargs, hfile, houtcome, hbytes, shown, htext, ← Report.lines_ofCode]
    rfl
  refine ⟨fun line => Report.isPrefix_of_mem_comments, ?_, ?_⟩
  · intro lines hlines
    obtain ⟨hended, rfl⟩ := disassemble_eq_ok.1 hlines
    rw [hended] at houtcome
    refine ⟨?_, hstdout, log, hlog, ?_⟩
    · rw [run_eq hargs, hfile, houtcome]
      rfl
    · rw [run_eq hargs, hfile, houtcome]
      exact String.append_empty
  · intro e herror
    obtain ⟨address, haddress, hupTo⟩ := disassemble_upTo hsize herror
    rw [disassemble_eq_error.1 herror] at houtcome
    refine ⟨address, _, haddress, hupTo, ?_, hstdout, log, hlog, ?_⟩
    · rw [run_eq hargs, hfile, houtcome]
      rfl
    · rw [run_eq hargs, hfile, houtcome]
      rfl

/-- A body of `nop` and an opcode that is not there: one line is printed, and the error. -/
theorem run_prints_listing_unknown :
    let files : String → Except Error ByteArray := fun _ => .ok ⟨#[0x0A, 0x00, 0x24]⟩
    let args := ["disasm", "a.bin", "--body"]
    let e : Error := .decode 1 (.unknownOpcode 0x24)
    (disassemble .bare ⟨#[0x00, 0x24]⟩ = .error e ∧
      disassemble .bare ⟨#[0x00]⟩ = .ok [⟨0, "nop"⟩]) ∧
    (run files args).exit = 1 ∧
    (run files args).stdout =
      "// tiny header, 1 bytes; code size 2; .maxstack 8\nIL_0000: nop\n" ∧
    ∃ log, IsLog log ∧ (run files args).stderr = unlines log ++
      "Error: Failed to decode instruction at IL_0001: Unknown opcode 0x0024\n" := by
  intro files args e
  have hargs : parse args = .disasm ⟨false, false⟩ "a.bin" ⟨true, false, false, none, none⟩ := by
    decide +kernel
  have hcode : Options.code ⟨true, false, false, none, none⟩ ⟨#[0x0A, 0x00, 0x24]⟩ =
      .ok (some (Body.tiny 0x0A), ⟨#[0x00, 0x24]⟩) := rfl
  have hfile : files "a.bin" = .ok ⟨#[0x0A, 0x00, 0x24]⟩ := rfl
  have herror : disassemble .bare ⟨#[0x00, 0x24]⟩ = .error e := by decide +kernel
  have hlisting : disassemble .bare ⟨#[0x00]⟩ = .ok [⟨0, "nop"⟩] := by decide +kernel
  obtain ⟨_, _, hfails⟩ := run_prints_listing hargs rfl rfl hfile hcode (by decide)
  obtain ⟨address, lines, haddress, hlines, hexit, hstdout, hstderr⟩ := hfails e herror
  cases haddress
  cases hlines.symm.trans hlisting
  exact ⟨⟨herror, hlisting⟩, hexit, hstdout, hstderr⟩

end Cil
