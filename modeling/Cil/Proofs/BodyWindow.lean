import Cil.Proofs.Digits
import Cil.Proofs.Header
import Cil.Proofs.Outcome

/-! The code of a body as a window of its file.

The code of a body lies behind the header in the window that was selected, so it is a
window of the whole data too (`Options.code_of_body`), and selecting that one gives the
same code without looking at a header (`Options.code_of_direct`). What is reported of
code depends on the code alone, so both disassemblies report the same
(`body_is_window`). -/
namespace Cil

open Bytes Text

namespace Command

/-- A part of a window is a window. -/
theorem extract_window (data : ByteArray) {start count first last : Nat} (h : last ≤ count) :
    (data.extract start (start + count)).extract first last = data.extract (start + first) (start + last) := by
  rw [ByteArray.extract_extract, Nat.min_eq_left (by omega)]

/-! ### The code of a body -/

/-- The options of a disassembly, but for the code that lies at an offset. -/
def Options.direct (o : Options) (offset length : String) : Options :=
  { o with body := false, offset := some offset, length := some length }

theorem Options.cut_of_parse {o : Options} {window : ByteArray} {b : Body} (hbody : o.body = true)
    (hparse : Body.parse window = .ok b) :
    o.cut window = .ok (some b, window.extract b.headerSize (b.headerSize + b.codeSize)) := by
  simp only [cut, hbody, if_true, hparse, (Body.standalone hparse).code]

section
variable {o : Options} {file data window : ByteArray} {b : Body} {start : Nat}
variable (hbody : o.body = true) (hinput : o.input file = .ok data) (hstart : number o.offset 0 = .ok start)
variable (hselect : select o.offset o.length data = .ok window) (hparse : Body.parse window = .ok b)
include hbody hinput hstart hselect hparse

/-- The code of a body lies behind the header, inside the data. -/
theorem Options.code_of_body :
    start + b.headerSize + b.codeSize ≤ data.size ∧
      o.code file = .ok (some b, data.extract (start + b.headerSize) (start + b.headerSize + b.codeSize)) := by
  obtain ⟨start', count, hstart', _, hend, rfl⟩ := select_eq_ok.1 hselect
  cases hstart.symm.trans hstart'
  have hinside := (Body.standalone hparse).inside
  rw [ByteArray.size_extract] at hinside
  refine ⟨by omega, code_eq_ok.2 ⟨data, _, hinput, hselect, ?_⟩⟩
  rw [cut_of_parse hbody hparse, extract_window data (by omega), Nat.add_assoc]

theorem Options.code_of_direct {offset length : String} (hoffset : Numeral.parse offset = .ok (start + b.headerSize))
    (hlength : Numeral.parse length = .ok b.codeSize) :
    (o.direct offset length).code file =
      .ok (none, data.extract (start + b.headerSize) (start + b.headerSize + b.codeSize)) := by
  obtain ⟨hend, _⟩ := code_of_body hbody hinput hstart hselect hparse
  refine code_eq_ok.2 ⟨data, _, hinput, select_eq_ok.2 ⟨_, _, ?_, ?_, hend, rfl⟩, rfl⟩
  · exact number_eq_ok.2 (.inr ⟨offset, rfl, hoffset⟩)
  · exact number_eq_ok.2 (.inr ⟨length, rfl, hlength⟩)

end

/-! ### What is shown of it -/

theorem unlines_append (a b : List String) : unlines (a ++ b) = unlines a ++ unlines b := by
  simp [unlines]

/-- The outcomes of two disassemblies of the same code differ only by the comments. -/
theorem disasmOutcome_of_code {o o' : Options} {file code : ByteArray} {b : Body} (hbytes : o'.bytes = o.bytes)
    (hcode : o.code file = .ok (some b, code)) (hcode' : o'.code file = .ok (none, code))
    (g : Globals) (path : String) :
    (disasmOutcome g path o (.ok file)).exit = (disasmOutcome g path o' (.ok file)).exit ∧
    (disasmOutcome g path o (.ok file)).stderr = (disasmOutcome g path o' (.ok file)).stderr ∧
    (g.json = false → (disasmOutcome g path o (.ok file)).stdout =
      unlines (Report.headerLines b) ++ (disasmOutcome g path o' (.ok file)).stdout) := by
  have herror (bytes : Bool) (header : Option Body) :
      (Report.ofCode bytes header code).error = (decodeAll .bare code).failure := by
    rw [Report.ofCode_eq]
  have hlines : (Report.ofCode o.bytes (some b) code).lines =
      Report.headerLines b ++ (Report.ofCode o.bytes none code).lines := rfl
  simp only [disasmOutcome, hcode, hcode', hbytes, herror]
  cases (decodeAll .bare code).failure with
  | none => exact ⟨rfl, rfl, fun hjson => by simp [shown, hjson, hlines, unlines_append]⟩
  | some e => exact ⟨rfl, rfl, fun hjson => by simp [shown, hjson, hlines, unlines_append]⟩

end Command

open Command

/-- **The code of a body is a window of its file.** Where a disassembly finds a body, the same
one without a header, from the offset behind the header on and as long as the code, is
accepted, however the two numbers are spelled, and decodes the same code. So it reports the
same entries and the same error, if there is one, and its outcome is the same but for the
comments on the header. -/
theorem body_is_window {o : Options} {file data window : ByteArray} {b : Body} {start : Nat}
    (hbody : o.body = true) (hinput : o.input file = .ok data) (hstart : number o.offset 0 = .ok start)
    (hselect : select o.offset o.length data = .ok window) (hparse : Body.parse window = .ok b) :
    (data.size < Numeral.bound →
      Numeral.parse (toString (start + b.headerSize)) = .ok (start + b.headerSize) ∧
        Numeral.parse (toString b.codeSize) = .ok b.codeSize) ∧
    ∀ offset length, Numeral.parse offset = .ok (start + b.headerSize) →
      Numeral.parse length = .ok b.codeSize →
      ∃ code, select (some offset) (some length) data = .ok code ∧
        o.code file = .ok (some b, code) ∧ (o.direct offset length).code file = .ok (none, code) ∧
        (Report.ofCode o.bytes (some b) code).entries =
          (Report.ofCode (o.direct offset length).bytes none code).entries ∧
        (Report.ofCode o.bytes (some b) code).error =
          (Report.ofCode (o.direct offset length).bytes none code).error ∧
        ∀ g path,
          let whole := disasmOutcome g path o (.ok file)
          let direct := disasmOutcome g path (o.direct offset length) (.ok file)
          whole.exit = direct.exit ∧ whole.stderr = direct.stderr ∧
            (g.json = false → whole.stdout = unlines (Report.headerLines b) ++ direct.stdout) := by
  obtain ⟨hend, hcode⟩ := Options.code_of_body hbody hinput hstart hselect hparse
  refine ⟨fun hsize => ⟨Numeral.parse_toString (by omega), Numeral.parse_toString (by omega)⟩, ?_⟩
  intro offset length hoffset hlength
  have hdirect := Options.code_of_direct hbody hinput hstart hselect hparse hoffset hlength
  obtain ⟨data', code, hinput', hselect', hcut⟩ := Options.code_eq_ok.1 hdirect
  cases hinput.symm.trans hinput'
  cases hcut
  exact ⟨_, hselect', hcode, hdirect, rfl, rfl, disasmOutcome_of_code rfl hcode hdirect⟩

/-- A tiny body behind a byte that is skipped: its code is two bytes, which end inside an
instruction, and a byte that is no longer its own follows. -/
theorem body_is_window_tiny :
    let file : ByteArray := ⟨#[0xFF, 0x0A, 0x00, 0x20, 0xFF]⟩
    let o : Options := ⟨true, false, true, some "1", none⟩
    let code := file.extract 2 4
    Body.parse (file.extract 1 5) = .ok (.tiny 0x0A) ∧
      o.code file = .ok (some (.tiny 0x0A), code) ∧ (o.direct "0x2" "2").code file = .ok (none, code) ∧
      (Report.ofCode true (some (.tiny 0x0A)) code).error = (Report.ofCode true none code).error ∧
      (Report.ofCode true none code).error = some (.decode 1 .truncated) := by
  intro file o code
  have hstart : number o.offset 0 = .ok 1 := by decide +kernel
  have hselect : select o.offset o.length file = .ok (file.extract 1 5) := by
    exact select_eq_ok.2 ⟨1, 4, hstart, number_eq_ok.2 (.inl ⟨rfl, rfl⟩), by decide, rfl⟩
  have hparse : Body.parse (file.extract 1 5) = .ok (.tiny 0x0A) := by decide +kernel
  have hoffset : Numeral.parse "0x2" = .ok 2 := by decide +kernel
  have hlength : Numeral.parse "2" = .ok 2 := by decide +kernel
  have hwindow := (body_is_window rfl rfl hstart hselect hparse).2 "0x2" "2" hoffset hlength
  obtain ⟨found, hfound, hbody, hdirect, _, herror, _⟩ := hwindow
  have hcode : select (some "0x2") (some "2") file = .ok code := by
    refine select_eq_ok.2 ⟨2, 2, ?_, ?_, by decide, rfl⟩
    · exact number_eq_ok.2 (.inr ⟨_, rfl, hoffset⟩)
    · exact number_eq_ok.2 (.inr ⟨_, rfl, hlength⟩)
  cases hfound.symm.trans hcode
  exact ⟨hparse, hbody, hdirect, herror, by decide +kernel⟩

end Cil
