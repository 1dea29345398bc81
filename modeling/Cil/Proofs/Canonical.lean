import Cil.Bytes.Cursor
import Cil.Proofs.Compressed

/-! Compressed numbers one behind another.

What is written of a number is the shortest of its spellings, and no other is as
short (`Spells.shortest`). Reading takes one spelling and stops behind it, so numbers
written one behind another are read back in order, whatever stands around them
(`numbers_of_foldlM`). Where nothing can be read, the first byte tells why: it starts
no form, or the bytes end before the form that it announces. -/
namespace Cil

open Bytes

namespace Bytes.Compressed

/-- The greatest number that can be written. -/
def maxValue : Nat := 0x1FFFFFFF

/-! ### The shortest spelling -/

/-- Of the forms that hold a number, the one it is written in has the least width. -/
theorem Form.ofValue?_least {form : Form} (hmem : form ∈ all) {n : Nat} (hlt : n < form.bound) :
    ∃ least, ofValue? n = some least ∧ least.width ≤ form.width ∧ (least.width = form.width → least = form) := by
  simp only [all, List.mem_cons, List.not_mem_nil, or_false] at hmem
  unfold ofValue?
  rcases hmem with rfl | rfl | rfl
  · exact ⟨byteForm, if_pos hlt, Nat.le_refl _, fun _ => rfl⟩
  · by_cases hbyte : n < byteForm.bound
    · exact ⟨byteForm, if_pos hbyte, by decide, by decide⟩
    · rw [if_neg hbyte, if_pos hlt]
      exact ⟨pairForm, rfl, Nat.le_refl _, fun _ => rfl⟩
  · by_cases hbyte : n < byteForm.bound
    · exact ⟨byteForm, if_pos hbyte, by decide, by decide⟩
    · rw [if_neg hbyte]
      by_cases hpair : n < pairForm.bound
      · exact ⟨pairForm, if_pos hpair, by decide, by decide⟩
      · rw [if_neg hpair, if_pos hlt]
        exact ⟨quadForm, rfl, Nat.le_refl _, fun _ => rfl⟩

/-- The greatest bound of a form is the one of all numbers. -/
theorem Form.bound_le {form : Form} (hmem : form ∈ all) : form.bound ≤ maxValue + 1 := by
  revert form
  decide

theorem Spells.le_maxValue {bytes : List UInt8} {n : Nat} (h : Spells bytes n) : n ≤ maxValue := by
  obtain ⟨form, hmem, hlt, _⟩ := h
  have hbound := Form.bound_le hmem
  omega

/-- Every spelling of a number is at least as long as the one that is written, and as long only
if it is that one. -/
theorem Spells.shortest {bytes : List UInt8} {n : Nat} (h : Spells bytes n) :
    ∃ short, encode? n = some short ∧ short.length ≤ bytes.length ∧
      (short.length = bytes.length → short = bytes) := by
  obtain ⟨form, hmem, hlt, rfl⟩ := h
  obtain ⟨least, hleast, hle, heq⟩ := Form.ofValue?_least hmem hlt
  refine ⟨toBE least.width (least.mark + n), by rw [encode?, hleast, Option.map_some], ?_, ?_⟩
  · rwa [length_toBE, length_toBE]
  · intro hlength
    rw [length_toBE, length_toBE] at hlength
    rw [heq hlength]

theorem encode?_of_le {n : Nat} (h : n ≤ maxValue) : ∃ bytes, encode? n = some bytes := by
  have hmem : quadForm ∈ Form.all := by decide
  have hlt : n < quadForm.bound := Nat.lt_succ_of_le h
  obtain ⟨least, hleast, _⟩ := Form.ofValue?_least hmem hlt
  exact ⟨_, by rw [encode?, hleast, Option.map_some]⟩

theorem encode?_of_gt {n : Nat} (h : maxValue < n) : encode? n = none := by
  cases hbytes : encode? n with
  | none => rfl
  | some bytes => exact absurd (spells_encode? hbytes).le_maxValue (Nat.not_le.2 h)

/-! ### Why nothing can be read -/

theorem Form.ofLead?_eq_none {lead : UInt8} : ofLead? lead = none ↔ 0xE0 ≤ lead.toNat := by
  unfold ofLead?
  grind

theorem read_eq_lead {data : ByteArray} {pos : Nat} {lead : UInt8} :
    read data pos = .error (.lead lead) ↔ byte? data pos = some lead ∧ 0xE0 ≤ lead.toNat := by
  rw [← Form.ofLead?_eq_none]
  unfold read
  cases byte? data pos with
  | none => simp
  | some first =>
    cases hform : Form.ofLead? first with
    | none =>
      simp only [hform, Except.error.injEq, Fault.lead.injEq, Option.some.injEq]
      constructor
      · rintro rfl
        exact ⟨rfl, hform⟩
      · exact And.left
    | some form =>
      simp only [hform, Option.some.injEq]
      constructor
      · intro h
        split at h <;> cases h
      · rintro ⟨rfl, hnone⟩
        cases hform.symm.trans hnone

/-- The bytes end in front of the number, or inside the form that its first byte announces. -/
theorem read_eq_short {data : ByteArray} {pos : Nat} :
    read data pos = .error .short ↔
      byte? data pos = none ∨
        ∃ lead form, byte? data pos = some lead ∧ Form.ofLead? lead = some form ∧ data.size - pos < form.width := by
  unfold read
  cases hlead : byte? data pos with
  | none => simp
  | some lead =>
    have hpos : pos < data.size := lt_size_of_byte? hlead
    cases hform : Form.ofLead? lead with
    | none => simp [hform]
    | some form =>
      cases hw : window? data pos form.width with
      | none =>
        have hshort := window?_eq_none.1 hw
        simp [hform, hw]
        omega
      | some w =>
        have hfits := (window?_eq_some.1 hw).1
        simp [hform, hw]
        omega

end Bytes.Compressed

open Compressed

/-! ### Writing -/

theorem Bytes.pushCompressed_eq_ok {buffer written : ByteArray} {n : Nat} :
    pushCompressed buffer n = .ok written ↔
      ∃ bytes, encode? n = some bytes ∧ octets written = octets buffer ++ bytes := by
  unfold pushCompressed
  cases encode? n with
  | none => simp
  | some bytes =>
    simp only [Except.ok.injEq, Option.some.injEq, exists_eq_left', ← octets_inj, octets_append,
      octets_toByteArray, eq_comm]

theorem Bytes.pushCompressed_of_le {n : Nat} (h : n ≤ maxValue) (buffer : ByteArray) :
    ∃ written, pushCompressed buffer n = .ok written := by
  obtain ⟨bytes, hbytes⟩ := encode?_of_le h
  exact ⟨buffer ++ bytes.toByteArray, by simp only [pushCompressed, hbytes]⟩

theorem Bytes.pushCompressed_of_gt {n : Nat} (h : maxValue < n) (buffer : ByteArray) :
    pushCompressed buffer n = .error (.malformed (.notCompressible n)) := by
  simp only [pushCompressed, encode?_of_gt h]

theorem Bytes.foldlM_pushCompressed {values : List Nat} (h : ∀ n ∈ values, n ≤ maxValue) (buffer : ByteArray) :
    ∃ written, values.foldlM pushCompressed buffer = .ok written := by
  induction values generalizing buffer with
  | nil => exact ⟨buffer, rfl⟩
  | cons n rest ih =>
    obtain ⟨hn, hrest⟩ := List.forall_mem_cons.1 h
    obtain ⟨next, hnext⟩ := pushCompressed_of_le hn buffer
    obtain ⟨written, hwritten⟩ := ih hrest next
    exact ⟨written, by rw [List.foldlM_cons]; exact bind_eq_ok.2 ⟨next, hnext, hwritten⟩⟩

/-! ### Reading -/

namespace Cursor

theorem compressed_eq_ok {c c' : Cursor} {n : Nat} :
    c.compressed = .ok (n, c') ↔
      ∃ bytes, Spells bytes n ∧ bytes <+: ahead c.data c.pos ∧ c' = c.advance bytes.length := by
  unfold compressed
  constructor
  · intro h
    split at h
    · next hread =>
      cases h
      obtain ⟨bytes, hspells, rfl, hahead⟩ := read_eq_ok.1 hread
      exact ⟨bytes, hspells, hahead, rfl⟩
    · cases h
    · cases h
  · rintro ⟨bytes, hspells, hahead, rfl⟩
    rw [read_of_spells hspells hahead]

/-- Nothing is read where the bytes end too soon, or where no number starts. -/
theorem compressed_eq_error {c : Cursor} {e : Error} :
    c.compressed = .error e ↔
      (e = .outOfBounds ∧ (byte? c.data c.pos = none ∨ ∃ lead form, byte? c.data c.pos = some lead ∧
        Form.ofLead? lead = some form ∧ c.remaining < form.width)) ∨
      ∃ lead, byte? c.data c.pos = some lead ∧ 0xE0 ≤ lead.toNat ∧
        e = .malformed (.compressedLead lead.toNat c.pos) := by
  have hcauses : c.compressed = .error e ↔
      (e = .outOfBounds ∧ read c.data c.pos = .error .short) ∨
        ∃ lead, read c.data c.pos = .error (.lead lead) ∧
          e = .malformed (.compressedLead lead.toNat c.pos) := by
    unfold compressed
    rcases read c.data c.pos with (_ | lead) | ⟨n, width⟩ <;> simp [eq_comm]
  simp only [hcauses, read_eq_short, read_eq_lead, remaining, and_assoc]

/-- The next `count` numbers, and the cursor behind them. -/
def numbers (c : Cursor) : Nat → Except Error (List Nat × Cursor)
  | 0 => .ok ([], c)
  | count + 1 => do
    let (n, c) ← c.compressed
    let (rest, c) ← c.numbers count
    return (n :: rest, c)

theorem numbers_succ {c c₁ c₂ : Cursor} {n count : Nat} {rest : List Nat}
    (hfirst : c.compressed = .ok (n, c₁)) (hrest : c₁.numbers count = .ok (rest, c₂)) :
    c.numbers (count + 1) = .ok (n :: rest, c₂) := by
  rw [numbers]
  exact bind_eq_ok.2 ⟨_, hfirst, bind_eq_ok.2 ⟨_, hrest, rfl⟩⟩

/-- What was written behind a buffer is read from where that ended, and no further. -/
theorem numbers_of_foldlM {buffer written : ByteArray} {values : List Nat}
    (h : values.foldlM pushCompressed buffer = .ok written) (more : ByteArray) :
    octets buffer <+: octets written ∧
      numbers ⟨written ++ more, buffer.size⟩ values.length = .ok (values, ⟨written ++ more, written.size⟩) := by
  induction values generalizing buffer with
  | nil =>
    cases h
    exact ⟨List.prefix_rfl, rfl⟩
  | cons n rest ih =>
    rw [List.foldlM_cons] at h
    obtain ⟨next, hnext, hrest⟩ := bind_eq_ok.1 h
    obtain ⟨hkept, hnumbers⟩ := ih hrest
    obtain ⟨bytes, hbytes, hoctets⟩ := pushCompressed_eq_ok.1 hnext
    rw [hoctets] at hkept
    have hsize : next.size = buffer.size + bytes.length := by
      rw [← length_octets, hoctets, List.length_append, length_octets]
    -- the first number lies where the buffer ended, in front of the others and of what follows
    have hahead : bytes <+: ahead (written ++ more) buffer.size := by
      have hall : octets buffer ++ bytes <+: octets (written ++ more) := by
        rw [octets_append]
        exact hkept.trans (List.prefix_append _ _)
      simpa [ahead, ← length_octets] using hall.drop buffer.size
    have hfirst : compressed ⟨written ++ more, buffer.size⟩ = .ok (n, advance _ bytes.length) :=
      compressed_eq_ok.2 ⟨bytes, spells_encode? hbytes, hahead, rfl⟩
    refine ⟨(List.prefix_append _ _).trans hkept, numbers_succ hfirst ?_⟩
    rw [advance, ← hsize]
    exact hnumbers

/-- A number that is read is the writer's own spelling, or a longer one. -/
theorem compressed_canonical {c c' : Cursor} {n : Nat} (h : c.compressed = .ok (n, c')) :
    n ≤ maxValue ∧ ∃ width short, c' = c.advance width ∧ pushCompressed .empty n = .ok short ∧
      short.size ≤ width ∧ (short.size = width → short = c.data.extract c.pos c'.pos) := by
  obtain ⟨bytes, hspells, hahead, rfl⟩ := compressed_eq_ok.1 h
  obtain ⟨short, hshort, hle, heq⟩ := hspells.shortest
  refine ⟨hspells.le_maxValue, bytes.length, short.toByteArray, rfl, ?_, ?_, ?_⟩
  · refine pushCompressed_eq_ok.2 ⟨short, hshort, ?_⟩
    rw [octets_toByteArray]
    rfl
  · rwa [← length_octets, octets_toByteArray]
  · rw [← length_octets, octets_toByteArray]
    intro hlength
    apply octets_inj.1
    rw [octets_toByteArray, heq hlength]
    exact (octets_extract_of_isPrefix hahead).symm

end Cursor

/-- What becomes of a buffer when a number is to be written at its end: the answer, and the
buffer afterwards. -/
def Bytes.attempt (buffer : ByteArray) (n : Nat) : Except Error Unit × ByteArray :=
  match pushCompressed buffer n with
  | .ok written => (.ok (), written)
  | .error e => (.error e, buffer)

/-- **Compressed numbers delimit themselves, and are written in one way.** Numbers written one
behind another, whatever stands before and behind them, are read back in order up to the end
of the last. Only a number that is too large is not written, and then nothing is. What is
read, wherever it stands, is a number that could have been written, in no fewer bytes than
that takes, and in just as many only if they are those bytes. Nothing is read where the first
byte is no start, or where the bytes end before the number that the first one announces. -/
theorem compressed_selfDelimiting :
    (∀ (buffer more : ByteArray) (values : List Nat), (∀ n ∈ values, n ≤ maxValue) →
      ∃ written, values.foldlM pushCompressed buffer = .ok written ∧ octets buffer <+: octets written ∧
        Cursor.numbers ⟨written ++ more, buffer.size⟩ values.length =
          .ok (values, ⟨written ++ more, written.size⟩)) ∧
    (∀ (buffer : ByteArray) (n : Nat),
      ((attempt buffer n).1 = .ok () ↔ n ≤ maxValue) ∧
      (maxValue < n → attempt buffer n = (.error (.malformed (.notCompressible n)), buffer))) ∧
    (∀ (c c' : Cursor) (n : Nat), c.compressed = .ok (n, c') →
      n ≤ maxValue ∧ ∃ width short, c' = c.advance width ∧ pushCompressed .empty n = .ok short ∧
        short.size ≤ width ∧ (short.size = width → short = c.data.extract c.pos c'.pos)) ∧
    (∀ (c : Cursor) (e : Error), c.compressed = .error e ↔
      (e = .outOfBounds ∧ (byte? c.data c.pos = none ∨ ∃ lead form, byte? c.data c.pos = some lead ∧
        Form.ofLead? lead = some form ∧ c.remaining < form.width)) ∨
      ∃ lead, byte? c.data c.pos = some lead ∧ 0xE0 ≤ lead.toNat ∧
        e = .malformed (.compressedLead lead.toNat c.pos)) := by
  refine ⟨?_, ?_, ?_, ?_⟩
  · intro buffer more values hvalues
    obtain ⟨written, hwritten⟩ := foldlM_pushCompressed hvalues buffer
    exact ⟨written, hwritten, Cursor.numbers_of_foldlM hwritten more⟩
  · intro buffer n
    by_cases hn : n ≤ maxValue
    · obtain ⟨written, hwritten⟩ := pushCompressed_of_le hn buffer
      simp only [attempt, hwritten, hn, true_and]
      intro hgt
      omega
    · have hgt := pushCompressed_of_gt (Nat.lt_of_not_le hn) buffer
      simp [attempt, hgt, hn]
  · intro c c' n
    exact Cursor.compressed_canonical
  · intro c e
    exact Cursor.compressed_eq_error

/-- The numbers on both sides of every change of form, behind a byte that starts none and in
front of the same: they take thirteen bytes, and the cursor stops behind the last of them. -/
theorem compressed_selfDelimiting_bounds :
    let values := [0x7F, 0x80, 0x3FFF, 0x4000, 0x1FFFFFFF]
    let edge : ByteArray := ⟨#[0xE0]⟩
    (∀ n ∈ values, n ≤ maxValue) ∧
    ∃ written, values.foldlM pushCompressed edge = .ok written ∧ written.size = 14 ∧
      Cursor.numbers ⟨written ++ edge, 1⟩ 5 = .ok (values, ⟨written ++ edge, 14⟩) := by
  intro values edge
  have hvalues : ∀ n ∈ values, n ≤ maxValue := by decide
  obtain ⟨written, hwritten, _, hnumbers⟩ := compressed_selfDelimiting.1 edge edge values hvalues
  have hsize : written.size = 14 := by
    cases hwritten
    rfl
  rw [hsize] at hnumbers
  exact ⟨hvalues, written, hwritten, hsize, hnumbers⟩

end Cil
