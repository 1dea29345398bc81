import Cil.Proofs.Fetch
import Cil.Proofs.Selection
import Mathlib.Data.Nat.Bitwise

/-! The grammar of method bodies.

The two low bits of the first byte say which header a body has, and the header says
which body there is (`Announces`). What can go wrong is said beside it: no header can
be made of the bytes (`Misshapen`), or they end inside a fat one (`Cut`). Every data
is one of these (`announced`), so what is announced decides the answer, up to whether
the data holds it all (`parse_of_announces`). A header does not look beyond its own
bytes (`Announces.extract`), so a body stands for itself: whatever follows it can be
cut off, and without a part of it there is no body. -/
namespace Cil

open Bytes

/-! ### Bytes at the start of data -/

namespace Bytes

/-- The number in the `width` bytes at `pos`. -/
def field (data : ByteArray) (pos width : Nat) : Nat := ofLE ((ahead data pos).take width)

theorem byte?_extract (data : ByteArray) {i n : Nat} (h : i < n) :
    byte? (data.extract 0 n) i = byte? data i := by
  rw [byte?_eq, byte?_eq, octets_extract, List.drop_zero, List.getElem?_take_of_lt h]

theorem field_extract (data : ByteArray) {pos width n : Nat} (h : pos + width ≤ n) :
    field (data.extract 0 n) pos width = field data pos width := by
  rw [field, field, ahead, octets_extract, List.drop_zero, List.drop_take, List.take_take,
    Nat.min_eq_left (by omega), ahead]

theorem field_of_window? {data w : ByteArray} {count pos width : Nat} (hw : window? data 0 count = some w)
    (h : pos + width ≤ count) : ofLE (((octets w).drop pos).take width) = field data pos width := by
  rw [octets_of_window? hw, List.drop_take, List.take_take, Nat.min_eq_left (by omega), drop_ahead,
    Nat.zero_add, field]

/-- The first two bytes as one number. -/
theorem field_zero_two {data : ByteArray} {first second : UInt8} (hfirst : byte? data 0 = some first)
    (hsecond : byte? data 1 = some second) : field data 0 2 = 256 * second.toNat + first.toNat := by
  rw [field, ahead_of_byte? hfirst, ahead_of_byte? hsecond]
  simp only [List.take_succ_cons, List.take_zero, ofLE]
  omega

theorem and_three_eq (b n : UInt8) : b &&& 3 = n ↔ b.toNat % 4 = n.toNat := by
  rw [← UInt8.toNat_inj, UInt8.toNat_and]
  exact Eq.congr_left (Nat.and_two_pow_sub_one_eq_mod b.toNat 2)

theorem toNat_shiftRight_two (b : UInt8) : (b >>> 2).toNat = b.toNat / 4 := by
  rw [UInt8.toNat_shiftRight]
  exact Nat.shiftRight_eq_div_pow b.toNat 2

theorem toNat_shiftRight_four (b : UInt8) : (b >>> 4).toNat = b.toNat / 16 := by
  rw [UInt8.toNat_shiftRight]
  exact Nat.shiftRight_eq_div_pow b.toNat 4

/-- A bit of the low byte of two. -/
theorem testBit_low (low high : UInt8) {i : Nat} (hi : i < 8) {mask : UInt8} (hmask : mask.toNat = 1 <<< i) :
    (256 * high.toNat + low.toNat).testBit i = decide (low &&& mask ≠ 0) := by
  have hlow : (256 * high.toNat + low.toNat).testBit i = low.toNat.testBit i := by
    have h := Nat.testBit_two_pow_mul_add high.toNat (i := 8) low.toNat_lt i
    rwa [if_pos hi] at h
  have hmasked : low &&& mask ≠ 0 ↔ low.toNat.testBit i = true := by
    rw [ne_eq, ← UInt8.toNat_inj, UInt8.toNat_and, hmask, Nat.one_shiftLeft, Nat.and_two_pow]
    cases low.toNat.testBit i <;> simp
  rw [hlow, Bool.eq_iff_iff, decide_eq_true_iff]
  exact hmasked.symm

end Bytes

namespace Body

/-! ### What the bytes announce -/

/-- The body that a tiny header is for, which is only a byte. -/
def ofTiny (first : UInt8) : Body where
  headerSize := 1
  codeSize := (first >>> 2).toNat
  maxStack := 8
  localSignature := ⟨0⟩
  isFat := false
  initLocals := false
  hasSections := false

/-- The body that a fat header with these first bytes is for. -/
def ofFat (data : ByteArray) (first second : UInt8) : Body where
  headerSize := 4 * (second >>> 4).toNat
  codeSize := field data 4 4
  maxStack := field data 2 2
  localSignature := ⟨UInt32.ofNat (field data 8 4)⟩
  isFat := true
  initLocals := first &&& 0x10 ≠ 0
  hasSections := first &&& 0x08 ≠ 0

/-- The header at the start of the data is for this body, whether or not the data holds it all. -/
inductive Announces (data : ByteArray) : Body → Prop where
  | tiny {first : UInt8} : byte? data 0 = some first → first &&& 3 = 2 → Announces data (ofTiny first)
  | fat {first second : UInt8} : byte? data 0 = some first → byte? data 1 = some second →
    first &&& 3 = 3 → 12 ≤ data.size → 12 ≤ (ofFat data first second).headerSize →
    Announces data (ofFat data first second)

/-- No header can be made of the data: there is none, it is of no known kind, or it says that it
is smaller than its fields. -/
inductive Misshapen (data : ByteArray) : Malformation → Prop where
  | empty : data.size = 0 → Misshapen data .emptyBody
  | unknown {first : UInt8} : byte? data 0 = some first → first &&& 3 = 0 ∨ first &&& 3 = 1 →
    Misshapen data (.unknownHeader first.toNat)
  | small {first second : UInt8} : byte? data 0 = some first → byte? data 1 = some second →
    first &&& 3 = 3 → 12 ≤ data.size → (ofFat data first second).headerSize < 12 →
    Misshapen data (.headerTooSmall (ofFat data first second).headerSize)

/-- The data ends inside the fields of a fat header. -/
def Cut (data : ByteArray) : Prop := data.size < 12 ∧ ∃ first, byte? data 0 = some first ∧ first &&& 3 = 3

/-- Data announces a body, or none can be made of it, or it is cut. -/
theorem announced (data : ByteArray) :
    (∃ b, Announces data b) ∨ (∃ what, Misshapen data what) ∨ Cut data := by
  cases hfirst : byte? data 0 with
  | none => exact .inr (.inl ⟨_, .empty (Nat.le_zero.1 (byte?_eq_none.1 hfirst))⟩)
  | some first =>
    have hcases : first.toNat % 4 = 0 ∨ first.toNat % 4 = 1 ∨ first.toNat % 4 = 2 ∨ first.toNat % 4 = 3 := by
      omega
    rcases hcases with h | h | h | h
    · exact .inr (.inl ⟨_, .unknown hfirst (.inl ((and_three_eq _ 0).2 h))⟩)
    · exact .inr (.inl ⟨_, .unknown hfirst (.inr ((and_three_eq _ 1).2 h))⟩)
    · exact .inl ⟨_, .tiny hfirst ((and_three_eq _ 2).2 h)⟩
    · have hfat : first &&& 3 = 3 := (and_three_eq _ 3).2 h
      by_cases hsize : data.size < 12
      · exact .inr (.inr ⟨hsize, first, hfirst, hfat⟩)
      · obtain ⟨second, hsecond⟩ := exists_byte? (show 1 < data.size by omega)
        by_cases hheader : (ofFat data first second).headerSize < 12
        · exact .inr (.inl ⟨_, .small hfirst hsecond hfat (by omega) hheader⟩)
        · exact .inl ⟨_, .fat hfirst hsecond hfat (by omega) (by omega)⟩

/-! ### What is announced decides the answer -/

theorem tiny_eq (first : UInt8) : tiny first.toNat = ofTiny first := by
  rw [tiny, ofTiny, toNat_shiftRight_two]

theorem fat_eq {data fields : ByteArray} {first second : UInt8} (hw : window? data 0 fatFields = some fields)
    (hfirst : byte? data 0 = some first) (hsecond : byte? data 1 = some second) :
    fat (octets fields) = ofFat data first second := by
  have hflags : ofLE ((octets fields).take 2) = 256 * second.toNat + first.toNat := by
    show ofLE (((octets fields).drop 0).take 2) = _
    rw [field_of_window? hw (by decide), field_zero_two hfirst hsecond]
  have hstack : ofLE (((octets fields).drop 2).take 2) = field data 2 2 := field_of_window? hw (by decide)
  have hcode : ofLE (((octets fields).drop 4).take 4) = field data 4 4 := field_of_window? hw (by decide)
  have hlocals : ofLE (((octets fields).drop 8).take 4) = field data 8 4 := field_of_window? hw (by decide)
  have hwords : (256 * second.toNat + first.toNat) / 0x1000 = (second >>> 4).toNat := by
    have hlt : first.toNat < 256 := first.toNat_lt
    rw [toNat_shiftRight_four]
    omega
  have hinit : (256 * second.toNat + first.toNat).testBit 4 = decide (first &&& 0x10 ≠ 0) :=
    testBit_low first second (by decide) rfl
  have hsections : (256 * second.toNat + first.toNat).testBit 3 = decide (first &&& 0x08 ≠ 0) :=
    testBit_low first second (by decide) rfl
  simp only [fat, ofFat, hflags, hstack, hcode, hlocals, hwords, hinit, hsections]

/-- With its fields there, a fat header is refused for its size alone. -/
theorem parse_of_fat {data : ByteArray} {first second : UInt8} (hfirst : byte? data 0 = some first)
    (hsecond : byte? data 1 = some second) (hfat : first &&& 3 = 3) (hsize : 12 ≤ data.size) :
    parse data =
      if (ofFat data first second).headerSize < 12 then
        .error (.malformed (.headerTooSmall (ofFat data first second).headerSize))
      else (ofFat data first second).within data := by
  have hkind : first.toNat % 4 = 3 := (and_three_eq _ _).1 hfat
  have hw : window? data 0 fatFields = some (data.extract 0 (0 + fatFields)) :=
    window?_eq_some.2 ⟨by rwa [fatFields, Nat.zero_add], rfl⟩
  simp only [parse, hfirst, hw, fat_eq hw hfirst hsecond, hkind]
  rfl

/-- The body that is announced is the answer, if the data holds it all. -/
theorem parse_of_announces {data : ByteArray} {b : Body} (h : Announces data b) : parse data = b.within data := by
  cases h with
  | @tiny first hfirst htiny =>
    have hkind : first.toNat % 4 = 2 := (and_three_eq _ _).1 htiny
    simp only [parse, hfirst, hkind, if_true, tiny_eq]
  | fat hfirst hsecond hfat hsize hheader =>
    rw [parse_of_fat hfirst hsecond hfat hsize, if_neg (Nat.not_lt.2 hheader)]

theorem parse_of_misshapen {data : ByteArray} {what : Malformation} (h : Misshapen data what) :
    parse data = .error (.malformed what) := by
  cases h with
  | empty hsize =>
    have hnone : byte? data 0 = none := byte?_eq_none.2 (Nat.le_of_eq hsize)
    simp only [parse, hnone]
  | @unknown first hfirst hunknown =>
    have hkind : first.toNat % 4 = 0 ∨ first.toNat % 4 = 1 :=
      hunknown.imp (and_three_eq _ _).1 (and_three_eq _ _).1
    simp only [parse, hfirst]
    rw [if_neg (by omega), if_neg (by omega)]
  | small hfirst hsecond hfat hsize hheader =>
    rw [parse_of_fat hfirst hsecond hfat hsize, if_pos hheader]

theorem parse_of_cut {data : ByteArray} (h : Cut data) : parse data = .error .outOfBounds := by
  obtain ⟨hsize, first, hfirst, hfat⟩ := h
  have hkind : first.toNat % 4 = 3 := (and_three_eq _ _).1 hfat
  have hnone : window? data 0 fatFields = none := window?_eq_none.2 (by rwa [fatFields, Nat.zero_add])
  simp only [parse, hfirst, hnone, hkind]
  rfl

theorem within_of_le {b : Body} {data : ByteArray} (h : b.size ≤ data.size) : b.within data = .ok b := if_pos h

theorem within_of_lt {b : Body} {data : ByteArray} (h : data.size < b.size) :
    b.within data = .error .outOfBounds :=
  if_neg (Nat.not_le.2 h)

theorem parse_eq_ok {data : ByteArray} {b : Body} :
    parse data = .ok b ↔ Announces data b ∧ b.size ≤ data.size := by
  constructor
  · intro h
    rcases announced data with ⟨b', hb'⟩ | ⟨what, hwhat⟩ | hcut
    · rw [parse_of_announces hb', within] at h
      split at h
      · next hsize =>
        cases h
        exact ⟨hb', hsize⟩
      · cases h
    · cases (parse_of_misshapen hwhat).symm.trans h
    · cases (parse_of_cut hcut).symm.trans h
  · rintro ⟨hb, hsize⟩
    rw [parse_of_announces hb, within_of_le hsize]

theorem parse_eq_malformed {data : ByteArray} {what : Malformation} :
    parse data = .error (.malformed what) ↔ Misshapen data what := by
  constructor
  · intro h
    rcases announced data with ⟨b, hb⟩ | ⟨what', hwhat'⟩ | hcut
    · rw [parse_of_announces hb, within] at h
      split at h <;> cases h
    · cases (parse_of_misshapen hwhat').symm.trans h
      exact hwhat'
    · cases (parse_of_cut hcut).symm.trans h
  · exact parse_of_misshapen

/-- In every other case the data ends too soon. -/
theorem parse_eq_outOfBounds {data : ByteArray} :
    parse data = .error .outOfBounds ↔
      (∀ b, ¬ (Announces data b ∧ b.size ≤ data.size)) ∧ ∀ what, ¬ Misshapen data what := by
  constructor
  · intro h
    refine ⟨fun b hb => ?_, fun what hwhat => ?_⟩
    · cases (parse_eq_ok.2 hb).symm.trans h
    · cases (parse_of_misshapen hwhat).symm.trans h
  · rintro ⟨hnot, hshapen⟩
    rcases announced data with ⟨b, hb⟩ | ⟨what, hwhat⟩ | hcut
    · rw [parse_of_announces hb, within_of_lt]
      exact Nat.lt_of_not_le fun hsize => hnot b ⟨hb, hsize⟩
    · exact absurd hwhat (hshapen what)
    · exact parse_of_cut hcut

/-! ### A body stands for itself -/

/-- The bytes that a header is read from. -/
def fieldBytes (b : Body) : Nat := if b.isFat then 12 else 1

theorem Announces.fieldBytes_le {data : ByteArray} {b : Body} (h : Announces data b) : b.fieldBytes ≤ b.size := by
  cases h with
  | tiny => exact Nat.le_add_right 1 _
  | fat _ _ _ _ hheader => exact Nat.le_add_right_of_le hheader

theorem ofFat_extract (data : ByteArray) {n : Nat} (hn : 12 ≤ n) (first second : UInt8) :
    ofFat (data.extract 0 n) first second = ofFat data first second := by
  simp only [ofFat, field_extract data (show 4 + 4 ≤ n by omega), field_extract data (show 2 + 2 ≤ n by omega),
    field_extract data (show 8 + 4 ≤ n by omega)]

/-- A header is the same whatever follows the bytes that it is read from. -/
theorem Announces.extract {data : ByteArray} {b : Body} (h : Announces data b) {n : Nat} (hn : b.fieldBytes ≤ n) :
    Announces (data.extract 0 n) b := by
  cases h with
  | tiny hfirst htiny =>
    have hone : 1 ≤ n := hn
    exact .tiny ((byte?_extract data hone).trans hfirst) htiny
  | fat hfirst hsecond hfat hsize hheader =>
    have htwelve : 12 ≤ n := hn
    have hsize' : 12 ≤ (data.extract 0 n).size := by
      rw [ByteArray.size_extract]
      omega
    rw [← ofFat_extract data htwelve] at hheader ⊢
    exact .fat ((byte?_extract data (by omega)).trans hfirst) ((byte?_extract data (by omega)).trans hsecond)
      hfat hsize' hheader

theorem code_of_le {data : ByteArray} {b : Body} (h : b.size ≤ data.size) :
    b.code data = .ok (data.extract b.headerSize (b.headerSize + b.codeSize)) := by
  have hw : window? data b.headerSize b.codeSize = some _ := window?_eq_some.2 ⟨h, rfl⟩
  simp only [code, slice, hw]

/-- A body without its last bytes is none. -/
theorem Announces.parse_extract {data : ByteArray} {b : Body} (h : Announces data b) {n : Nat} (hpos : 1 ≤ n)
    (hn : n < b.size) : parse (data.extract 0 n) = .error .outOfBounds := by
  have hsize : (data.extract 0 n).size < b.size := by
    rw [ByteArray.size_extract]
    omega
  by_cases hfields : b.fieldBytes ≤ n
  · rw [parse_of_announces (h.extract hfields), within_of_lt hsize]
  · cases h with
    | tiny => exact absurd hpos hfields
    | fat hfirst _ hfat _ _ =>
      have hcut : n < 12 := Nat.lt_of_not_le hfields
      refine parse_of_cut ⟨?_, _, (byte?_extract data hpos).trans hfirst, hfat⟩
      rw [ByteArray.size_extract]
      omega

/-- How the answers divide all data among them. -/
structure Grammar (data : ByteArray) : Prop where
  accepts : ∀ b, parse data = .ok b ↔ Announces data b ∧ b.size ≤ data.size
  refuses : ∀ what, parse data = .error (.malformed what) ↔ Misshapen data what
  /-- In every other case the data ends too soon. -/
  short : parse data = .error .outOfBounds ↔
    (∀ b, ¬ (Announces data b ∧ b.size ≤ data.size)) ∧ ∀ what, ¬ Misshapen data what
  /-- There are no other answers. -/
  complete : (∃ b, parse data = .ok b) ∨ (∃ what, parse data = .error (.malformed what)) ∨
    parse data = .error .outOfBounds

/-- A body lies at the start of the data, and nothing behind it matters. -/
structure Standalone (data : ByteArray) (b : Body) : Prop where
  /-- Both sizes fit into a word, and their sum does not exceed the size of the data. -/
  header_le : b.headerSize ≤ 60
  code_lt : b.codeSize < 0x100000000
  inside : b.headerSize + b.codeSize ≤ data.size
  code : b.code data = .ok (data.extract b.headerSize (b.headerSize + b.codeSize))
  longer : ∀ n, b.size ≤ n → n ≤ data.size →
    parse (data.extract 0 n) = .ok b ∧ b.code (data.extract 0 n) = b.code data
  shorter : ∀ n, 1 ≤ n → n < b.size → parse (data.extract 0 n) = .error .outOfBounds

theorem grammar (data : ByteArray) : Grammar data where
  accepts _ := parse_eq_ok
  refuses _ := parse_eq_malformed
  short := parse_eq_outOfBounds
  complete := by
    rcases announced data with ⟨b, hb⟩ | ⟨what, hwhat⟩ | hcut
    · by_cases hsize : b.size ≤ data.size
      · exact .inl ⟨b, parse_eq_ok.2 ⟨hb, hsize⟩⟩
      · refine .inr (.inr ?_)
        rw [parse_of_announces hb, within_of_lt (Nat.lt_of_not_le hsize)]
    · exact .inr (.inl ⟨what, parse_of_misshapen hwhat⟩)
    · exact .inr (.inr (parse_of_cut hcut))

theorem Announces.sizes {data : ByteArray} {b : Body} (h : Announces data b) :
    b.headerSize ≤ 60 ∧ b.codeSize < 0x100000000 := by
  cases h with
  | @tiny first =>
    have hlt : (first >>> 2).toNat < 256 := UInt8.toNat_lt _
    exact ⟨Nat.le_of_ble_eq_true rfl, hlt.trans (by decide)⟩
  | @fat first second _ _ _ hsize =>
    have hlt : second.toNat < 256 := second.toNat_lt
    have hcode := ofLE_lt ((ahead data 4).take 4)
    rw [List.length_take_of_le (by rw [length_ahead]; omega)] at hcode
    refine ⟨?_, hcode⟩
    show 4 * (second >>> 4).toNat ≤ 60
    rw [toNat_shiftRight_four]
    omega

theorem standalone {data : ByteArray} {b : Body} (h : parse data = .ok b) : Standalone data b := by
  obtain ⟨hb, hsize⟩ := parse_eq_ok.1 h
  refine
    { header_le := hb.sizes.1
      code_lt := hb.sizes.2
      inside := hsize
      code := code_of_le hsize
      longer := fun n hn hle => ?_
      shorter := fun n => hb.parse_extract }
  have hcut : b.size ≤ (data.extract 0 n).size := by
    rw [ByteArray.size_extract]
    omega
  refine ⟨parse_eq_ok.2 ⟨hb.extract (hb.fieldBytes_le.trans hn), hcut⟩, ?_⟩
  have hend : b.headerSize + b.codeSize ≤ n := hn
  rw [code_of_le hcut, code_of_le hsize, ByteArray.extract_extract, Nat.zero_add, Nat.zero_add,
    Nat.min_eq_left hend]

end Body

namespace Command.Options

/-- Once a header was read, the code behind it is there. -/
theorem cut_error {o : Options} {window : ByteArray} {f : Failure} (h : o.cut window = .error f) :
    ∃ e, f = .badHeader e := by
  unfold cut at h
  split at h
  · split at h
    · next e _ => exact ⟨e, (Except.error.inj h).symm⟩
    · next b hb =>
      rw [(Body.standalone hb).code] at h
      cases h
  · cases h

/-- No file fails for code that its header promised. -/
theorem code_ne_truncatedBody (o : Options) (file : ByteArray) (e : Error) :
    o.code file ≠ .error (.truncatedBody e) := by
  intro h
  rcases bind_eq_error.1 h with hinput | ⟨data, _, hrest⟩
  · obtain ⟨_, hf⟩ := input_error hinput
    cases hf
  · rcases bind_eq_error.1 hrest with hselect | ⟨window, _, hcut⟩
    · rcases select_error hselect with ⟨_, _, hf⟩ | ⟨_, _, hf⟩ | ⟨_, _, hf⟩ <;> cases hf
    · obtain ⟨_, hf⟩ := cut_error hcut
      cases hf

end Command.Options

/-- **Bodies are read by the grammar of their headers, and stand for themselves.** A body is
accepted exactly when a header announces it and the data holds it all; the data is malformed
exactly when no header can be made of it, and otherwise ends too soon. Whatever follows an
accepted body can be cut off without a change to it or its code, and nothing of it can. So
no disassembly fails for code that is missing behind its header. -/
theorem body_grammar (data : ByteArray) :
    Body.Grammar data ∧ (∀ b, Body.parse data = .ok b → Body.Standalone data b) ∧
      ∀ (o : Command.Options) (file : ByteArray) (e : Error), o.code file ≠ .error (.truncatedBody e) :=
  ⟨Body.grammar data, fun _ => Body.standalone, Command.Options.code_ne_truncatedBody⟩

/-- A fat header of sixteen bytes, one byte of code, and one behind it: the last byte can go,
and the code cannot. -/
theorem body_grammar_longHeader :
    let data : ByteArray := ⟨#[0x1B, 0x40, 2, 0, 1, 0, 0, 0, 0, 0, 0, 0, 0, 0, 0, 0, 0x2A, 0xFF]⟩
    let b : Body := ⟨16, 1, 2, ⟨0⟩, true, true, true⟩
    Body.parse data = .ok b ∧ b.code data = .ok (data.extract 16 17) ∧
      Body.parse (data.extract 0 17) = .ok b ∧ Body.parse (data.extract 0 16) = .error .outOfBounds := by
  intro data b
  have hparse : Body.parse data = .ok b := by decide +kernel
  have hbody := (body_grammar data).2.1 b hparse
  exact ⟨hparse, hbody.code, (hbody.longer 17 (by decide) (by decide)).1, hbody.shorter 16 (by decide) (by decide)⟩

end Cil
