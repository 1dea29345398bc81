import Cil.Bytes.Compressed
import Cil.Proofs.Fetch
import Mathlib.Data.List.Infix

/-! Compressed numbers in bytes.

A number can be spelled in every form that holds it, and the top bits of the first
byte keep the forms apart. Reading at a position takes exactly the spelling that
the bytes ahead start with (`read_eq_ok`); the shortest one is what is written
(`spells_encode?`). So what was read once is read again whatever is appended, and
what was written is read back wherever it stands. -/
namespace Cil.Bytes

/-! ### Windows and what lies ahead -/

theorem octets_inj {a b : ByteArray} : octets a = octets b ↔ a = b := by
  constructor
  · intro h
    exact ByteArray.ext (Array.toList_inj.1 h)
  · rintro rfl
    rfl

theorem ahead_of_isPrefix {data data' : ByteArray} (h : octets data <+: octets data') (pos : Nat) :
    ahead data pos <+: ahead data' pos :=
  h.drop pos

/-- Bytes lie ahead one part behind the other. -/
theorem append_isPrefix_ahead {a b : List UInt8} {data : ByteArray} {pos : Nat} :
    a ++ b <+: ahead data pos ↔ a <+: ahead data pos ∧ b <+: ahead data (pos + a.length) := by
  rw [← drop_ahead]
  constructor
  · rintro ⟨rest, hrest⟩
    rw [← hrest, List.append_assoc, List.drop_left]
    exact ⟨List.prefix_append _ _, List.prefix_append _ _⟩
  · rintro ⟨⟨rest, hrest⟩, hb⟩
    rw [← hrest, List.drop_left] at hb
    rw [← hrest]
    exact (List.prefix_append_right_inj a).2 hb

/-- A position is inside the buffer when bytes lie ahead of it. -/
theorem add_length_le_of_isPrefix {bytes : List UInt8} {data : ByteArray} {pos : Nat}
    (h : bytes <+: ahead data pos) (hne : bytes ≠ []) : pos + bytes.length ≤ data.size := by
  have hle := h.length_le
  have hpos := List.length_pos_iff.2 hne
  rw [length_ahead] at hle
  omega

theorem octets_extract_of_isPrefix {bytes : List UInt8} {data : ByteArray} {pos : Nat}
    (h : bytes <+: ahead data pos) : octets (data.extract pos (pos + bytes.length)) = bytes := by
  rw [octets_extract, List.drop_take, Nat.add_sub_cancel_left]
  exact (List.prefix_iff_eq_take.1 h).symm

theorem window?_eq_some_iff {data w : ByteArray} {pos count : Nat} (hpos : pos ≤ data.size) :
    window? data pos count = some w ↔ octets w <+: ahead data pos ∧ w.size = count := by
  constructor
  · intro h
    rw [octets_of_window? h]
    exact ⟨List.take_prefix _ _, size_of_window? h⟩
  · rintro ⟨hw, rfl⟩
    have hle := hw.length_le
    rw [length_ahead, length_octets] at hle
    refine window?_eq_some.2 ⟨by omega, octets_inj.1 ?_⟩
    exact octets_extract_of_isPrefix hw

namespace Compressed

/-! ### Forms -/

def Form.all : List Form := [byteForm, pairForm, quadForm]

theorem Form.mem_of_ofLead? {lead : UInt8} {form : Form} (h : ofLead? lead = some form) : form ∈ all := by
  unfold ofLead? at h
  repeat' split at h
  all_goals cases h <;> decide

theorem Form.ofValue?_eq_some {n : Nat} {form : Form} (h : ofValue? n = some form) :
    form ∈ all ∧ n < form.bound := by
  unfold ofValue? at h
  repeat' split at h
  all_goals cases h <;> exact ⟨by decide, by assumption⟩

/-- The numbers of a form, with its mark on them, fit into its width. -/
theorem Form.mark_add_bound_le {form : Form} (h : form ∈ all) :
    form.mark + form.bound ≤ capacity form.width ∧ 0 < form.width := by
  revert form
  decide

/-- The first byte announces a form exactly when all the bytes together are a number
of that form with its mark on it. -/
theorem Form.ofLead?_eq_some {form : Form} (hform : form ∈ all) {lead : UInt8} {rest : List UInt8}
    (hlength : (lead :: rest).length = form.width) :
    ofLead? lead = some form ↔
      form.mark ≤ ofBE (lead :: rest) ∧ ofBE (lead :: rest) < form.mark + form.bound := by
  have hlead : lead.toNat < 256 := lead.toNat_lt
  simp only [all, List.mem_cons, List.not_mem_nil, or_false] at hform
  -- the width says how many bytes there are, and the rest is arithmetic on them
  rcases hform with rfl | rfl | rfl
  · obtain rfl : rest = [] := by simpa [byteForm] using hlength
    simp only [ofLead?, ofBE, List.reverse_singleton, ofLE]
    grind [byteForm, pairForm, quadForm]
  · obtain ⟨second, rfl⟩ := List.length_eq_one_iff.1 (Nat.succ.inj hlength)
    have hsecond : second.toNat < 256 := second.toNat_lt
    simp only [ofLead?, ofBE, List.reverse_cons, List.reverse_nil, List.nil_append, List.cons_append, ofLE]
    grind [byteForm, pairForm, quadForm]
  · obtain ⟨second, third, fourth, rfl⟩ := List.length_eq_three.1 (Nat.succ.inj hlength)
    have hsecond : second.toNat < 256 := second.toNat_lt
    have hthird : third.toNat < 256 := third.toNat_lt
    have hfourth : fourth.toNat < 256 := fourth.toNat_lt
    simp only [ofLead?, ofBE, List.reverse_cons, List.reverse_nil, List.nil_append, List.cons_append, ofLE]
    grind [byteForm, pairForm, quadForm]

/-! ### Spellings -/

/-- The bytes are the number in one of the forms that hold it. -/
def Spells (bytes : List UInt8) (n : Nat) : Prop :=
  ∃ form ∈ Form.all, n < form.bound ∧ bytes = toBE form.width (form.mark + n)

theorem Spells.ne_nil {bytes : List UInt8} {n : Nat} (h : Spells bytes n) : bytes ≠ [] := by
  obtain ⟨form, hform, _, rfl⟩ := h
  have hwidth := (Form.mark_add_bound_le hform).2
  apply List.ne_nil_of_length_pos
  rwa [length_toBE]

/-- What is written is a spelling. -/
theorem spells_encode? {n : Nat} {bytes : List UInt8} (h : encode? n = some bytes) : Spells bytes n := by
  obtain ⟨form, hform, rfl⟩ := Option.map_eq_some_iff.1 h
  obtain ⟨hmem, hlt⟩ := Form.ofValue?_eq_some hform
  exact ⟨form, hmem, hlt, rfl⟩

/-- Bytes as wide as the form that the first of them announces spell a number. -/
theorem spells_of_ofLead? {form : Form} {lead : UInt8} {rest : List UInt8}
    (hform : Form.ofLead? lead = some form) (hlength : (lead :: rest).length = form.width) :
    Spells (lead :: rest) (ofBE (lead :: rest) - form.mark) := by
  have hmem := Form.mem_of_ofLead? hform
  obtain ⟨hlow, hhigh⟩ := (Form.ofLead?_eq_some hmem hlength).1 hform
  refine ⟨form, hmem, by omega, ?_⟩
  rw [Nat.add_sub_cancel' hlow, ← hlength, toBE_ofBE]

/-- The first byte of a spelling announces its form. -/
theorem ofLead?_of_toBE {form : Form} (hmem : form ∈ Form.all) {n : Nat} (hlt : n < form.bound)
    {lead : UInt8} {rest : List UInt8} (hbytes : toBE form.width (form.mark + n) = lead :: rest) :
    Form.ofLead? lead = some form ∧ ofBE (lead :: rest) = form.mark + n := by
  have hfits := Form.mark_add_bound_le hmem
  have hlength := length_toBE form.width (form.mark + n)
  have hvalue := ofBE_toBE form.width (form.mark + n)
  rw [Nat.mod_eq_of_lt (by omega), hbytes] at hvalue
  rw [hbytes] at hlength
  exact ⟨(Form.ofLead?_eq_some hmem hlength).2 (by omega), hvalue⟩

/-! ### Reading -/

theorem byte?_of_isPrefix {first : UInt8} {rest : List UInt8} {data : ByteArray} {pos : Nat}
    (h : first :: rest <+: ahead data pos) : byte? data pos = some first := by
  obtain ⟨more, hahead⟩ := h
  rw [byte?_eq_head?, ← hahead]
  rfl

theorem spells_of_read {data : ByteArray} {pos n width : Nat} (h : read data pos = .ok (n, width)) :
    ∃ bytes, Spells bytes n ∧ bytes.length = width ∧ bytes <+: ahead data pos := by
  unfold read at h
  split at h
  · cases h
  · next lead hlead =>
    split at h
    · cases h
    · next form hform =>
      split at h
      · cases h
      · next w hw =>
        obtain ⟨rfl, rfl⟩ := Prod.mk.inj (Except.ok.inj h)
        have hlength : (octets w).length = form.width := size_of_window? hw
        have hahead : octets w <+: ahead data pos := by
          rw [octets_of_window? hw]
          exact List.take_prefix _ _
        refine ⟨octets w, ?_, hlength, hahead⟩
        have hwidth := (Form.mark_add_bound_le (Form.mem_of_ofLead? hform)).2
        obtain ⟨first, rest, hoctets⟩ := List.exists_cons_of_length_pos (hlength.symm ▸ hwidth)
        rw [hoctets] at hlength hahead ⊢
        obtain rfl : first = lead := Option.some.inj ((byte?_of_isPrefix hahead).symm.trans hlead)
        exact spells_of_ofLead? hform hlength

theorem read_of_spells {data : ByteArray} {pos n : Nat} {bytes : List UInt8} (h : Spells bytes n)
    (hahead : bytes <+: ahead data pos) : read data pos = .ok (n, bytes.length) := by
  have hinside := add_length_le_of_isPrefix hahead h.ne_nil
  obtain ⟨lead, rest, hcons⟩ := List.exists_cons_of_ne_nil h.ne_nil
  obtain ⟨form, hmem, hlt, hbytes⟩ := h
  obtain ⟨hform, hvalue⟩ := ofLead?_of_toBE hmem hlt (hbytes ▸ hcons)
  have hlead : byte? data pos = some lead := byte?_of_isPrefix (hcons ▸ hahead)
  have hlength : bytes.length = form.width := by rw [hbytes, length_toBE]
  have hw : window? data pos form.width = some bytes.toByteArray := by
    refine (window?_eq_some_iff (by omega)).2 ⟨by rwa [octets_toByteArray], ?_⟩
    rw [← length_octets, octets_toByteArray, hlength]
  rw [← hcons] at hvalue
  simp only [read, hlead, hform, hw, octets_toByteArray, hvalue, hlength, Nat.add_sub_cancel_left]

/-- A number is read exactly where one of its spellings starts. -/
theorem read_eq_ok {data : ByteArray} {pos n width : Nat} :
    read data pos = .ok (n, width) ↔
      ∃ bytes, Spells bytes n ∧ bytes.length = width ∧ bytes <+: ahead data pos := by
  constructor
  · exact spells_of_read
  · rintro ⟨bytes, hspells, rfl, hahead⟩
    exact read_of_spells hspells hahead

end Compressed
end Cil.Bytes
