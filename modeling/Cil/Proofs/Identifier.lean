import Cil.Proofs.Entry
import Mathlib.Data.List.TakeWhile

/-! Identifiers share their ends.

An identifier is whatever stands in front of the next zero byte (`beforeZero`), so every
index inside of one is an index of its end (`beforeZero_add`). That end is text exactly
where a character of the identifier starts: bytes cut inside of a character are never
UTF-8 (`isValid_iff_drop`). -/
namespace Cil

open Bytes Text

/-! ### In front of the next zero -/

namespace Bytes

/-- The bytes at and behind a position, up to the first zero. -/
def beforeZero (data : ByteArray) (pos : Nat) : List UInt8 := (ahead data pos).takeWhile (· ≠ 0)

theorem eq_beforeZero_iff {bytes : List UInt8} {data : ByteArray} {pos : Nat} :
    0 ∉ bytes ∧ bytes ++ [0] <+: ahead data pos ↔ 0 ∈ ahead data pos ∧ bytes = beforeZero data pos := by
  unfold beforeZero
  constructor
  · intro h
    obtain ⟨hnone, rest, hrest⟩ := h
    have hnonzero : ∀ b ∈ bytes, decide (b ≠ 0) = true := by
      intro b hb
      exact decide_eq_true fun hzero => hnone (hzero ▸ hb)
    rw [← hrest, List.append_assoc, List.takeWhile_append_of_pos hnonzero]
    simp
  · intro h
    obtain ⟨hmem, hbytes⟩ := h
    have hsplit := List.takeWhile_append_dropWhile (p := fun b : UInt8 => decide (b ≠ 0)) (l := ahead data pos)
    have hstop := List.head?_dropWhile_not (fun b : UInt8 => decide (b ≠ 0)) (ahead data pos)
    have hnone : 0 ∉ bytes := by
      intro hzero
      rw [hbytes] at hzero
      simpa using List.mem_takeWhile_imp hzero
    rw [← hbytes] at hsplit
    refine ⟨hnone, ?_⟩
    cases hrest : (ahead data pos).dropWhile fun b => decide (b ≠ 0) with
    | nil =>
      rw [hrest, List.append_nil] at hsplit
      exact absurd (hsplit ▸ hmem) hnone
    | cons b rest =>
      -- the byte that stops the search is the zero
      rw [hrest] at hsplit hstop
      obtain rfl : b = 0 := by simpa using hstop
      exact ⟨rest, by rw [← hsplit, List.append_assoc]; rfl⟩

/-- A position inside of what stands in front of a zero has the rest of it in front of the same
zero. -/
theorem beforeZero_add {data : ByteArray} {pos k : Nat} (hzero : 0 ∈ ahead data pos)
    (hk : k ≤ (beforeZero data pos).length) :
    0 ∈ ahead data (pos + k) ∧ (beforeZero data pos).drop k = beforeZero data (pos + k) := by
  obtain ⟨hnone, hahead⟩ := eq_beforeZero_iff.2 ⟨hzero, rfl⟩
  apply eq_beforeZero_iff.1
  have hsplit := List.take_append_drop k (beforeZero data pos)
  rw [← hsplit, List.append_assoc, append_isPrefix_ahead, List.length_take_of_le hk] at hahead
  exact ⟨fun hmem => hnone (List.mem_of_mem_drop hmem), hahead.2⟩

end Bytes

/-! ### Bytes that are text -/

namespace Text.Utf8

theorem exists_text {bytes : List UInt8} :
    (∃ s : String, octets s.toUTF8 = bytes) ↔ bytes.toByteArray.IsValidUTF8 := by
  constructor
  · intro h
    obtain ⟨s, hs⟩ := h
    have hbytes : bytes.toByteArray = s.toUTF8 := octets_inj.1 (by rw [octets_toByteArray, hs])
    rw [hbytes]
    exact s.isValidUTF8
  · intro hvalid
    exact ⟨⟨_, hvalid⟩, octets_toByteArray bytes⟩

/-- A text cut at a byte leaves text behind the cut exactly where a character starts, or at the
end. -/
theorem isValid_iff_drop {s : String} {k : Nat} (hk : k ≤ s.utf8ByteSize) :
    (String.Pos.Raw.mk k).IsValid s ↔ ((octets s.toUTF8).drop k).toByteArray.IsValidUTF8 := by
  have hdrop : ((octets s.toUTF8).drop k).toByteArray = s.toByteArray.extract k s.utf8ByteSize := by
    apply octets_inj.1
    have hsize : (octets s.toByteArray).length = s.utf8ByteSize := rfl
    rw [octets_toByteArray, octets_extract, ← hsize, List.take_length, String.toUTF8_eq_toByteArray]
  rw [hdrop, String.Pos.Raw.isValid_iff_isValidUTF8_extract_utf8ByteSize]
  exact and_iff_right hk

theorem octets_append_toUTF8 (front back : String) :
    octets (front ++ back).toUTF8 = octets front.toUTF8 ++ octets back.toUTF8 := by
  simp [String.toUTF8_eq_toByteArray]

end Text.Utf8

/-! ### Identifiers -/

namespace Heap

theorem identifier_eq_ok_iff {h : Heap .strings} {index : Nat} {s : String} :
    h.identifier index = .ok s ↔ 0 ∈ ahead h.bytes index ∧ octets s.toUTF8 = beforeZero h.bytes index :=
  identifier_eq_ok.trans eq_beforeZero_iff

theorem exists_identifier {h : Heap .strings} {index : Nat} :
    (∃ s, h.identifier index = .ok s) ↔
      0 ∈ ahead h.bytes index ∧ (beforeZero h.bytes index).toByteArray.IsValidUTF8 := by
  simp only [identifier_eq_ok_iff, exists_and_left, Utf8.exists_text]

/-- There is no identifier outside of the heap, without a zero ahead, or with bytes in front of the
zero that are no text. -/
theorem identifier_eq_error {h : Heap .strings} {index : Nat} {e : Error} :
    h.identifier index = .error e ↔
      e = .outOfBounds ∧ h.size < index ∨
      e = .malformed (.badIdentifier index) ∧ index ≤ h.size ∧
        (0 ∉ ahead h.bytes index ∨ ¬(beforeZero h.bytes index).toByteArray.IsValidUTF8) := by
  rw [← not_and_or, ← exists_identifier]
  by_cases hinside : index ≤ h.size
  · have hcases : (∃ s, h.identifier index = .ok s) ∨
        h.identifier index = .error (.malformed (.badIdentifier index)) := by
      unfold identifier
      rw [if_pos hinside]
      split
      · next s _ => exact .inl ⟨s, rfl⟩
      · exact .inr rfl
    have hout : ¬h.size < index := Nat.not_lt.2 hinside
    cases hcases with
    | inl hok =>
      obtain ⟨s, hs⟩ := hok
      simp [hs, hout]
    | inr hbad => simp [hbad, hinside, hout, eq_comm (a := e)]
  · have hbad : h.identifier index = .error .outOfBounds := by rw [identifier, if_neg hinside]
    simp [hbad, hinside, Nat.lt_of_not_le hinside, eq_comm (a := e)]

/-- An index inside of an identifier has the rest of its bytes in front of the next zero. -/
theorem beforeZero_of_identifier {h : Heap .strings} {index k : Nat} {s : String}
    (hs : h.identifier index = .ok s) (hk : k ≤ s.utf8ByteSize) :
    0 ∈ ahead h.bytes (index + k) ∧ (octets s.toUTF8).drop k = beforeZero h.bytes (index + k) := by
  obtain ⟨hzero, hbytes⟩ := identifier_eq_ok_iff.1 hs
  rw [hbytes]
  apply beforeZero_add hzero
  rwa [← hbytes]

/-- Where a character of an identifier starts, the text from there on is an identifier. -/
theorem identifier_of_append {h : Heap .strings} {index : Nat} {front back : String}
    (hs : h.identifier index = .ok (front ++ back)) : h.identifier (index + front.utf8ByteSize) = .ok back := by
  have hsize : (octets front.toUTF8).length = front.utf8ByteSize := rfl
  have hle : front.utf8ByteSize ≤ (front ++ back).utf8ByteSize := by
    rw [String.utf8ByteSize_append]
    exact Nat.le_add_right _ _
  obtain ⟨hzero, hrest⟩ := beforeZero_of_identifier hs hle
  rw [Utf8.octets_append_toUTF8, List.drop_left' hsize] at hrest
  exact identifier_eq_ok_iff.2 ⟨hzero, hrest⟩

/-- Inside of a character of an identifier there is none. -/
theorem identifier_of_not_isValid {h : Heap .strings} {index k : Nat} {s : String}
    (hs : h.identifier index = .ok s) (hk : k ≤ s.utf8ByteSize) (hcut : ¬(String.Pos.Raw.mk k).IsValid s) :
    h.identifier (index + k) = .error (.malformed (.badIdentifier (index + k))) := by
  obtain ⟨hzero, hrest⟩ := beforeZero_of_identifier hs hk
  have hinside : index + k < h.bytes.size := by
    have hlength := List.length_pos_of_mem hzero
    rw [length_ahead] at hlength
    omega
  rw [Utf8.isValid_iff_drop hk, hrest] at hcut
  exact identifier_eq_error.2 (.inr ⟨rfl, Nat.le_of_lt hinside, .inr hcut⟩)

end Heap

/-- **Identifiers share their ends.** An index behind the heap is out of bounds; one from which no
zero follows, or no text in front of the zero, is malformed; and any other has the text in front
of the next zero. So an index inside of an identifier has the end of the identifier from there
on, if a character starts there or the identifier ends, and is malformed inside of a character. -/
theorem identifiers_share_suffixes {data : ByteArray} {h : Heap .strings}
    (hheap : Heap.ofBytes .strings data = .ok h) (index : Nat) :
    (∀ e, h.identifier index = .error e ↔
      e = .outOfBounds ∧ data.size < index ∨
      e = .malformed (.badIdentifier index) ∧ index ≤ data.size ∧
        (0 ∉ ahead data index ∨ ¬(beforeZero data index).toByteArray.IsValidUTF8)) ∧
    (∀ s, h.identifier index = .ok s ↔ 0 ∈ ahead data index ∧ octets s.toUTF8 = beforeZero data index) ∧
    ∀ s k, h.identifier index = .ok s → k ≤ s.utf8ByteSize →
      ((String.Pos.Raw.mk k).IsValid s → ∃ front back, s = front ++ back ∧ front.utf8ByteSize = k ∧
        h.identifier (index + k) = .ok back) ∧
      (¬(String.Pos.Raw.mk k).IsValid s →
        h.identifier (index + k) = .error (.malformed (.badIdentifier (index + k)))) := by
  obtain rfl := Heap.bytes_of_ofBytes hheap
  refine ⟨fun e => Heap.identifier_eq_error, fun s => Heap.identifier_eq_ok_iff, ?_⟩
  intro s k hs hk
  refine ⟨?_, Heap.identifier_of_not_isValid hs hk⟩
  intro hstart
  obtain ⟨front, back, rfl, hfront⟩ := String.Pos.Raw.isValid_iff_exists_append.1 hstart
  obtain rfl : k = front.utf8ByteSize := congrArg String.Pos.Raw.byteIdx hfront
  exact ⟨front, back, rfl, rfl, Heap.identifier_of_append hs⟩

/-- `aéb`, and a byte that is no text and has no zero behind it: the identifier can be entered in
front of its second character but not inside of it. -/
theorem identifiers_share_suffixes_accent :
    let data : ByteArray := ⟨#[0x00, 0x61, 0xC3, 0xA9, 0x62, 0x00, 0xFF]⟩
    let h : Heap .strings := ⟨data, rfl⟩
    Heap.ofBytes .strings data = .ok h ∧ h.identifier 1 = .ok "aéb" ∧
      (∃ front back, "aéb" = front ++ back ∧ front.utf8ByteSize = 1 ∧ h.identifier 2 = .ok back) ∧
      h.identifier 3 = .error (.malformed (.badIdentifier 3)) ∧
      h.identifier 6 = .error (.malformed (.badIdentifier 6)) ∧ h.identifier 8 = .error .outOfBounds := by
  intro data h
  have hheap : Heap.ofBytes .strings data = .ok h := dif_pos rfl
  have hok : h.identifier 1 = .ok "aéb" :=
    ((identifiers_share_suffixes hheap 1).2.1 _).2 ⟨by decide, by decide +kernel⟩
  have hinside := (identifiers_share_suffixes hheap 1).2.2 "aéb"
  refine ⟨hheap, hok, ?_, ?_, ?_, ?_⟩
  · exact (hinside 1 hok (by decide)).1 (by decide +kernel)
  · exact (hinside 2 hok (by decide)).2 (by decide +kernel)
  · exact ((identifiers_share_suffixes hheap 6).1 _).2 (.inr ⟨rfl, by decide, .inl (by decide)⟩)
  · exact ((identifiers_share_suffixes hheap 8).1 _).2 (.inl ⟨rfl, by decide⟩)

end Cil
