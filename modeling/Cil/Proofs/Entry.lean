import Cil.Heap
import Cil.Proofs.Compressed

/-! The entries of a heap.

What a heap gives at an index is decided by the bytes ahead of it: a blob by a
spelling of its size and then its bytes (`entry_eq_ok`), an identifier by its own
bytes and the first zero behind them (`identifier_eq_ok`), a literal by an entry
whose units decode to it (`literal_eq_ok`). None of this asks what stands before
the index, or where other entries start. -/
namespace Cil

open Bytes Text

/-! ### Zero bytes and text -/

theorem Bytes.ahead_of_lt {data : ByteArray} {i : Nat} (h : i < data.size) :
    ahead data i = data[i] :: ahead data (i + 1) :=
  List.drop_eq_getElem_cons h

/-- The first zero byte stands behind all the bytes that are none. -/
theorem Bytes.zeroFrom?_eq_some {data : ByteArray} {i j : Nat} :
    zeroFrom? data i = some j ↔
      ∃ bytes : List UInt8, 0 ∉ bytes ∧ bytes ++ [0] <+: ahead data i ∧ j = i + bytes.length := by
  fun_induction zeroFrom? data i with
  | case1 i h hzero =>
    rw [ahead_of_lt h, hzero]
    constructor
    · intro hj
      cases hj
      exact ⟨[], List.not_mem_nil, List.prefix_append [0] _, rfl⟩
    · rintro ⟨bytes, hnone, hahead, rfl⟩
      cases bytes with
      | nil => rfl
      | cons b rest =>
        obtain ⟨rfl, _⟩ := List.cons_prefix_cons.1 hahead
        exact absurd (List.mem_cons_self ..) hnone
  | case2 i h hzero ih =>
    -- the byte at `i` is put in front of the bytes found, or taken from them
    rw [ih, ahead_of_lt h]
    constructor
    · rintro ⟨bytes, hnone, hahead, rfl⟩
      refine ⟨data[i] :: bytes, ?_, List.cons_prefix_cons.2 ⟨rfl, hahead⟩, ?_⟩
      · rw [List.mem_cons]
        rintro (hfirst | hrest)
        · exact hzero hfirst.symm
        · exact hnone hrest
      · rw [List.length_cons]
        omega
    · rintro ⟨bytes, hnone, hahead, rfl⟩
      cases bytes with
      | nil => exact absurd (List.cons_prefix_cons.1 hahead).1.symm hzero
      | cons b rest =>
        obtain ⟨rfl, hrest⟩ := List.cons_prefix_cons.1 hahead
        refine ⟨rest, fun hmem => hnone (List.mem_cons_of_mem _ hmem), hrest, ?_⟩
        rw [List.length_cons]
        omega
  | case3 i h =>
    constructor
    · nofun
    · rintro ⟨bytes, _, hahead, _⟩
      have hinside := add_length_le_of_isPrefix hahead (List.append_ne_nil_of_right_ne_nil _ nofun)
      rw [List.length_append, List.length_singleton] at hinside
      omega

theorem fromUTF8?_eq_some {bytes : ByteArray} {s : String} :
    String.fromUTF8? bytes = some s ↔ bytes = s.toUTF8 := by
  unfold String.fromUTF8?
  constructor
  · intro h
    split at h
    · cases h
      rfl
    · cases h
  · rintro rfl
    exact dif_pos s.isValidUTF8

namespace Heap

/-! ### What stands at an index -/

variable {kind : HeapKind}

theorem bytes_of_ofBytes {data : ByteArray} {h : Heap kind} (hheap : ofBytes kind data = .ok h) :
    h.bytes = data := by
  unfold ofBytes at hheap
  split at hheap
  · cases hheap
    rfl
  · cases hheap

theorem entry_eq_ok {h : Heap kind} {index : Nat} {bytes : ByteArray} :
    h.entry index = .ok bytes ↔
      ∃ lead, Compressed.Spells lead bytes.size ∧ lead ++ octets bytes <+: ahead h.bytes index := by
  unfold entry slice
  constructor
  · intro hok
    split at hok
    · next length width hread =>
      obtain ⟨lead, hspells, rfl, hlead⟩ := Compressed.read_eq_ok.1 hread
      have hinside := add_length_le_of_isPrefix hlead hspells.ne_nil
      split at hok
      · next w hw =>
        cases hok
        obtain ⟨hahead, rfl⟩ := (window?_eq_some_iff hinside).1 hw
        exact ⟨lead, hspells, append_isPrefix_ahead.2 ⟨hlead, hahead⟩⟩
      · cases hok
    · cases hok
    · cases hok
  · rintro ⟨lead, hspells, hahead⟩
    obtain ⟨hlead, hbytes⟩ := append_isPrefix_ahead.1 hahead
    have hinside := add_length_le_of_isPrefix hlead hspells.ne_nil
    have hwindow := (window?_eq_some_iff hinside).2 ⟨hbytes, rfl⟩
    simp only [Compressed.read_of_spells hspells hlead, hwindow]

theorem identifier_eq_ok {h : Heap .strings} {index : Nat} {s : String} :
    h.identifier index = .ok s ↔
      0 ∉ octets s.toUTF8 ∧ octets s.toUTF8 ++ [0] <+: ahead h.bytes index := by
  unfold identifier
  constructor
  · intro hok
    split at hok
    · split at hok
      · next hfound =>
        cases hok
        obtain ⟨stop, hzero, hutf⟩ := Option.bind_eq_some_iff.1 hfound
        obtain ⟨bytes, hnone, hahead, rfl⟩ := zeroFrom?_eq_some.1 hzero
        have hbytes := octets_extract_of_isPrefix (append_isPrefix_ahead.1 hahead).1
        rw [fromUTF8?_eq_some.1 hutf] at hbytes
        rw [hbytes]
        exact ⟨hnone, hahead⟩
      · cases hok
    · cases hok
  · rintro ⟨hnone, hahead⟩
    have hinside := add_length_le_of_isPrefix hahead (List.append_ne_nil_of_right_ne_nil _ nofun)
    have hzero := zeroFrom?_eq_some.2 ⟨_, hnone, hahead, rfl⟩
    have htext := octets_inj.1 (octets_extract_of_isPrefix (append_isPrefix_ahead.1 hahead).1)
    have hle : index ≤ h.size := by
      rw [size]
      omega
    rw [if_pos hle, hzero, Option.bind_some, htext, fromUTF8?_eq_some.2 rfl]

theorem literal_eq_ok {h : Heap .userStrings} {index : Nat} {s : String} :
    h.literal index = .ok s ↔
      ∃ bytes, h.entry index = .ok bytes ∧ Utf16.decode? (Utf16.ofBytes (octets bytes)) = some s := by
  unfold literal
  cases h.entry index with
  | error e => simp
  | ok bytes =>
    cases hdecode : Utf16.decode? (Utf16.ofBytes (octets bytes)) <;> simp [hdecode]

end Heap
end Cil
