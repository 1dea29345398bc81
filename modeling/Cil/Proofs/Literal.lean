import Cil.Proofs.Canonical
import Cil.Proofs.Entry
import Cil.Proofs.Utf16
import Cil.Store.Basic

/-! Literals are exactly the well-formed entries.

Units decode to the one text whose units they are (`decode?_eq_some`), and they fail to
decode exactly when a surrogate among them stands outside of a pair (`decode?_eq_none`).
An entry fails when it leaves its heap, or when no length starts with its first byte
(`entry_eq_error`). So the bytes of a heap say of every index what the literal there is,
or which of three faults keeps it from being one (`literal_grammar`). -/
namespace Cil

open Bytes Text

namespace Text.Utf16

/-! ### Units that decode -/

theorem toNat_ofNat {n : Nat} (h : n.isValidChar) : (Char.ofNat n).toNat = n := by
  rw [Char.ofNat, dif_pos h]
  rfl

theorem units_ofNat {u : UInt16} (hhigh : ¬isHigh u) (hlow : ¬isLow u) : units (Char.ofNat u.toNat) = [u] := by
  rw [isHigh_iff] at hhigh
  rw [isLow_iff] at hlow
  have hlt : u.toNat < 65536 := u.toNat_lt
  have hvalid : u.toNat.isValidChar := by
    unfold Nat.isValidChar
    omega
  rw [units, toNat_ofNat hvalid, if_pos hlt, UInt16.ofNat_toNat]

theorem units_pair {u v : UInt16} (hhigh : isHigh u) (hlow : isLow v) : units (pair u v) = [u, v] := by
  rw [isHigh_iff] at hhigh
  rw [isLow_iff] at hlow
  have hvalid : (0x10000 + (u.toNat - 0xD800) * 0x400 + (v.toNat - 0xDC00)).isValidChar := by
    unfold Nat.isValidChar
    omega
  -- the ten bits of each unit come back by a division and its remainder
  have hfirst : 0xD800 + (0x10000 + (u.toNat - 0xD800) * 0x400 + (v.toNat - 0xDC00) - 0x10000) / 0x400 =
      u.toNat := by omega
  have hsecond : 0xDC00 + (0x10000 + (u.toNat - 0xD800) * 0x400 + (v.toNat - 0xDC00) - 0x10000) % 0x400 =
      v.toNat := by omega
  rw [pair, units, toNat_ofNat hvalid, if_neg (by omega), hfirst, hsecond,
    UInt16.ofNat_toNat, UInt16.ofNat_toNat]

/-- Units decode only to the characters whose units they are. -/
theorem eq_of_chars? {us : List UInt16} {cs : List Char} (h : chars? us = some cs) : us = cs.flatMap units := by
  fun_induction chars? us generalizing cs with
  | case1 =>
    cases h
    rfl
  | case2 u hhigh v rest hlow ih =>
    obtain ⟨tail, htail, rfl⟩ := Option.map_eq_some_iff.1 h
    rw [List.flatMap_cons, units_pair hhigh hlow, ← ih htail]
    rfl
  | case3 | case4 | case5 => cases h
  | case6 u rest hhigh hlow ih =>
    obtain ⟨tail, htail, rfl⟩ := Option.map_eq_some_iff.1 h
    rw [List.flatMap_cons, units_ofNat hhigh hlow, ← ih htail]
    rfl

theorem decode?_eq_some {us : List UInt16} {s : String} : decode? us = some s ↔ us = encode s := by
  constructor
  · intro h
    obtain ⟨cs, hcs, rfl⟩ := Option.map_eq_some_iff.1 h
    rw [encode, String.toList_ofList]
    exact eq_of_chars? hcs
  · intro h
    rw [h, decode?_encode]

/-! ### Units that do not -/

/-- Between its neighbours a unit is a high surrogate with no low one behind it, or a low one with
no high one in front. -/
def Lone (before : Option UInt16) (u : UInt16) (behind : Option UInt16) : Prop :=
  isHigh u ∧ (∀ v ∈ behind, ¬isLow v) ∨ isLow u ∧ ∀ v ∈ before, ¬isHigh v

/-- A surrogate stands outside of a pair. -/
def Unpaired (us : List UInt16) : Prop :=
  ∃ front u back, us = front ++ u :: back ∧ Lone front.getLast? u back.head?

/-- The same of units that stand behind another. -/
def UnpairedBehind (before : Option UInt16) (us : List UInt16) : Prop :=
  ∃ front u back, us = front ++ u :: back ∧ Lone (front.getLast?.or before) u back.head?

theorem unpaired_iff (us : List UInt16) : Unpaired us ↔ UnpairedBehind none us := by
  simp only [Unpaired, UnpairedBehind, Option.or_none]

theorem not_unpairedBehind_nil (before : Option UInt16) : ¬UnpairedBehind before [] := by
  intro h
  obtain ⟨front, u, back, heq, _⟩ := h
  simp at heq

theorem unpairedBehind_cons {before : Option UInt16} {u : UInt16} {rest : List UInt16} :
    UnpairedBehind before (u :: rest) ↔ Lone before u rest.head? ∨ UnpairedBehind (some u) rest := by
  have hlast (front : List UInt16) : (u :: front).getLast?.or before = front.getLast?.or (some u) := by
    rw [List.getLast?_cons]
    cases front.getLast? <;> rfl
  constructor
  · intro h
    obtain ⟨front, w, back, heq, hlone⟩ := h
    cases front with
    | nil =>
      obtain ⟨rfl, rfl⟩ := List.cons.inj heq
      exact .inl hlone
    | cons first front =>
      obtain ⟨rfl, rfl⟩ := List.cons.inj heq
      exact .inr ⟨front, w, back, rfl, hlast front ▸ hlone⟩
  · intro h
    cases h with
    | inl hlone => exact ⟨[], u, rest, rfl, hlone⟩
    | inr hrest =>
      obtain ⟨front, w, back, rfl, hlone⟩ := hrest
      exact ⟨u :: front, w, back, rfl, (hlast front).symm ▸ hlone⟩

theorem not_isHigh_of_isLow {u : UInt16} (h : isLow u) : ¬isHigh u := by
  rw [isLow_iff] at h
  rw [isHigh_iff]
  omega

/-- Decoding never stops between the two units of a pair, so what it has behind it is no high
surrogate. -/
theorem chars?_eq_none (us : List UInt16) (before : Option UInt16) (hbefore : ∀ v ∈ before, ¬isHigh v) :
    chars? us = none ↔ UnpairedBehind before us := by
  fun_induction chars? us generalizing before with
  | case1 => simp [not_unpairedBehind_nil]
  | case2 u hhigh v rest hlow ih =>
    have hu : ¬isLow u := fun hlow => not_isHigh_of_isLow hlow hhigh
    have hv : ∀ w ∈ some v, ¬isHigh w := by simpa using not_isHigh_of_isLow hlow
    have hrest := ih (some v) hv
    simp [unpairedBehind_cons, Lone, hhigh, hlow, hu, not_isHigh_of_isLow hlow, hrest]
  | case3 u hhigh v rest hlow => simp [unpairedBehind_cons, Lone, hhigh, hlow]
  | case4 u hhigh => simp [unpairedBehind_cons, Lone, hhigh]
  | case5 u rest hhigh hlow =>
    have hlone : Lone before u rest.head? := .inr ⟨hlow, hbefore⟩
    simp [unpairedBehind_cons, hlone]
  | case6 u rest hhigh hlow ih =>
    have hu : ∀ w ∈ some u, ¬isHigh w := by simpa using hhigh
    have hrest := ih (some u) hu
    simp [unpairedBehind_cons, Lone, hhigh, hlow, hrest]

theorem decode?_eq_none {us : List UInt16} : decode? us = none ↔ Unpaired us := by
  rw [decode?, Option.map_eq_none_iff, unpaired_iff]
  exact chars?_eq_none us none (by simp)

/-! ### Bytes and the units they carry -/

/-- The bytes are those of the units, low byte first, with at most an odd byte behind them. -/
def Carries (bytes : List UInt8) (us : List UInt16) : Prop := bytes.take (2 * (bytes.length / 2)) = toBytes us

instance (bytes : List UInt8) (us : List UInt16) : Decidable (Carries bytes us) :=
  inferInstanceAs (Decidable (_ = _))

theorem toBytes_ofBytes (bytes : List UInt8) : toBytes (ofBytes bytes) = bytes.take (2 * (bytes.length / 2)) := by
  fun_induction ofBytes bytes with
  | case1 low high rest ih =>
    have hlow : low.toNat < 256 := low.toNat_lt
    have hhigh : high.toNat < 256 := high.toNat_lt
    have hcount : 2 * ((low :: high :: rest).length / 2) = 2 * (rest.length / 2) + 1 + 1 := by
      simp only [List.length_cons]
      omega
    have hunit : (UInt16.ofNat (low.toNat + 256 * high.toNat)).toNat = low.toNat + 256 * high.toNat :=
      UInt16.toNat_ofNat_of_lt' (by simp only [UInt16.size]; omega)
    have hfirst : UInt8.ofNat (low.toNat + 256 * high.toNat) = low := by
      apply UInt8.toNat_inj.1
      rw [UInt8.toNat_ofNat']
      omega
    have hsecond : UInt8.ofNat ((low.toNat + 256 * high.toNat) / 256) = high := by
      apply UInt8.toNat_inj.1
      rw [UInt8.toNat_ofNat']
      omega
    rw [toBytes_cons, ih, hunit, hfirst, hsecond, hcount, List.take_succ_cons, List.take_succ_cons]
  | case2 bytes hshort =>
    match bytes, hshort with
    | [], _ => rfl
    | [odd], _ => simp [toBytes]
    | low :: high :: rest, hshort => exact absurd rfl (hshort low high rest)

theorem carries_iff {bytes : List UInt8} {us : List UInt16} : Carries bytes us ↔ ofBytes bytes = us := by
  rw [Carries, ← toBytes_ofBytes]
  constructor
  · intro h
    rw [← ofBytes_toBytes_append (ofBytes bytes) 0, h, ofBytes_toBytes_append]
  · intro h
    rw [h]

end Text.Utf16

/-! ### Entries -/

/-- An entry with this payload stands at the index: a spelling of its length and then the payload,
all of it inside the data. -/
def Bytes.EntryAt (data : ByteArray) (index : Nat) (payload : List UInt8) : Prop :=
  ∃ lead, Compressed.Spells lead payload.length ∧ lead ++ payload <+: ahead data index

/-- The data end too soon for an entry at the index. -/
inductive Bytes.Overruns (data : ByteArray) (index : Nat) : Prop where
  | outside : data.size ≤ index → Overruns data index
  /-- They end inside the form of a length that the first byte announces. -/
  | length {first : UInt8} {form : Compressed.Form} : byte? data index = some first →
    Compressed.Form.ofLead? first = some form → data.size < index + form.width → Overruns data index
  /-- They end inside the payload. -/
  | payload {lead : List UInt8} {count : Nat} : Compressed.Spells lead count → lead <+: ahead data index →
    data.size < index + lead.length + count → Overruns data index

/-- No length starts with the first byte at the index. -/
def Bytes.NoLength (data : ByteArray) (index : Nat) (first : UInt8) : Prop :=
  byte? data index = some first ∧ 0xE0 ≤ first.toNat

theorem Bytes.overruns_iff {data : ByteArray} {index : Nat} :
    Overruns data index ↔ Compressed.read data index = .error .short ∨
      ∃ count width, Compressed.read data index = .ok (count, width) ∧ data.size < index + width + count := by
  constructor
  · intro h
    cases h with
    | outside hout => exact .inl (Compressed.read_eq_short.2 (.inl (byte?_eq_none.2 hout)))
    | length hfirst hform hend =>
      have hinside := lt_size_of_byte? hfirst
      exact .inl (Compressed.read_eq_short.2 (.inr ⟨_, _, hfirst, hform, by omega⟩))
    | payload hspells hlead hend => exact .inr ⟨_, _, Compressed.read_of_spells hspells hlead, hend⟩
  · intro h
    rcases h with hshort | ⟨count, width, hread, hend⟩
    · rcases Compressed.read_eq_short.1 hshort with hnone | ⟨first, form, hfirst, hform, hend⟩
      · exact .outside (byte?_eq_none.1 hnone)
      · exact .length hfirst hform (by omega)
    · obtain ⟨lead, hspells, rfl, hlead⟩ := Compressed.read_eq_ok.1 hread
      exact .payload hspells hlead hend

namespace Heap

variable {kind : HeapKind}

theorem exists_entry {h : Heap kind} {index : Nat} (P : List UInt8 → Prop) :
    (∃ bytes, h.entry index = .ok bytes ∧ P (octets bytes)) ↔
      ∃ payload, EntryAt h.bytes index payload ∧ P payload := by
  constructor
  · intro hfound
    obtain ⟨bytes, hentry, hpayload⟩ := hfound
    exact ⟨octets bytes, entry_eq_ok.1 hentry, hpayload⟩
  · intro hfound
    obtain ⟨payload, hentry, hpayload⟩ := hfound
    refine ⟨payload.toByteArray, entry_eq_ok.2 ?_, ?_⟩
    · rwa [← length_octets, octets_toByteArray]
    · rwa [octets_toByteArray]

/-- An entry is missing because the heap ends too soon, or because no length starts there. -/
theorem entry_eq_error {h : Heap kind} {index : Nat} {e : Error} :
    h.entry index = .error e ↔
      e = .outOfBounds ∧ Overruns h.bytes index ∨
        ∃ first, NoLength h.bytes index first ∧ e = .malformed (.compressedLead first.toNat 0) := by
  simp only [NoLength, ← Compressed.read_eq_lead, overruns_iff]
  unfold entry slice
  rcases hread : Compressed.read h.bytes index with (_ | first) | ⟨count, width⟩
  · simp [eq_comm]
  · simp [eq_comm]
  · cases hw : window? h.bytes (index + width) count with
    | none =>
      have hend := window?_eq_none.1 hw
      simp [hw, hend, eq_comm (a := e)]
    | some w =>
      have hend := Nat.not_lt.2 (window?_eq_some.1 hw).1
      simp [hw, hend]

theorem literal_eq_error {h : Heap .userStrings} {index : Nat} {e : Error} :
    h.literal index = .error e ↔
      h.entry index = .error e ∨ ∃ payload, h.entry index = .ok payload ∧
        Utf16.decode? (Utf16.ofBytes (octets payload)) = none ∧ e = .malformed (.badLiteral index) := by
  unfold literal
  cases h.entry index with
  | error e' => simp
  | ok payload =>
    cases hdecode : Utf16.decode? (Utf16.ofBytes (octets payload)) <;> simp [hdecode, eq_comm]

end Heap

/-- **Literals are exactly the well-formed entries.** There is a literal at an index when an entry
stands there whose payload carries its units, with or without an odd byte behind them. Otherwise
the heap ends too soon, or the first byte starts no length, or the entry carries a surrogate
outside of a pair. A store gives the same answer for the token of the index, but calls the token
not found where the heap ends too soon. -/
theorem literal_grammar {data : ByteArray} {h : Heap .userStrings}
    (hheap : Heap.ofBytes .userStrings data = .ok h) (index : Nat) :
    (∀ s, h.literal index = .ok s ↔
      ∃ payload, EntryAt data index payload ∧ Utf16.Carries payload (Utf16.encode s)) ∧
    (∀ e, h.literal index = .error e ↔
      e = .outOfBounds ∧ Overruns data index ∨
      (∃ first, NoLength data index first ∧ e = .malformed (.compressedLead first.toNat 0)) ∨
      ∃ payload us, EntryAt data index payload ∧ Utf16.Carries payload us ∧ Utf16.Unpaired us ∧
        e = .malformed (.badLiteral index)) ∧
    ∀ (store : Store) (token : Token), store.literals = h → token.table? = some .userString →
      token.row = index → store.literal token = (h.literal index).mapError fun e =>
        if e = .outOfBounds then .tokenNotFound token else e := by
  obtain rfl := Heap.bytes_of_ofBytes hheap
  refine ⟨?_, ?_, ?_⟩
  · intro s
    rw [Heap.literal_eq_ok, Heap.exists_entry fun payload => Utf16.decode? (Utf16.ofBytes payload) = some s]
    simp only [Utf16.decode?_eq_some, Utf16.carries_iff]
  · intro e
    rw [Heap.literal_eq_error, Heap.entry_eq_error, or_assoc, Heap.exists_entry fun payload =>
      Utf16.decode? (Utf16.ofBytes payload) = none ∧ e = .malformed (.badLiteral index)]
    simp only [Utf16.decode?_eq_none, Utf16.carries_iff, exists_and_left, exists_eq_left']
  · intro store token hstore htable hrow
    subst hstore hrow
    rw [Store.literal, if_pos htable]
    rcases store.literals.literal token.row with e | s
    · cases e <;> rfl
    · rfl

/-- A pair of surrogates with an odd byte behind it, a low one alone, a byte that starts no length,
and one that starts a longer length than there is left. -/
theorem literal_grammar_surrogates :
    let data : ByteArray := ⟨#[0x00, 0x05, 0x3D, 0xD8, 0x00, 0xDE, 0x01, 0x03, 0x00, 0xDC, 0x00, 0xE1, 0x82]⟩
    let h : Heap .userStrings := ⟨data, rfl⟩
    let token := Token.ofParts .userString 12
    Heap.ofBytes .userStrings data = .ok h ∧ h.literal 1 = .ok "😀" ∧
      h.literal 7 = .error (.malformed (.badLiteral 7)) ∧
      h.literal 11 = .error (.malformed (.compressedLead 0xE1 0)) ∧
      h.literal 12 = .error .outOfBounds ∧
      Store.literal { literals := h } token = .error (.tokenNotFound token) := by
  intro data h token
  have hheap : Heap.ofBytes .userStrings data = .ok h := dif_pos rfl
  have hpair : EntryAt data 1 [0x3D, 0xD8, 0x00, 0xDE, 0x01] :=
    ⟨[0x05], ⟨Compressed.byteForm, by decide, by decide, by decide⟩, by decide⟩
  have halone : EntryAt data 7 [0x00, 0xDC, 0x00] :=
    ⟨[0x03], ⟨Compressed.byteForm, by decide, by decide, by decide⟩, by decide⟩
  have hunpaired : Utf16.Unpaired [0xDC00] := ⟨[], 0xDC00, [], rfl, .inr ⟨by decide, by simp⟩⟩
  have hfirst : byte? data 12 = some 0x82 := rfl
  have hform : Compressed.Form.ofLead? 0x82 = some Compressed.pairForm := rfl
  have hshort : h.literal 12 = .error .outOfBounds :=
    ((literal_grammar hheap 12).2.1 _).2 (.inl ⟨rfl, .length hfirst hform (by decide)⟩)
  refine ⟨hheap, ?_, ?_, ?_, hshort, ?_⟩
  · exact ((literal_grammar hheap 1).1 _).2 ⟨_, hpair, by decide +kernel⟩
  · exact ((literal_grammar hheap 7).2.1 _).2 (.inr (.inr ⟨_, _, halone, by decide +kernel, hunpaired, rfl⟩))
  · exact ((literal_grammar hheap 11).2.1 _).2 (.inr (.inl ⟨0xE1, ⟨rfl, by decide⟩, rfl⟩))
  · rw [(literal_grammar hheap 12).2.2 { literals := h } token rfl (by decide) (by decide), hshort]
    rfl

end Cil
