import Cil.Proofs.Growth
import Cil.Proofs.Utf16

/-! What was added reads back.

An entry is written behind everything that its heap holds, as a spelling of its
size and then its bytes, so it is read where the heap ended (`Heap.entry_append`),
whatever stands before it. A literal's bytes are its units and a flag, and the flag
is the odd byte that decoding leaves out. The token of a new row or literal says
where that is, as it is only given out when its place fits (`Store.tokenFor_eq_ok`). -/
namespace Cil

open Bytes Text

/-! ### Entries -/

/-- The bytes are a length-prefixed entry with this payload. -/
def IsEntry (entry payload : ByteArray) : Prop :=
  ∃ lead, Compressed.Spells lead payload.size ∧ octets entry = lead ++ octets payload

theorem isEntry_of_pushCompressed {payload lead : ByteArray}
    (h : pushCompressed .empty payload.size = .ok lead) : IsEntry (lead ++ payload) payload := by
  unfold pushCompressed at h
  split at h
  · next bytes hbytes =>
    cases h
    refine ⟨bytes, Compressed.spells_encode? hbytes, ?_⟩
    rw [octets_append, ByteArray.empty_append, octets_toByteArray]
  · cases h

/-- What is appended lies ahead of where the heap ended. -/
theorem Heap.ahead_append {kind : HeapKind} (h : Heap kind) (tail : ByteArray) :
    ahead (h.append tail).bytes h.size = octets tail := by
  rw [ahead, append, octets_append, size, ← length_octets, List.drop_left]

/-- An entry that is appended is read where the heap ended. -/
theorem Heap.entry_append {kind : HeapKind} (h : Heap kind) {tail payload : ByteArray}
    (htail : IsEntry tail payload) : (h.append tail).entry h.size = .ok payload := by
  obtain ⟨lead, hspells, hoctets⟩ := htail
  refine entry_eq_ok.2 ⟨lead, hspells, ?_⟩
  rw [ahead_append, hoctets]

namespace Store

open Update

theorem isEntry_of_blobEntry {value entry : ByteArray} (h : blobEntry value = .ok entry) :
    IsEntry entry value := by
  unfold blobEntry at h
  split at h
  · obtain ⟨lead, hlead, hentry⟩ := bind_eq_ok.1 h
    cases hentry
    exact isEntry_of_pushCompressed hlead
  · cases h

/-- The payload of a literal's entry decodes to the literal. -/
theorem isEntry_of_literalEntry {value : String} {entry : ByteArray} (h : literalEntry value = .ok entry) :
    ∃ payload, IsEntry entry payload ∧ Utf16.decode? (Utf16.ofBytes (octets payload)) = some value := by
  simp only [literalEntry] at h
  split at h
  · obtain ⟨lead, hlead, hentry⟩ := bind_eq_ok.1 h
    cases hentry
    refine ⟨_, isEntry_of_pushCompressed ?_, ?_⟩
    -- the length that is written counts the flag, the units that are read do not
    · rw [← length_octets, octets_toByteArray, List.length_append, List.length_singleton,
        Utf16.length_toBytes, hlead]
    · rw [octets_toByteArray, Utf16.ofBytes_toBytes_append, Utf16.decode?_encode]
  · cases h

/-! ### Places -/

theorem nextIndex_eq_ok {kind : HeapKind} {h : Heap kind} {index : Nat} (hok : nextIndex h = .ok index) :
    index = h.size := by
  unfold nextIndex at hok
  split at hok
  · exact (Except.ok.inj hok).symm
  · cases hok

/-- A token that is given out carries its table and the whole row. -/
theorem tokenFor_eq_ok {t : Table} {row : Nat} {token : Token} (h : tokenFor t row = .ok token) :
    token.table? = some t ∧ token.row = row := by
  unfold tokenFor at h
  split at h
  · next hrow =>
    cases h
    refine ⟨Token.table?_ofParts t row, ?_⟩
    rw [Token.maxRow] at hrow
    rw [Token.row_ofParts, Nat.mod_eq_of_lt (by omega)]
  · cases h

/-! ### Updates -/

theorem row_of_push {t : Table} {row : Row t} {s s' : Store} {token : Token}
    (h : (push row).run s = (.ok token, s')) : token.table? = some t ∧ s'.row t token = .ok row := by
  rw [run_push] at h
  obtain ⟨_, htoken, hpure⟩ := bind_eq_ok.1 (atomic_eq_ok.1 h)
  cases hpure
  obtain ⟨htable, hrow⟩ := tokenFor_eq_ok htoken
  refine ⟨htable, row_eq_ok.2 ⟨by omega, ?_⟩⟩
  rw [hrow, Rows.get_push_self]
  exact Array.getElem?_push_size

theorem blob_of_addBlob {value : ByteArray} {s s' : Store} {index : Nat}
    (h : (addBlob value).run s = (.ok index, s')) : s'.blobs.blob index = .ok value := by
  rw [run_addBlob] at h
  obtain ⟨_, hindex, hrest⟩ := bind_eq_ok.1 (atomic_eq_ok.1 h)
  obtain ⟨entry, hentry, hpure⟩ := bind_eq_ok.1 hrest
  cases hpure
  rw [nextIndex_eq_ok hindex]
  exact s.blobs.entry_append (isEntry_of_blobEntry hentry)

theorem literal_of_addLiteral {value : String} {s s' : Store} {token : Token}
    (h : (addLiteral value).run s = (.ok token, s')) :
    token.table? = some .userString ∧ s'.literal token = .ok value := by
  rw [run_addLiteral] at h
  obtain ⟨index, hindex, hrest⟩ := bind_eq_ok.1 (atomic_eq_ok.1 h)
  obtain ⟨_, htoken, hrest⟩ := bind_eq_ok.1 hrest
  obtain ⟨entry, hentry, hpure⟩ := bind_eq_ok.1 hrest
  cases hpure
  obtain ⟨htable, hrow⟩ := tokenFor_eq_ok htoken
  obtain ⟨payload, hpayload, hdecode⟩ := isEntry_of_literalEntry hentry
  refine ⟨htable, literal_eq_ok.2 ⟨htable, Heap.literal_eq_ok.2 ⟨payload, ?_, hdecode⟩⟩⟩
  rw [hrow, nextIndex_eq_ok hindex]
  exact s.literals.entry_append hpayload

/-- The token of a pushed row resolves to what the row names. -/
theorem resolve_of_push {t : Table} {row : Row t} {s s' : Store} {token : Token}
    (h : (push row).run s = (.ok token, s')) : s'.resolve token = s'.symbol token row := by
  obtain ⟨htable, hrow⟩ := row_of_push h
  have hrows : t ≠ .userString := by cases row <;> nofun
  rw [resolve_row htable hrows, hrow]
  rfl

/-- A row resolves to the blob that its index leads to when it is pushed. -/
theorem resolve_of_push_standAloneSig {s s' : Store} {index : Nat} {token : Token} {value : ByteArray}
    (hblob : s.blobs.blob index = .ok value)
    (h : (push (.standAloneSig index)).run s = (.ok token, s')) :
    s'.resolve token = .ok (.signature token value) := by
  have hext := (grows_push (.standAloneSig index)).extends h
  rw [resolve_of_push h]
  exact bind_eq_ok.2 ⟨value, hext.blobs.entry index value hblob, rfl⟩

end Store

/-- **What was added reads back exactly.** Whatever a store holds: a literal that it has
taken is the text behind its token, a signature that it has taken is what its token
resolves to, and a blob that it has taken is the signature of every row that is pushed
with its index, right away or after further edits. -/
theorem payloads_read_back (s : Store) :
    (∀ (text : String) (token : Token) (s' : Store),
      (Store.addLiteral text).run s = (.ok token, s') →
        s'.literal token = .ok text ∧ s'.resolve token = .ok (.literal token text)) ∧
    (∀ (bytes : ByteArray) (token : Token) (s' : Store),
      (Store.addStandAloneSig bytes).run s = (.ok token, s') →
        s'.resolve token = .ok (.signature token bytes)) ∧
    (∀ (bytes : ByteArray) (index : Nat) (s₁ : Store),
      (Store.addBlob bytes).run s = (.ok index, s₁) →
        ∀ (history : List Edit) (token : Token) (s₂ : Store),
          (Store.push (.standAloneSig index)).run (Edit.run s₁ history).2 = (.ok token, s₂) →
            s₂.resolve token = .ok (.signature token bytes)) := by
  refine ⟨?literal, ?signature, ?blob⟩
  case literal =>
    intro text token s' h
    obtain ⟨htable, hliteral⟩ := Store.literal_of_addLiteral h
    rw [Store.resolve_literal htable]
    exact ⟨hliteral, bind_eq_ok.2 ⟨text, hliteral, rfl⟩⟩
  case signature =>
    intro bytes token s' h
    obtain ⟨index, s₁, hadd, hpush⟩ := Update.run_bind_eq_ok.1 h
    exact Store.resolve_of_push_standAloneSig (Store.blob_of_addBlob hadd) hpush
  case blob =>
    intro bytes index s₁ hadd history token s₂ hpush
    have hblob := (Edit.extends_run s₁ history).blobs.entry index bytes (Store.blob_of_addBlob hadd)
    exact Store.resolve_of_push_standAloneSig hblob hpush

/-- A literal with a surrogate pair, a signature and a blob, in heaps that end within a length. -/
theorem payloads_read_back_damaged :
    let s : Store := { literals := ⟨⟨#[0x00, 0xC0]⟩, rfl⟩, blobs := ⟨⟨#[0x00, 0x85]⟩, rfl⟩ }
    let literal := (Store.addLiteral "é😀").run s
    let signature := (Store.addStandAloneSig ⟨#[0x07, 0x00]⟩).run s
    let blob := (Store.addBlob .empty).run s
    let pushed := (Store.push (.standAloneSig 2)).run (Edit.run blob.2 [.addBlob ⟨#[0xE0]⟩]).2
    (literal.1 = .ok ⟨0x70000002⟩ ∧ literal.2.literal ⟨0x70000002⟩ = .ok "é😀" ∧
      literal.2.resolve ⟨0x70000002⟩ = .ok (.literal ⟨0x70000002⟩ "é😀")) ∧
    (signature.1 = .ok ⟨0x11000001⟩ ∧
      signature.2.resolve ⟨0x11000001⟩ = .ok (.signature ⟨0x11000001⟩ ⟨#[0x07, 0x00]⟩)) ∧
    (blob.1 = .ok 2 ∧ pushed.1 = .ok ⟨0x11000001⟩ ∧
      pushed.2.resolve ⟨0x11000001⟩ = .ok (.signature ⟨0x11000001⟩ .empty)) := by
  intro s literal signature blob pushed
  obtain ⟨hliterals, hsignatures, hblobs⟩ := payloads_read_back s
  have hliteral : literal.1 = .ok ⟨0x70000002⟩ := by
    simp only [literal]
    decide +kernel
  have hsignature : signature.1 = .ok ⟨0x11000001⟩ := by decide +kernel
  have hblob : blob.1 = .ok 2 := by decide +kernel
  have hpushed : pushed.1 = .ok ⟨0x11000001⟩ := by decide +kernel
  exact ⟨⟨hliteral, hliterals _ _ literal.2 (Prod.ext hliteral rfl)⟩,
    ⟨hsignature, hsignatures _ _ signature.2 (Prod.ext hsignature rfl)⟩,
    hblob, hpushed, hblobs _ _ blob.2 (Prod.ext hblob rfl) _ _ pushed.2 (Prod.ext hpushed rfl)⟩

end Cil
