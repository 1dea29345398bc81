import Cil.Instr.Decode
import Cil.Instr.Encode
import Mathlib.Data.List.Nodup

/-! How an instruction lies in its code.

The bytes ahead of a position decide what is decoded there (`decodeAt_eq`): an
opcode of the catalogue by its code, and behind it as many bytes as its operand
takes (`fetch_eq_ok`). What follows those is not looked at: unless the bytes end
inside the instruction, more of them change nothing (`fetch_append`). -/
namespace Cil

open Bytes

/-! ### The bytes ahead of a position -/

namespace Bytes

/-- The bytes of a buffer at and behind a position. -/
def ahead (data : ByteArray) (pos : Nat) : List UInt8 := (octets data).drop pos

@[simp]
theorem length_ahead (data : ByteArray) (pos : Nat) : (ahead data pos).length = data.size - pos := by
  simp [ahead]

theorem drop_ahead (data : ByteArray) (pos count : Nat) :
    (ahead data pos).drop count = ahead data (pos + count) := by
  simp [ahead, List.drop_drop]

@[simp]
theorem octets_toByteArray (bytes : List UInt8) : octets bytes.toByteArray = bytes := by
  simp [octets]

theorem byte?_eq_head? (data : ByteArray) (pos : Nat) : byte? data pos = (ahead data pos).head? := by
  rw [byte?_eq, ahead, List.head?_drop]

theorem byte?_eq_none {data : ByteArray} {pos : Nat} : byte? data pos = none ↔ data.size ≤ pos := by
  simp [byte?_eq]

theorem lt_size_of_byte? {data : ByteArray} {pos : Nat} {b : UInt8} (h : byte? data pos = some b) :
    pos < data.size := by
  by_contra hpos
  rw [byte?_eq_none.2 (Nat.not_lt.1 hpos)] at h
  cases h

theorem exists_byte? {data : ByteArray} {pos : Nat} (h : pos < data.size) : ∃ b, byte? data pos = some b :=
  ⟨data[pos], dif_pos h⟩

/-- The byte at a position is the first of those ahead. -/
theorem ahead_of_byte? {data : ByteArray} {pos : Nat} {b : UInt8} (h : byte? data pos = some b) :
    ahead data pos = b :: ahead data (pos + 1) := by
  rw [byte?_eq_head?, List.head?_eq_some_iff] at h
  obtain ⟨rest, hrest⟩ := h
  rw [← drop_ahead, hrest, List.drop_one, List.tail_cons]

theorem octets_of_window? {data w : ByteArray} {start count : Nat}
    (h : window? data start count = some w) : octets w = (ahead data start).take count := by
  obtain ⟨_, rfl⟩ := window?_eq_some.1 h
  rw [octets_extract, ahead, List.drop_take, Nat.add_sub_cancel_left]

theorem window?_eq_none {data : ByteArray} {start count : Nat} :
    window? data start count = none ↔ data.size < start + count := by
  simp [window?]

theorem ahead_append (data more : ByteArray) {pos : Nat} (h : pos ≤ data.size) :
    ahead (data ++ more) pos = ahead data pos ++ octets more := by
  rw [ahead, octets_append, List.drop_append_of_le_length (by simpa using h), ahead]

end Bytes

/-! ### The catalogue -/

namespace Opcode

/-- Codes are single bytes other than the escape byte, or two bytes that start with it. -/
theorem code_range {op : Opcode} (h : op ∈ catalogue) :
    op.code < 0xFE ∨ 0xFE00 ≤ op.code ∧ op.code < 0xFF00 := by
  revert op
  decide +kernel

/-- The catalogue stands in the order of its codes, so that it lists none twice. -/
theorem nodup_codes : (catalogue.map code).Nodup := by
  have hchain : (catalogue.map code).IsChain (· < ·) := by decide +kernel
  exact (List.isChain_iff_pairwise.1 hchain).imp Nat.ne_of_lt

theorem lookup_of_mem {op : Opcode} (h : op ∈ catalogue) : lookup op.code = .ok op := by
  unfold lookup
  split
  · next found hfind =>
    have hcode : found.code = op.code := by simpa using List.find?_some hfind
    have hmem := List.mem_of_find?_eq_some hfind
    rw [List.inj_on_of_nodup_map nodup_codes hmem h hcode]
  · next hfind =>
    have hne := List.find?_eq_none.1 hfind op h
    simp at hne

theorem lookup_error {code : Nat} {e : Error} (h : lookup code = .error e) :
    e = .unknownOpcode code := by
  unfold lookup at h
  split at h
  · cases h
  · exact (Except.error.inj h).symm

/-- Only `ldtoken` takes members as well as types. -/
theorem ldtoken_of_genericToken {op : Opcode} (h : op ∈ catalogue) (hkind : op.kind = .genericToken) :
    op.mnemonic = "ldtoken" ∧ op.toBytes = [0xD0] := by
  revert op
  decide +kernel

/-! ### The opcode at the front of bytes -/

@[simp]
theorem length_toBytes (op : Opcode) : op.toBytes.length = op.codeWidth := by
  simp [toBytes]

theorem toBytes_of_le {op : Opcode} (h : op.code ≤ 0xFF) : op.toBytes = [UInt8.ofNat op.code] := by
  simp [toBytes, codeWidth, Nat.not_lt.2 h, toBE, toLE]

theorem toBytes_of_gt {op : Opcode} (h : 0xFF < op.code) :
    op.toBytes = [UInt8.ofNat (op.code / 256), UInt8.ofNat op.code] := by
  simp [toBytes, codeWidth, h, toBE, toLE]

/-- The code of the opcode at the front of the bytes. -/
def front : List UInt8 → Except Error Nat
  | [] => .error .truncated
  | first :: rest =>
    if first.toNat = escapeByte then
      match rest.head? with
      | none => .error .truncated
      | some second => .ok (256 * escapeByte + second.toNat)
    else .ok first.toNat

theorem front_toBytes {op : Opcode} (h : op ∈ catalogue) (rest : List UInt8) :
    front (op.toBytes ++ rest) = .ok op.code := by
  rcases code_range h with hplain | ⟨hlow, hhigh⟩
  · have hbyte : (UInt8.ofNat op.code).toNat = op.code := by
      rw [UInt8.toNat_ofNat']
      omega
    rw [toBytes_of_le (by omega), List.singleton_append, front, hbyte, if_neg]
    exact Nat.ne_of_lt hplain
  · have hfirst : (UInt8.ofNat (op.code / 256)).toNat = escapeByte := by
      rw [UInt8.toNat_ofNat', escapeByte]
      omega
    have hsecond : 256 * escapeByte + (UInt8.ofNat op.code).toNat = op.code := by
      rw [UInt8.toNat_ofNat', escapeByte]
      omega
    rw [toBytes_of_gt (by omega), List.cons_append, List.singleton_append, front, if_pos hfirst]
    simp only [List.head?_cons, hsecond]

/-- The bytes a code was read from are the bytes of the opcode that has it. -/
theorem toBytes_isPrefix {op : Opcode} {bytes : List UInt8} (h : front bytes = .ok op.code) :
    op.toBytes <+: bytes := by
  cases bytes with
  | nil => cases h
  | cons first rest =>
    rw [front] at h
    split at h
    · next hescape =>
      cases rest with
      | nil => cases h
      | cons second rest =>
        have hcode : 256 * escapeByte + second.toNat = op.code := Except.ok.inj h
        have hlt : second.toNat < 256 := second.toNat_lt
        rw [escapeByte] at hcode hescape
        have hfirst : UInt8.ofNat (op.code / 256) = first := by
          apply UInt8.toNat_inj.1
          rw [UInt8.toNat_ofNat']
          omega
        have hsecond : UInt8.ofNat op.code = second := by
          apply UInt8.toNat_inj.1
          rw [UInt8.toNat_ofNat']
          omega
        rw [toBytes_of_gt (by omega), hfirst, hsecond]
        exact ⟨rest, rfl⟩
    · have hcode : first.toNat = op.code := Except.ok.inj h
      have hlt : first.toNat < 256 := first.toNat_lt
      rw [toBytes_of_le (by omega), ← hcode, UInt8.ofNat_toNat]
      exact ⟨rest, rfl⟩

theorem front_error {bytes : List UInt8} {e : Error} (h : front bytes = .error e) : e = .truncated := by
  match bytes with
  | [] => exact (Except.error.inj h).symm
  | [first] =>
    by_cases hescape : first.toNat = escapeByte
    · simpa [front, hescape] using h.symm
    · simp [front, hescape] at h
  | first :: second :: rest =>
    by_cases hescape : first.toNat = escapeByte
    · simp [front, hescape] at h
    · simp [front, hescape] at h

/-- Once a code can be read, bytes behind it do not change it. -/
theorem front_append {bytes : List UInt8} (h : front bytes ≠ .error .truncated) (more : List UInt8) :
    front (bytes ++ more) = front bytes := by
  match bytes with
  | [] => exact absurd rfl h
  | [first] =>
    by_cases hescape : first.toNat = escapeByte
    · simp [front, hescape] at h
    · simp [front, hescape]
  | first :: second :: rest => rfl

end Opcode

/-! ### The instruction at the front of bytes -/

namespace Instr

theorem codeAt_eq (data : ByteArray) (pos : Nat) : codeAt data pos = Opcode.front (ahead data pos) := by
  rw [codeAt, byte?_eq_head?, byte?_eq_head?, ← drop_ahead]
  cases ahead data pos with
  | nil => rfl
  | cons first rest => rfl

/-- The opcode at the front of the bytes, and the bytes of its operand. -/
def fetch (bytes : List UInt8) : Except Error (Opcode × List UInt8) := do
  let op ← Opcode.lookup (← Opcode.front bytes)
  if op.size ≤ bytes.length then .ok (op, (bytes.drop op.codeWidth).take op.kind.width)
  else .error .truncated

/-- The instruction at the front of the bytes, which stand at an address. -/
def ofBytes (r : Resolver) (address : Nat) (bytes : List UInt8) : Except Error Instr := do
  let (op, operandBytes) ← fetch bytes
  let operand ← Operand.ofBytes r op.kind (address + op.size) operandBytes
  return { address, size := op.size, opcode := op, operand }

/-- Decoding looks at nothing but the bytes ahead. -/
theorem decodeAtIn_eq (r : Resolver) (data : ByteArray) (pos : Nat) :
    decodeAtIn r.symbols data pos = ofBytes r pos (ahead data pos) := by
  rw [decodeAtIn, ofBytes, fetch, codeAt_eq]
  cases hcode : Opcode.front (ahead data pos) with
  | error e => rfl
  | ok code =>
    cases hop : Opcode.lookup code with
    | error e => simp [bind, Except.bind, hop]
    | ok op =>
      have hcode' : op.code = code := (Opcode.lookup_eq_ok hop).2
      have hpre := Opcode.toBytes_isPrefix (hcode'.symm ▸ hcode)
      have hwidth : op.codeWidth ≤ data.size - pos := by simpa using hpre.length_le
      have hpos : 0 < op.codeWidth := by unfold Opcode.codeWidth; split <;> omega
      simp only [bind, Except.bind, hop, length_ahead, Opcode.size]
      cases hw : window? data (pos + op.codeWidth) op.kind.width with
      | none =>
        have := window?_eq_none.1 hw
        rw [if_neg (by omega)]
      | some w =>
        have := (window?_eq_some.1 hw).1
        rw [if_pos (by omega)]
        simp only [octets_of_window? hw, drop_ahead, Operand.ofBytes]

/-- What is fetched is an opcode of the catalogue, in its own bytes, and an operand's
width behind it; and whatever lies so is fetched. -/
theorem fetch_eq_ok {bytes operandBytes : List UInt8} {op : Opcode} :
    fetch bytes = .ok (op, operandBytes) ↔
      op ∈ Opcode.catalogue ∧ operandBytes.length = op.kind.width ∧
        op.toBytes ++ operandBytes <+: bytes := by
  constructor
  · intro h
    obtain ⟨code, hcode, hop⟩ := bind_eq_ok.1 h
    obtain ⟨found, hfound, hfetch⟩ := bind_eq_ok.1 hop
    split at hfetch
    · next hsize =>
      obtain ⟨rfl, rfl⟩ := Prod.mk.inj (Except.ok.inj hfetch)
      obtain ⟨hmem, rfl⟩ := Opcode.lookup_eq_ok hfound
      obtain ⟨rest, rfl⟩ := Opcode.toBytes_isPrefix hcode
      simp only [List.length_append, Opcode.length_toBytes, Opcode.size] at hsize
      rw [← Opcode.length_toBytes, List.drop_left]
      refine ⟨hmem, List.length_take_of_le (by omega), ?_⟩
      exact (List.prefix_append_right_inj _).2 (List.take_prefix _ _)
    · cases hfetch
  · rintro ⟨hmem, hlen, rest, rfl⟩
    have hsize : op.size ≤ (op.toBytes ++ (operandBytes ++ rest)).length := by
      simp only [List.length_append, Opcode.length_toBytes, Opcode.size]
      omega
    rw [List.append_assoc, fetch, Opcode.front_toBytes hmem]
    simp only [bind, Except.bind, Opcode.lookup_of_mem hmem]
    rw [if_pos hsize, ← Opcode.length_toBytes, List.drop_left, ← hlen, List.take_left]

/-- Fetching fails only for bytes that end too soon or a code that no opcode has. -/
theorem fetch_error {bytes : List UInt8} {e : Error} (h : fetch bytes = .error e) :
    e = .truncated ∨ ∃ code, e = .unknownOpcode code := by
  rcases bind_eq_error.1 h with hfront | ⟨code, _, hop⟩
  · exact .inl (Opcode.front_error hfront)
  · rcases bind_eq_error.1 hop with hlookup | ⟨op, _, hfetch⟩
    · exact .inr ⟨code, Opcode.lookup_error hlookup⟩
    · split at hfetch
      · cases hfetch
      · exact .inl (Except.error.inj hfetch).symm

/-- Unless the bytes end inside the instruction, more of them change nothing. -/
theorem fetch_append {bytes : List UInt8} (h : fetch bytes ≠ .error .truncated) (more : List UInt8) :
    fetch (bytes ++ more) = fetch bytes := by
  cases hfetch : fetch bytes with
  | ok fetched =>
    obtain ⟨op, operandBytes⟩ := fetched
    obtain ⟨hmem, hlen, hpre⟩ := fetch_eq_ok.1 hfetch
    exact fetch_eq_ok.2 ⟨hmem, hlen, hpre.trans (List.prefix_append _ _)⟩
  | error e =>
    rw [hfetch] at h
    rcases bind_eq_error.1 hfetch with hfront | ⟨code, hcode, hop⟩
    · exact absurd (congrArg _ (Opcode.front_error hfront)) h
    · rcases bind_eq_error.1 hop with hlookup | ⟨op, _, hshort⟩
      · have hfront : Opcode.front (bytes ++ more) = .ok code := by
          rw [Opcode.front_append (by rw [hcode]; nofun), hcode]
        exact bind_eq_error.2 (.inr ⟨code, hfront, bind_eq_error.2 (.inl hlookup)⟩)
      · split at hshort
        · cases hshort
        · exact absurd hshort.symm h

theorem ofBytes_of_fetch {r : Resolver} {address : Nat} {bytes operandBytes : List UInt8} {op : Opcode}
    (h : fetch bytes = .ok (op, operandBytes)) :
    ofBytes r address bytes =
      (Operand.ofBytes r op.kind (address + op.size) operandBytes).map fun operand =>
        { address, size := op.size, opcode := op, operand } := by
  rw [ofBytes, h]
  show (Operand.ofBytes r op.kind (address + op.size) operandBytes).bind _ = _
  cases Operand.ofBytes r op.kind (address + op.size) operandBytes <;> rfl

/-- An instruction is decoded exactly from an opcode of the catalogue and the bytes that its
operand is read from. -/
theorem ofBytes_eq_ok {r : Resolver} {address : Nat} {bytes : List UInt8} {i : Instr} :
    ofBytes r address bytes = .ok i ↔
      ∃ operandBytes, fetch bytes = .ok (i.opcode, operandBytes) ∧
        Operand.ofBytes r i.opcode.kind (address + i.opcode.size) operandBytes = .ok i.operand ∧
        i.address = address ∧ i.size = i.opcode.size := by
  constructor
  · intro h
    obtain ⟨⟨op, operandBytes⟩, hfetch, hop⟩ := bind_eq_ok.1 h
    obtain ⟨operand, hoperand, hpure⟩ := bind_eq_ok.1 hop
    cases hpure
    exact ⟨operandBytes, hfetch, hoperand, rfl, rfl⟩
  · rintro ⟨operandBytes, hfetch, hoperand, haddress, hsize⟩
    refine bind_eq_ok.2 ⟨_, hfetch, bind_eq_ok.2 ⟨_, hoperand, ?_⟩⟩
    show Except.ok (Instr.mk address i.opcode.size i.opcode i.operand) = .ok i
    rw [← haddress, ← hsize]

theorem address_of_ofBytes {r : Resolver} {address : Nat} {bytes : List UInt8} {i : Instr}
    (h : ofBytes r address bytes = .ok i) : i.address = address := by
  obtain ⟨_, _, _, haddress, _⟩ := ofBytes_eq_ok.1 h
  exact haddress

theorem size_of_ofBytes {r : Resolver} {address : Nat} {bytes : List UInt8} {i : Instr}
    (h : ofBytes r address bytes = .ok i) : i.size = i.opcode.size := by
  obtain ⟨_, _, _, _, hsize⟩ := ofBytes_eq_ok.1 h
  exact hsize

/-- Unless the bytes end inside the instruction, more of them change nothing. -/
theorem ofBytes_append {r : Resolver} {address : Nat} {bytes : List UInt8}
    (h : ofBytes r address bytes ≠ .error .truncated) (more : List UInt8) :
    ofBytes r address (bytes ++ more) = ofBytes r address bytes := by
  have hfetch : fetch bytes ≠ .error .truncated := fun hshort => h (bind_eq_error.2 (.inl hshort))
  rw [ofBytes, fetch_append hfetch, ofBytes]

end Instr
end Cil
