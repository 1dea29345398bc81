import Cil.Proofs.ReadBack

/-! What a failed edit leaves behind.

A row is added after the entries that it points to, and no part of a compound edit is
taken back when a later one is refused. So an edit that fails has written the parts
before the refused one, all of each and in order, and nothing else
(`Update.Leaves`): the rows and the literals are as they were, and an edit without
parts leaves the whole store as it was. -/
namespace Cil

open Bytes

/-! ### Room -/

/-- An entry has at least the byte of its length. -/
theorem IsEntry.size_pos {entry payload : ByteArray} (h : IsEntry entry payload) : 0 < entry.size := by
  obtain ⟨lead, hspells, hoctets⟩ := h
  have hlead := List.length_pos_of_ne_nil hspells.ne_nil
  rw [← length_octets, hoctets, List.length_append]
  omega

theorem Heap.size_append {kind : HeapKind} (h : Heap kind) (tail : ByteArray) :
    (h.append tail).size = h.size + tail.size :=
  ByteArray.size_append

/-- The bytes of the heaps that rows point to. -/
def Store.heapSize (s : Store) : Nat := s.strings.size + s.blobs.size

/-! ### Parts -/

/-- An entry that a compound edit adds to a heap before it adds its row. -/
inductive Edit.Part where
  | name (value : String)
  | blob (value : ByteArray)

namespace Edit.Part

def add : Part → Update Nat
  | name value => Store.addString value
  | blob value => Store.addBlob value

/-- The store with the entry in it; the empty name is always there. -/
def write (s : Store) : Part → Store
  | name value =>
    if value.isEmpty then s
    else { s with strings := s.strings.append (Store.identifierEntry value) }
  | blob value =>
    match Store.blobEntry value with
    | .ok entry => { s with blobs := s.blobs.append entry }
    | .error _ => s

/-- A part is written as a whole or not at all. -/
theorem run_add (part : Part) (s : Store) :
    (∃ index, part.add.run s = (.ok index, part.write s)) ∨
      ∃ err, part.add.run s = (.error err, s) := by
  cases part with
  | name value =>
    rw [add, Store.run_addString, write]
    split
    · exact .inl ⟨0, rfl⟩
    · cases Store.nextIndex s.strings with
      | error err => exact .inr ⟨err, rfl⟩
      | ok index => exact .inl ⟨index, rfl⟩
  | blob value =>
    rw [add, Store.run_addBlob, write]
    cases Store.nextIndex s.blobs with
    | error err => exact .inr ⟨err, rfl⟩
    | ok index =>
      cases Store.blobEntry value with
      | error err => exact .inr ⟨err, rfl⟩
      | ok entry => exact .inl ⟨index, rfl⟩

theorem frame_write (s : Store) (part : Part) :
    (part.write s).rows = s.rows ∧ (part.write s).literals = s.literals := by
  cases part <;> rw [write] <;> split <;> exact ⟨rfl, rfl⟩

theorem heapSize_le_write (s : Store) (part : Part) : s.heapSize ≤ (part.write s).heapSize := by
  cases part <;> rw [write] <;> split <;> simp only [Store.heapSize, Heap.size_append] <;> omega

/-- Every part but the empty name takes room. -/
theorem heapSize_lt_of_add {part : Part} {s s' : Store} {index : Nat} (hpart : part ≠ .name "")
    (h : part.add.run s = (.ok index, s')) : s.heapSize < s'.heapSize := by
  cases part with
  | name value =>
    have hvalue : ¬value.isEmpty := fun hempty => hpart (congrArg name (String.isEmpty_iff.1 hempty))
    rw [add, Store.run_addString, if_neg hvalue] at h
    obtain ⟨_, _, hpure⟩ := bind_eq_ok.1 (Update.atomic_eq_ok.1 h)
    cases hpure
    simp only [Store.heapSize, Heap.size_append, Store.identifierEntry, ByteArray.size_push]
    omega
  | blob value =>
    rw [add, Store.run_addBlob] at h
    obtain ⟨_, _, hrest⟩ := bind_eq_ok.1 (Update.atomic_eq_ok.1 h)
    obtain ⟨entry, hentry, hpure⟩ := bind_eq_ok.1 hrest
    cases hpure
    have hpos := (Store.isEntry_of_blobEntry hentry).size_pos
    simp only [Store.heapSize, Heap.size_append]
    omega

end Edit.Part

/-- The parts of an edit, in the order in which they are added. -/
def Edit.parts : Edit → List Part
  | push _ | addString _ | addBlob _ | addLiteral _ => []
  | addTypeRef space name | addTypeDef space name => [.name space, .name name]
  | addField name | addMethodDef name | addMemberRef name => [.name name]
  | addStandAloneSig signature | addTypeSpec signature => [.blob signature]
  | addMethodSpec _ instantiation => [.blob instantiation]

/-- The store with the entries of these parts in it. -/
def Edit.written (s : Store) (parts : List Edit.Part) : Store := parts.foldl Edit.Part.write s

/-- Parts are written to the heaps of identifiers and of blobs only. -/
theorem Edit.frame_written (s : Store) (parts : List Part) :
    (written s parts).rows = s.rows ∧ (written s parts).literals = s.literals := by
  induction parts generalizing s with
  | nil => exact ⟨rfl, rfl⟩
  | cons part rest ih =>
    obtain ⟨hrows, hliterals⟩ := part.frame_write s
    exact ⟨(ih _).1.trans hrows, (ih _).2.trans hliterals⟩

theorem Edit.heapSize_le_written (s : Store) (parts : List Part) :
    s.heapSize ≤ (written s parts).heapSize := by
  induction parts generalizing s with
  | nil => exact Nat.le_refl _
  | cons part rest ih => exact (part.heapSize_le_write s).trans (ih _)

/-- Empty names are there already. -/
theorem Edit.written_of_empty {parts : List Part} (h : ∀ part ∈ parts, part = .name "") (s : Store) :
    written s parts = s := by
  induction parts with
  | nil => rfl
  | cons part rest ih =>
    obtain ⟨rfl, hrest⟩ := List.forall_mem_cons.1 h
    exact ih hrest

/-! ### Failing half way -/

namespace Update

open Edit

variable {α β : Type}

/-- Where the update fails, it has written the parts before the one that was refused, if it
was one of the parts; that is nothing only where they are empty names. -/
def Leaves (u : Update α) (parts : List Part) : Prop :=
  ∀ s err s', u.run s = (.error err, s') →
    ∃ done rest, parts = done ++ rest ∧ s' = written s done ∧
      (s' = s → ∀ part ∈ done, part = .name "") ∧
      ∀ part ∈ rest.head?, part.add.run s' = (.error err, s')

/-- An update that checks first leaves nothing. -/
theorem Leaves.of_atomic {u : Update α} {x : Store → Except Error (α × Store)}
    (hrun : ∀ s, u.run s = atomic s (x s)) : Leaves u [] := by
  intro s err s' h
  rw [hrun] at h
  refine ⟨[], [], rfl, ?_, fun _ => List.forall_mem_nil _, nofun⟩
  cases hx : x s with
  | error e =>
    rw [hx] at h
    exact (Prod.mk.inj h).2.symm
  | ok written =>
    rw [hx] at h
    cases h

theorem Leaves.map {u : Update α} {parts : List Part} (hu : Leaves u parts) (f : α → β) :
    Leaves (f <$> u) parts := by
  intro s err s' h
  rw [run_map] at h
  refine hu s err s' ?_
  rcases hrun : u.run s with ⟨e | a, s₁⟩
  · rw [hrun] at h
    cases h
    rfl
  · rw [hrun] at h
    cases h

/-- A part that is added first is either the one refused, or written before all that follows. -/
theorem Leaves.add_bind {f : Nat → Update α} {parts : List Part} (part : Part)
    (hf : ∀ index, Leaves (f index) parts) : Leaves (part.add >>= f) (part :: parts) := by
  intro s err s' h
  rw [run_bind] at h
  rcases part.run_add s with ⟨index, hadd⟩ | ⟨e, hadd⟩
  · rw [hadd] at h
    obtain ⟨done, rest, rfl, rfl, hempty, hrefused⟩ := hf index _ err s' h
    refine ⟨part :: done, rest, rfl, rfl, ?_, hrefused⟩
    intro hsame
    -- a part that took room would have made the heaps larger for good
    have hpart : part = .name "" := by
      by_contra hne
      have hlt := Part.heapSize_lt_of_add hne hadd
      have hle := heapSize_le_written (part.write s) done
      rw [hsame] at hle
      omega
    subst hpart
    exact List.forall_mem_cons.2 ⟨rfl, hempty hsame⟩
  · rw [hadd] at h
    cases h
    refine ⟨[], part :: parts, rfl, rfl, fun _ => List.forall_mem_nil _, ?_⟩
    rintro _ ⟨⟩
    exact hadd

end Update

namespace Edit

open Update

theorem leaves_update (e : Edit) : Leaves e.update e.parts := by
  have hpush {t : Table} (row : Row t) : Leaves (Store.push row) [] := .of_atomic (Store.run_push row)
  cases e with
  | push row => exact (hpush row).map _
  | addString value => exact (Leaves.of_atomic (Store.run_addString value)).map _
  | addBlob value => exact (Leaves.of_atomic (Store.run_addBlob value)).map _
  | addLiteral value => exact (Leaves.of_atomic (Store.run_addLiteral value)).map _
  | addTypeRef space name =>
    exact (Leaves.add_bind (.name space) fun _ => .add_bind (.name name) fun _ => hpush _).map _
  | addTypeDef space name =>
    exact (Leaves.add_bind (.name space) fun _ => .add_bind (.name name) fun _ => hpush _).map _
  | addField name => exact (Leaves.add_bind (.name name) fun _ => hpush _).map _
  | addMethodDef name => exact (Leaves.add_bind (.name name) fun _ => hpush _).map _
  | addMemberRef name => exact (Leaves.add_bind (.name name) fun _ => hpush _).map _
  | addStandAloneSig signature => exact (Leaves.add_bind (.blob signature) fun _ => hpush _).map _
  | addTypeSpec signature => exact (Leaves.add_bind (.blob signature) fun _ => hpush _).map _
  | addMethodSpec method instantiation =>
    exact (Leaves.add_bind (.blob instantiation) fun _ => hpush _).map _

end Edit

/-! ### At the limits

The limits are too large for a proof to count up to them, so these are about heaps and tables
of which only the size is known. -/

theorem Bytes.size_zeros (n : Nat) : ByteArray.size ⟨.replicate n 0⟩ = n := Array.size_replicate

theorem Bytes.byte?_zeros {n : Nat} (h : 0 < n) : byte? ⟨.replicate n 0⟩ 0 = some 0 := by
  rw [byte?_eq]
  show (Array.replicate n (0 : UInt8)).toList[0]? = some 0
  rw [Array.toList_replicate, List.getElem?_replicate_of_lt h]

namespace Store

theorem run_push_of_full {t : Table} (row : Row t) {s : Store} (h : s.rowCount t = Token.maxRow) :
    (push row).run s = (.error (.malformed (.rowTooLarge (Token.maxRow + 1) t)), s) := by
  rw [run_push, tokenFor, h, if_neg (Nat.not_succ_le_self _)]
  rfl

variable {value : String} (hvalue : value.isEmpty = false)
include hvalue

theorem run_addString_of_fits {s : Store} (h : s.strings.size ≤ maxIndex) :
    (addString value).run s =
      (.ok s.strings.size, { s with strings := s.strings.append (identifierEntry value) }) := by
  rw [run_addString, hvalue, nextIndex, if_pos h]
  rfl

theorem run_addString_of_full {s : Store} (h : maxIndex < s.strings.size) :
    (addString value).run s = (.error (.malformed (.heapTooLarge .strings)), s) := by
  rw [run_addString, hvalue, nextIndex, if_neg (Nat.not_le_of_lt h)]
  rfl

end Store

/-- The last entry that a heap has room for can be the namespace of a type: then its name is
refused, and the namespace stays. -/
theorem Edit.apply_addTypeRef_of_last {space name : String} {s : Store}
    (hspace : space.isEmpty = false) (hname : name.isEmpty = false)
    (h : s.strings.size = Store.maxIndex) :
    (addTypeRef space name).apply s =
      (.error (.malformed (.heapTooLarge .strings)),
        { s with strings := s.strings.append (Store.identifierEntry space) }) := by
  have hfits := Store.run_addString_of_fits hspace (Nat.le_of_eq h)
  generalize hgrown : s.strings.append (Store.identifierEntry space) = grown at hfits ⊢
  have hfull : Store.maxIndex < grown.size := by
    rw [← hgrown, Heap.size_append, h, Store.identifierEntry, ByteArray.size_push]
    omega
  have hrefused := Store.run_addString_of_full hname (s := { s with strings := grown }) hfull
  simp only [apply, update, Store.addTypeRef, Update.run_map, Update.run_bind, hfits, hrefused]
  rfl

/-- **A failed edit leaves the parts before the one that was refused, and nothing else.**
The rows and the literals are as they were. So is the whole store if the edit has no parts,
and otherwise exactly when the parts that it leaves are empty names. -/
theorem failed_edit_leaves (e : Edit) (s s' : Store) (err : Error) (h : e.apply s = (.error err, s')) :
    s'.rows = s.rows ∧ s'.literals = s.literals ∧ (e.parts = [] → s' = s) ∧
      ∃ done rest, e.parts = done ++ rest ∧ s' = Edit.written s done ∧
        (s' = s ↔ ∀ part ∈ done, part = .name "") ∧
        ∀ part ∈ rest.head?, part.add.run s' = (.error err, s') := by
  obtain ⟨done, rest, hparts, rfl, hempty, hrefused⟩ := e.leaves_update s err s' h
  obtain ⟨hrows, hliterals⟩ := Edit.frame_written s done
  have hsame : Edit.written s done = s ↔ ∀ part ∈ done, part = .name "" :=
    ⟨hempty, fun hall => Edit.written_of_empty hall s⟩
  refine ⟨hrows, hliterals, ?_, done, rest, hparts, rfl, hsame, hrefused⟩
  intro hnone
  obtain ⟨rfl, _⟩ := List.append_eq_nil_iff.1 (hparts.symm.trans hnone)
  rfl

/-- A table that is full refuses the row of an instantiation, after its blob was taken. -/
theorem failed_edit_leaves_fullTable :
    let full : Array (Row .methodSpec) := .replicate Token.maxRow (.methodSpec ⟨0x06000001⟩ 0)
    let s : Store := { rows := { methodSpecs := full } }
    let s' : Store := { rows := s.rows, blobs := ⟨⟨#[0x00, 0x01, 0x0A]⟩, rfl⟩ }
    let edit := Edit.addMethodSpec ⟨0x06000001⟩ ⟨#[0x0A]⟩
    edit.apply s = (.error (.malformed (.rowTooLarge 0x1000000 .methodSpec)), s') ∧
      s'.rows = s.rows ∧ s'.literals = s.literals ∧ s' ≠ s ∧ s' = Edit.written s edit.parts := by
  intro full s s' edit
  have hfull : full.size = Token.maxRow := Array.size_replicate
  -- only the number of the rows matters, which are too many to look at
  clear_value full
  have hcount : s'.rowCount .methodSpec = Token.maxRow := hfull
  have hblob : (Store.addBlob ⟨#[0x0A]⟩).run s = (.ok 1, s') := rfl
  have hfailed : edit.apply s = (.error (.malformed (.rowTooLarge 0x1000000 .methodSpec)), s') := by
    simp only [edit, Edit.apply, Edit.update, Store.addMethodSpec, Update.run_map, Update.run_bind,
      hblob, Store.run_push_of_full _ hcount]
    rfl
  have hgrown : s' ≠ s := by
    intro hsame
    have hsize : s'.blobs.size = s.blobs.size := by rw [hsame]
    cases hsize
  obtain ⟨hrows, hliterals, _, done, rest, hparts, hwritten, hsame, _⟩ :=
    failed_edit_leaves _ _ _ _ hfailed
  refine ⟨hfailed, hrows, hliterals, hgrown, ?_⟩
  cases done with
  | nil => exact absurd (hsame.2 (List.forall_mem_nil _)) hgrown
  | cons part others =>
    obtain ⟨rfl, hnone⟩ := List.cons.inj hparts
    obtain ⟨rfl, _⟩ := List.append_eq_nil_iff.1 hnone.symm
    exact hwritten

/-- A type is refused for its name, and is not added, but the heap has grown by its namespace. -/
theorem refused_name_leaves_namespace :
    ∃ s, Store.ofHeaps ⟨.replicate 0xFFFFFFFF 0⟩ ⟨#[0]⟩ ⟨#[0]⟩ = .ok s ∧
      ((Edit.addTypeRef "a" "b").apply s).1 = .error (.malformed (.heapTooLarge .strings)) ∧
      ((Edit.addTypeRef "a" "b").apply s).2.strings.size = s.strings.size + 2 := by
  have hsize := Bytes.size_zeros 0xFFFFFFFF
  have hstarts := Bytes.byte?_zeros (n := 0xFFFFFFFF) (by decide)
  generalize (⟨.replicate 0xFFFFFFFF 0⟩ : ByteArray) = zeros at hsize hstarts ⊢
  let s : Store := { strings := ⟨zeros, hstarts⟩ }
  have hmade : Store.ofHeaps zeros ⟨#[0]⟩ ⟨#[0]⟩ = .ok s := by
    rw [Store.ofHeaps, Heap.ofBytes, dif_pos hstarts]
    rfl
  refine ⟨s, hmade, ?_⟩
  rw [Edit.apply_addTypeRef_of_last (s := s) (by decide) (by decide) hsize]
  exact ⟨rfl, Heap.size_append ..⟩

end Cil
