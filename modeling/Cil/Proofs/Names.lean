import Cil.Proofs.Kinds
import Cil.Proofs.ReadBack
import Cil.Proofs.Utf8
import Mathlib.Data.List.TakeWhile

/-! How names read back.

An identifier is written as its bytes and a zero, and read up to the first zero. A
zero character is a zero byte too, so of a name that holds one only the part in front
of it is read (`upToZero`); every other name reads back as it was given. The name is
written where the heap ended and stays there while the rest of its row is written, so
it does not matter what the heap held, nor how many names a row has. -/
namespace Cil

open Bytes Text

/-! ### The part in front of a zero -/

/-- The part of a text in front of its first zero character. -/
def upToZero (s : String) : String := String.ofList (s.toList.takeWhile (· ≠ '\x00'))

theorem toList_upToZero (s : String) : (upToZero s).toList = s.toList.takeWhile (· ≠ '\x00') :=
  String.toList_ofList

theorem upToZero_eq_self {s : String} : upToZero s = s ↔ '\x00' ∉ s.toList := by
  rw [← String.toList_inj, toList_upToZero, List.takeWhile_eq_self_iff]
  constructor
  · intro hall hmem
    exact of_decide_eq_true (hall _ hmem) rfl
  · intro hnone c hc
    exact decide_eq_true fun hzero => hnone (hzero ▸ hc)

theorem zero_notMem_upToZero (s : String) : 0 ∉ octets (upToZero s).toUTF8 := by
  rw [Utf8.mem_octets_toUTF8 (c := '\x00') rfl (by decide), toList_upToZero]
  intro hmem
  simpa using List.mem_takeWhile_imp hmem

/-- The bytes of an identifier's entry start with those in front of a zero, and a zero. -/
theorem upToZero_isPrefix (s : String) :
    octets (upToZero s).toUTF8 ++ [0] <+: octets (Store.identifierEntry s) := by
  have hentry : octets (Store.identifierEntry s) = octets s.toUTF8 ++ [0] := Array.toList_push
  have hsplit := List.takeWhile_append_dropWhile (p := (· ≠ '\x00')) (l := s.toList)
  have hstop := List.head?_dropWhile_not (· ≠ '\x00') s.toList
  rw [hentry, Utf8.octets_toUTF8, Utf8.octets_toUTF8, toList_upToZero]
  generalize s.toList.takeWhile (· ≠ '\x00') = front at hsplit ⊢
  cases hrest : s.toList.dropWhile (· ≠ '\x00') with
  | nil =>
    rw [hrest, List.append_nil] at hsplit
    rw [hsplit]
  | cons c rest =>
    -- the character that stops the search is the zero, which is a byte of its own
    rw [hrest] at hsplit hstop
    obtain rfl : c = '\x00' := by simpa using hstop
    rw [← hsplit, List.flatMap_append, List.flatMap_cons, List.append_assoc]
    exact (List.prefix_append_right_inj _).2 (List.prefix_append [0] _)

/-! ### Identifiers -/

/-- An identifier that is appended is read where the heap ended, up to its first zero. -/
theorem Heap.identifier_append (h : Heap .strings) (value : String) :
    (h.append (Store.identifierEntry value)).identifier h.size = .ok (upToZero value) := by
  refine identifier_eq_ok.2 ⟨zero_notMem_upToZero value, ?_⟩
  rw [ahead_append]
  exact upToZero_isPrefix value

/-- Every heap starts with the empty identifier. -/
theorem Heap.identifier_zero (h : Heap .strings) : h.identifier 0 = .ok "" := by
  refine identifier_eq_ok.2 ⟨List.not_mem_nil, ?_⟩
  have hfirst := h.starts
  rw [byte?_eq_head?] at hfirst
  obtain ⟨rest, hrest⟩ := List.head?_eq_some_iff.1 hfirst
  rw [hrest]
  exact List.prefix_append [0] rest

namespace Store

open Update

theorem identifier_of_addString {value : String} {s s' : Store} {index : Nat}
    (h : (addString value).run s = (.ok index, s')) :
    s'.strings.identifier index = .ok (upToZero value) := by
  rw [run_addString] at h
  have hadd := atomic_eq_ok.1 h
  split at hadd
  · next hempty =>
    cases hadd
    obtain rfl := String.isEmpty_iff.1 hempty
    exact s.strings.identifier_zero
  · obtain ⟨_, hindex, hpure⟩ := bind_eq_ok.1 hadd
    cases hpure
    rw [nextIndex_eq_ok hindex]
    exact s.strings.identifier_append value

/-! ### Rows with names -/

/-- A row with one name resolves to what its kind makes of the name. -/
theorem resolve_of_named {t : Table} {row : Nat → Row t} {wrap : Token → String → Symbol}
    (hsymbol : ∀ (s : Store) token index, s.symbol token (row index) =
      (do return wrap token (← s.strings.identifier index)))
    {name : String} {s s' : Store} {token : Token}
    (h : (do push (row (← addString name)) : Update Token).run s = (.ok token, s')) :
    s'.resolve token = .ok (wrap token (upToZero name)) := by
  obtain ⟨index, s₁, hadd, hpush⟩ := run_bind_eq_ok.1 h
  have hext := (grows_push (row index)).extends hpush
  rw [resolve_of_push hpush, hsymbol]
  exact bind_eq_ok.2 ⟨_, hext.strings.identifier _ _ (identifier_of_addString hadd), rfl⟩

/-- A type resolves to its name, behind its namespace and a dot unless that is empty. -/
theorem resolve_of_qualified {t : Table} {row : Nat → Nat → Row t}
    (hsymbol : ∀ (s : Store) token space name, s.symbol token (row space name) =
      (do return .type token (some (← s.qualifiedName space name))))
    {space name : String} {s s' : Store} {token : Token}
    (h : (do
      let space ← addString space
      let name ← addString name
      push (row space name) : Update Token).run s = (.ok token, s')) :
    s'.resolve token = .ok (.type token (some (qualified (upToZero space) (upToZero name)))) := by
  obtain ⟨spaceIndex, s₁, hspace, hrest⟩ := run_bind_eq_ok.1 h
  obtain ⟨nameIndex, s₂, hname, hpush⟩ := run_bind_eq_ok.1 hrest
  have hnameExt := (grows_addString name).extends hname
  have hpushExt := (grows_push (row spaceIndex nameIndex)).extends hpush
  have hqualified : s₂.qualifiedName spaceIndex nameIndex =
      .ok (qualified (upToZero space) (upToZero name)) :=
    bind_eq_ok.2 ⟨_, hnameExt.strings.identifier _ _ (identifier_of_addString hspace),
      bind_eq_ok.2 ⟨_, identifier_of_addString hname, rfl⟩⟩
  rw [resolve_of_push hpush, hsymbol]
  exact bind_eq_ok.2 ⟨_, hpushExt.qualifiedName _ _ _ hqualified, rfl⟩

/-- Of what a generic instantiation can be made, all that resolves has a name. -/
theorem name_of_resolve {s : Store} {method : Token} {sym : Symbol} (hmethod : method.IsMethod)
    (h : s.resolve method = .ok sym) : ∃ name, sym.name? = some name := by
  have hkind : sym.kind = .method ∨ sym.kind = .member := by
    rcases hmethod with htable | htable
    · exact .inl (kind_of_resolve htable h)
    · exact .inr (kind_of_resolve htable h)
  cases sym with
  | method _ name | field _ name | member _ name => exact ⟨name, rfl⟩
  | type | signature | literal => simp [Symbol.kind] at hkind

/-- A generic instantiation resolves to the name of its method. -/
theorem resolve_of_addMethodSpec {method token : Token} {instantiation : ByteArray} {s s' : Store}
    {sym : Symbol} (hmethod : method.IsMethod) (hsym : s'.resolve method = .ok sym)
    (h : (addMethodSpec method instantiation).run s = (.ok token, s')) :
    ∃ name, sym.name? = some name ∧ s'.resolve token = .ok (.method token name) := by
  obtain ⟨_, _, _, hpush⟩ := run_bind_eq_ok.1 h
  obtain ⟨name, hname⟩ := name_of_resolve hmethod hsym
  refine ⟨name, hname, ?_⟩
  rw [resolve_of_push hpush]
  refine bind_eq_ok.2 ⟨name, ?_, rfl⟩
  rw [genericName_eq s' token hmethod, hsym]
  show Except.ok (sym.name?.getD "") = .ok name
  rw [hname]
  rfl

end Store

/-- **Names read back up to their first zero character.** Whatever a store holds: a field, a
method or a member that it has taken resolves to its name, and a type to its name behind
its namespace and a dot, where of each text only the part in front of a zero character
counts; a generic instantiation of a method or a member that resolves, before or after,
has that one's name. That part is all of a text exactly when no zero is in it. -/
theorem names_read_back (s : Store) :
    (∀ (name : String) (token : Token) (s' : Store),
      ((Store.addField name).run s = (.ok token, s') →
        s'.resolve token = .ok (.field token (upToZero name))) ∧
      ((Store.addMethodDef name).run s = (.ok token, s') →
        s'.resolve token = .ok (.method token (upToZero name))) ∧
      ((Store.addMemberRef name).run s = (.ok token, s') →
        s'.resolve token = .ok (.member token (upToZero name)))) ∧
    (∀ (space name : String) (token : Token) (s' : Store),
      ((Store.addTypeRef space name).run s = (.ok token, s') ∨
        (Store.addTypeDef space name).run s = (.ok token, s')) →
      s'.resolve token = .ok (.type token (some
        (if upToZero space = "" then upToZero name
          else upToZero space ++ "." ++ upToZero name)))) ∧
    (∀ (method : Token) (instantiation : ByteArray) (token : Token) (s' : Store) (sym : Symbol),
      method.IsMethod → (Store.addMethodSpec method instantiation).run s = (.ok token, s') →
      (s.resolve method = .ok sym ∨ s'.resolve method = .ok sym) →
        ∃ name, sym.name? = some name ∧ s'.resolve token = .ok (.method token name)) ∧
    (∀ text : String, upToZero text = text ↔ '\x00' ∉ text.toList) := by
  refine ⟨?named, ?types, ?instantiations, fun text => upToZero_eq_self⟩
  case named =>
    intro name token s'
    exact ⟨Store.resolve_of_named fun _ _ _ => rfl, Store.resolve_of_named fun _ _ _ => rfl,
      Store.resolve_of_named fun _ _ _ => rfl⟩
  case types =>
    intro space name token s' h
    have hqualified : s'.resolve token =
        .ok (.type token (some (Store.qualified (upToZero space) (upToZero name)))) :=
      h.elim (Store.resolve_of_qualified fun _ _ _ _ => rfl)
        (Store.resolve_of_qualified fun _ _ _ _ => rfl)
    rw [hqualified, Store.qualified]
    simp only [String.isEmpty_iff]
  case instantiations =>
    intro method instantiation token s' sym hmethod hrun hsym
    have hext := ((Store.grows_addBlob instantiation).bind fun _ => Store.grows_push _).extends hrun
    have hafter : s'.resolve method = .ok sym := hsym.elim (hext.resolve method sym) id
    exact Store.resolve_of_addMethodSpec hmethod hafter hrun

/-- A type with characters of two bytes in its names and a generic instantiation of a member,
in a heap whose last identifier is not finished. -/
theorem names_read_back_unfinished :
    let s : Store :=
      { strings := ⟨⟨#[0x00, 0x52, 0x75, 0x6E, 0x00, 0x78]⟩, rfl⟩
        rows := { memberRefs := #[.memberRef 2] } }
    let type := (Store.addTypeDef "Ünï" "Çö").run s
    let spec := (Store.addMethodSpec ⟨0x0A000001⟩ ⟨#[0x0A]⟩).run s
    (type.1 = .ok ⟨0x02000001⟩ ∧
      type.2.resolve ⟨0x02000001⟩ = .ok (.type ⟨0x02000001⟩ (some "Ünï.Çö"))) ∧
    (spec.1 = .ok ⟨0x2B000001⟩ ∧ s.resolve ⟨0x0A000001⟩ = .ok (.member ⟨0x0A000001⟩ "un") ∧
      spec.2.resolve ⟨0x2B000001⟩ = .ok (.method ⟨0x2B000001⟩ "un")) := by
  intro s type spec
  obtain ⟨_, htypes, hspecs, hwhole⟩ := names_read_back s
  have htype : type.1 = .ok ⟨0x02000001⟩ := by decide +kernel
  have hspec : spec.1 = .ok ⟨0x2B000001⟩ := by decide +kernel
  have hname : s.strings.identifier 2 = .ok "un" := by decide +kernel
  have hmember : s.resolve ⟨0x0A000001⟩ = .ok (.member ⟨0x0A000001⟩ "un") := by
    show (s.strings.identifier 2 >>= fun name => .ok (Symbol.member ⟨0x0A000001⟩ name)) = _
    rw [hname]
    rfl
  have hresolved := htypes _ _ _ type.2 (.inr (Prod.ext htype rfl))
  rw [(hwhole "Ünï").2 (by decide), (hwhole "Çö").2 (by decide)] at hresolved
  obtain ⟨name, hname, hresolve⟩ :=
    hspecs _ _ _ spec.2 _ (by decide) (Prod.ext hspec rfl) (.inl hmember)
  cases hname
  exact ⟨⟨htype, hresolved⟩, hspec, hmember, hresolve⟩

/-- A field that is taken with a zero in its name is resolved, but to another name. -/
theorem zero_cuts_name :
    let added := (Store.addField "a\x00b").run .empty
    added.1 = .ok ⟨0x04000001⟩ ∧ ∃ sym, added.2.resolve ⟨0x04000001⟩ = .ok sym ∧
      sym.name? = some "a" ∧ sym.name? ≠ some "a\x00b" := by
  intro added
  have hname : added.2.strings.identifier 1 = .ok "a" := by decide +kernel
  have hresolve : added.2.resolve ⟨0x04000001⟩ = .ok (.field ⟨0x04000001⟩ "a") := by
    show (added.2.strings.identifier 1 >>= fun name => .ok (Symbol.field ⟨0x04000001⟩ name)) = _
    rw [hname]
    rfl
  exact ⟨by decide +kernel, _, hresolve, rfl, by decide⟩

end Cil
