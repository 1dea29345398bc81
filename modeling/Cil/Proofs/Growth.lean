import Cil.Proofs.Entry
import Cil.Proofs.Resolution
import Cil.Proofs.Update

/-! A store only grows.

No edit moves or changes what is there: bytes are added at the end of a heap, rows
at the end of a table, and an edit that fails half way has added only the parts
before its failure. So the store after any history extends the one before it
(`Edit.extends_run`). A read that succeeds looks only at bytes and rows that are
there, so it succeeds in every extension with the same result, whatever the heaps
hold; a name may well run on into other entries, but only up to a zero byte that
stays where it is. -/
namespace Cil

open Bytes

/-! ### Results that stay -/

/-- What the first computation gives, the second gives too. -/
def Kept {α : Type} (before after : Except Error α) : Prop := ∀ a, before = .ok a → after = .ok a

namespace Kept

variable {α β : Type}

theorem refl (x : Except Error α) : Kept x x := fun _ h => h

theorem bind {x x' : Except Error α} {f f' : α → Except Error β} (hx : Kept x x')
    (hf : ∀ a, Kept (f a) (f' a)) : Kept (x >>= f) (x' >>= f') := by
  intro b hb
  obtain ⟨a, ha, hfa⟩ := bind_eq_ok.1 hb
  exact bind_eq_ok.2 ⟨a, hx a ha, hf a b hfa⟩

end Kept

/-! ### Heaps -/

namespace Heap

variable {kind : HeapKind}

/-- Every byte of the first heap stands at its place in the second. -/
def Extends (h h' : Heap kind) : Prop := octets h.bytes <+: octets h'.bytes

theorem Extends.refl (h : Heap kind) : h.Extends h := List.prefix_rfl

theorem extends_append (h : Heap kind) (tail : ByteArray) : h.Extends (h.append tail) := by
  show octets h.bytes <+: octets (h.bytes ++ tail)
  rw [octets_append]
  exact List.prefix_append _ _

theorem Extends.entry {h h' : Heap kind} (hext : h.Extends h') (index : Nat) :
    Kept (h.entry index) (h'.entry index) := by
  intro bytes hok
  obtain ⟨lead, hspells, hahead⟩ := entry_eq_ok.1 hok
  exact entry_eq_ok.2 ⟨lead, hspells, hahead.trans (ahead_of_isPrefix hext index)⟩

theorem Extends.identifier {h h' : Heap .strings} (hext : h.Extends h') (index : Nat) :
    Kept (h.identifier index) (h'.identifier index) := by
  intro s hok
  obtain ⟨hnone, hahead⟩ := identifier_eq_ok.1 hok
  exact identifier_eq_ok.2 ⟨hnone, hahead.trans (ahead_of_isPrefix hext index)⟩

theorem Extends.literal {h h' : Heap .userStrings} (hext : h.Extends h') (index : Nat) :
    Kept (h.literal index) (h'.literal index) := by
  intro s hok
  obtain ⟨bytes, hentry, hdecode⟩ := literal_eq_ok.1 hok
  exact literal_eq_ok.2 ⟨bytes, hext.entry index bytes hentry, hdecode⟩

end Heap

/-! ### Stores -/

namespace Store

/-- Every byte and every row of the first store stands at its place in the second. -/
structure Extends (s s' : Store) : Prop where
  strings : s.strings.Extends s'.strings
  literals : s.literals.Extends s'.literals
  blobs : s.blobs.Extends s'.blobs
  rows : ∀ t, (s.rows.get t).toList <+: (s'.rows.get t).toList

theorem Extends.refl (s : Store) : s.Extends s :=
  ⟨.refl _, .refl _, .refl _, fun _ => List.prefix_rfl⟩

theorem Extends.trans {s s' s'' : Store} (h : s.Extends s') (h' : s'.Extends s'') : s.Extends s'' where
  strings := List.IsPrefix.trans h.strings h'.strings
  literals := List.IsPrefix.trans h.literals h'.literals
  blobs := List.IsPrefix.trans h.blobs h'.blobs
  rows t := (h.rows t).trans (h'.rows t)

theorem extends_push (s : Store) {t : Table} (row : Row t) :
    s.Extends { s with rows := s.rows.push row } := by
  refine ⟨.refl _, .refl _, .refl _, fun u => ?_⟩
  by_cases hu : u = t
  · subst hu
    rw [Rows.get_push_self, Array.toList_push]
    exact List.prefix_append _ _
  · rw [Rows.get_push_of_ne _ _ hu]

namespace Extends

variable {s s' : Store} (hext : s.Extends s')
include hext

theorem row (t : Table) (token : Token) : Kept (s.row t token) (s'.row t token) := by
  intro row hok
  obtain ⟨hzero, hrow⟩ := row_eq_ok.1 hok
  refine row_eq_ok.2 ⟨hzero, ?_⟩
  rw [← Array.getElem?_toList] at hrow ⊢
  obtain ⟨hlt, hget⟩ := List.getElem?_eq_some_iff.1 hrow
  rw [List.prefix_iff_getElem?.1 (hext.rows t) _ hlt, hget]

theorem qualifiedName (space name : Nat) :
    Kept (s.qualifiedName space name) (s'.qualifiedName space name) :=
  .bind (hext.strings.identifier space) fun _ =>
    .bind (hext.strings.identifier name) fun _ => .refl _

theorem genericName (spec method : Token) :
    Kept (s.genericName spec method) (s'.genericName spec method) := by
  unfold Store.genericName
  split
  · refine .bind (hext.row .methodDef method) fun row => ?_
    cases row
    exact hext.strings.identifier _
  · refine .bind (hext.row .memberRef method) fun row => ?_
    cases row
    exact hext.strings.identifier _
  · exact .refl _

theorem symbol (token : Token) {t : Table} (row : Row t) :
    Kept (s.symbol token row) (s'.symbol token row) := by
  cases row with
  | typeRef space name => exact .bind (hext.qualifiedName space name) fun _ => .refl _
  | typeDef space name => exact .bind (hext.qualifiedName space name) fun _ => .refl _
  | field name => exact .bind (hext.strings.identifier name) fun _ => .refl _
  | methodDef name => exact .bind (hext.strings.identifier name) fun _ => .refl _
  | memberRef name => exact .bind (hext.strings.identifier name) fun _ => .refl _
  | standAloneSig signature => exact .bind (hext.blobs.entry signature) fun _ => .refl _
  | typeSpec signature => exact .bind (hext.blobs.entry signature) fun _ => .refl _
  | methodSpec method _ => exact .bind (hext.genericName token method) fun _ => .refl _

theorem literal (token : Token) : Kept (s.literal token) (s'.literal token) := by
  intro text hok
  obtain ⟨htable, hliteral⟩ := literal_eq_ok.1 hok
  exact literal_eq_ok.2 ⟨htable, hext.literals.literal token.row text hliteral⟩

theorem resolve (token : Token) : Kept (s.resolve token) (s'.resolve token) := by
  unfold Store.resolve
  split
  · exact .refl _
  · exact .bind (hext.literal token) fun _ => .refl _
  · exact .bind (hext.row _ token) fun row => hext.symbol token row

end Extends
end Store

/-! ### One edit -/

namespace Update

variable {α β : Type}

/-- The update leaves an extension of the store, whether it succeeds or fails. -/
def Grows (u : Update α) : Prop := ∀ s : Store, s.Extends (u.run s).2

theorem Grows.bind {u : Update α} {f : α → Update β} (hu : Grows u) (hf : ∀ a, Grows (f a)) :
    Grows (u >>= f) := by
  intro s
  have hfirst := hu s
  rw [run_bind]
  rcases hrun : u.run s with ⟨e | a, s'⟩
  · rw [hrun] at hfirst
    exact hfirst
  · rw [hrun] at hfirst
    exact hfirst.trans (hf a s')

theorem Grows.map {u : Update α} (hu : Grows u) (f : α → β) : Grows (f <$> u) := by
  intro s
  rw [run_map]
  exact hu s

theorem Grows.extends {u : Update α} (hu : Grows u) {s s' : Store} {x : Except Error α}
    (h : u.run s = (x, s')) : s.Extends s' := by
  have hgrows := hu s
  rwa [h] at hgrows

/-- An update that checks first has to be looked at only where it writes. -/
theorem Grows.of_atomic {u : Update α} {x : Store → Except Error (α × Store)}
    (hrun : ∀ s, u.run s = atomic s (x s)) (hx : ∀ s a s', x s = .ok (a, s') → s.Extends s') :
    Grows u := by
  intro s
  rw [hrun]
  cases h : x s with
  | error e => exact .refl s
  | ok written => exact hx s _ _ h

end Update

namespace Store

open Update

theorem grows_push {t : Table} (row : Row t) : Grows (push row) := by
  refine .of_atomic (run_push row) fun s token s' h => ?_
  obtain ⟨_, _, hpure⟩ := bind_eq_ok.1 h
  cases hpure
  exact s.extends_push row

theorem grows_addString (value : String) : Grows (addString value) := by
  refine .of_atomic (run_addString value) fun s index s' h => ?_
  split at h
  · cases h
    exact .refl s
  · obtain ⟨_, _, hpure⟩ := bind_eq_ok.1 h
    cases hpure
    exact ⟨s.strings.extends_append _, .refl _, .refl _, fun _ => List.prefix_rfl⟩

theorem grows_addBlob (value : ByteArray) : Grows (addBlob value) := by
  refine .of_atomic (run_addBlob value) fun s index s' h => ?_
  obtain ⟨_, _, hentry⟩ := bind_eq_ok.1 h
  obtain ⟨_, _, hpure⟩ := bind_eq_ok.1 hentry
  cases hpure
  exact ⟨.refl _, .refl _, s.blobs.extends_append _, fun _ => List.prefix_rfl⟩

theorem grows_addLiteral (value : String) : Grows (addLiteral value) := by
  refine .of_atomic (run_addLiteral value) fun s token s' h => ?_
  obtain ⟨_, _, htoken⟩ := bind_eq_ok.1 h
  obtain ⟨_, _, hentry⟩ := bind_eq_ok.1 htoken
  obtain ⟨_, _, hpure⟩ := bind_eq_ok.1 hentry
  cases hpure
  exact ⟨.refl _, s.literals.extends_append _, .refl _, fun _ => List.prefix_rfl⟩

end Store

namespace Edit

open Store

theorem grows_update (e : Edit) : Update.Grows e.update := by
  cases e with
  | push row => exact (grows_push row).map _
  | addString value => exact (grows_addString value).map _
  | addBlob value => exact (grows_addBlob value).map _
  | addLiteral value => exact (grows_addLiteral value).map _
  | addTypeRef space name =>
    exact ((grows_addString space).bind fun _ => (grows_addString name).bind fun _ => grows_push _).map _
  | addTypeDef space name =>
    exact ((grows_addString space).bind fun _ => (grows_addString name).bind fun _ => grows_push _).map _
  | addField name => exact ((grows_addString name).bind fun _ => grows_push _).map _
  | addMethodDef name => exact ((grows_addString name).bind fun _ => grows_push _).map _
  | addMemberRef name => exact ((grows_addString name).bind fun _ => grows_push _).map _
  | addStandAloneSig signature => exact ((grows_addBlob signature).bind fun _ => grows_push _).map _
  | addTypeSpec signature => exact ((grows_addBlob signature).bind fun _ => grows_push _).map _
  | addMethodSpec method instantiation =>
    exact ((grows_addBlob instantiation).bind fun _ => grows_push _).map _

theorem extends_apply (e : Edit) (s : Store) : s.Extends (e.apply s).2 := e.grows_update s

/-! ### Histories -/

theorem extends_run (s : Store) (history : List Edit) : s.Extends (run s history).2 := by
  induction history generalizing s with
  | nil => exact .refl s
  | cons e rest ih => exact (e.extends_apply s).trans (ih _)

end Edit

/-- **What a store has resolved, it resolves to the same thing for ever.** From any store,
whatever its heaps and rows hold, and through any history of edits, failed ones included,
every token keeps the symbol and every literal the text that it had. -/
theorem resolution_stays (s : Store) (history : List Edit) (token : Token) :
    (∀ sym, s.resolve token = .ok sym → (Edit.run s history).2.resolve token = .ok sym) ∧
      (∀ text, s.literal token = .ok text → (Edit.run s history).2.literal token = .ok text) := by
  have hext := Edit.extends_run s history
  exact ⟨hext.resolve token, hext.literal token⟩

/-- A generic instantiation whose method's name is the end of another name, and a literal, in
heaps that go on behind an unfinished name. -/
theorem resolution_stays_overlapping :
    let s : Store :=
      { strings := ⟨⟨#[0x00, 0x52, 0x75, 0x6E, 0x00, 0x78]⟩, rfl⟩
        literals := ⟨⟨#[0x00, 0x05, 0x6F, 0x00, 0x6B, 0x00, 0x00]⟩, rfl⟩
        rows := { memberRefs := #[.memberRef 2], methodSpecs := #[.methodSpec ⟨0x0A000001⟩ 7] } }
    let later := (Edit.run s [.addString "y", .addLiteral "z", .push (.memberRef 5)]).2
    (s.resolve ⟨0x2B000001⟩ = .ok (.method ⟨0x2B000001⟩ "un") ∧ s.literal ⟨0x70000001⟩ = .ok "ok") ∧
      later.resolve ⟨0x2B000001⟩ = .ok (.method ⟨0x2B000001⟩ "un") ∧
      later.literal ⟨0x70000001⟩ = .ok "ok" := by
  intro s later
  have hname : s.strings.identifier 2 = .ok "un" := by decide +kernel
  have hresolve : s.resolve ⟨0x2B000001⟩ = .ok (.method ⟨0x2B000001⟩ "un") := by
    show (s.strings.identifier 2 >>= fun name => .ok (Symbol.method ⟨0x2B000001⟩ name)) = _
    rw [hname]
    rfl
  have hliteral : s.literal ⟨0x70000001⟩ = .ok "ok" := by decide +kernel
  exact ⟨⟨hresolve, hliteral⟩, (resolution_stays s _ _).1 _ hresolve, (resolution_stays s _ _).2 _ hliteral⟩

end Cil
