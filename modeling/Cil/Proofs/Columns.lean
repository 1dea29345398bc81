import Cil.Proofs.Kinds
import Cil.Store.Edit

/-! When a token resolves.

A row is stored with whatever indices it is given, and they are first looked at when
a token of the row is resolved. It resolves exactly when the row is there, every
index that is looked at can be read from its heap, and the method of a generic
instantiation is one that resolves (`resolves_iff`). All the indices of a row are
looked at but one: the signature of an instantiation is not, so that a token can
resolve whose row points out of its heap (`dangling_instantiation_resolves`). -/
namespace Cil

/-! ### The columns of a row -/

/-- An index into a heap. -/
inductive Column where
  | identifier (index : Nat)
  | blob (index : Nat)

namespace Row

/-- The indices that a row holds. -/
def columns : {t : Table} → Row t → List Column
  | _, typeRef space name | _, typeDef space name => [.identifier space, .identifier name]
  | _, field name | _, methodDef name | _, memberRef name => [.identifier name]
  | _, standAloneSig signature | _, typeSpec signature => [.blob signature]
  | _, methodSpec _ instantiation => [.blob instantiation]

/-- The method of a generic instantiation. -/
def method? : {t : Table} → Row t → Option Token
  | _, methodSpec method _ => some method
  | _, _ => none

end Row

namespace Store

/-- Something stands where the index points. -/
def Reads (s : Store) : Column → Prop
  | .identifier index => ∃ name, s.strings.identifier index = .ok name
  | .blob index => ∃ bytes, s.blobs.blob index = .ok bytes

/-! ### Resolving a row -/

/-- What is only wrapped up afterwards succeeds when it does. -/
theorem exists_wrapped {α β : Type} {x : Except Error α} (wrap : α → β) :
    (∃ b, (x >>= fun a => .ok (wrap a)) = .ok b) ↔ ∃ a, x = .ok a := by
  cases x with
  | error e => exact ⟨nofun, nofun⟩
  | ok a => exact ⟨fun _ => ⟨a, rfl⟩, fun _ => ⟨wrap a, rfl⟩⟩

theorem exists_qualifiedName {s : Store} {space name : Nat} :
    (∃ text, s.qualifiedName space name = .ok text) ↔
      s.Reads (.identifier space) ∧ s.Reads (.identifier name) := by
  constructor
  · rintro ⟨text, h⟩
    obtain ⟨spaceText, hspace, hrest⟩ := bind_eq_ok.1 h
    obtain ⟨nameText, hname, _⟩ := bind_eq_ok.1 hrest
    exact ⟨⟨spaceText, hspace⟩, ⟨nameText, hname⟩⟩
  · rintro ⟨⟨spaceText, hspace⟩, ⟨nameText, hname⟩⟩
    exact ⟨_, bind_eq_ok.2 ⟨spaceText, hspace, bind_eq_ok.2 ⟨nameText, hname, rfl⟩⟩⟩

theorem exists_genericName {s : Store} {spec method : Token} :
    (∃ name, s.genericName spec method = .ok name) ↔
      method.IsMethod ∧ ∃ sym, s.resolve method = .ok sym := by
  by_cases hmethod : method.IsMethod
  · rw [genericName_eq s spec hmethod, exists_wrapped]
    exact ⟨fun h => ⟨hmethod, h⟩, fun h => h.2⟩
  · rw [genericName_of_not s hmethod]
    exact ⟨nofun, fun h => absurd h.1 hmethod⟩

/-- What resolution asks of a row: that its columns can be read, unless it is a generic
instantiation, and that the method of an instantiation is one that resolves. -/
def Follows (s : Store) {t : Table} (row : Row t) : Prop :=
  (t ≠ .methodSpec → ∀ column ∈ row.columns, s.Reads column) ∧
    ∀ method, row.method? = some method → method.IsMethod ∧ ∃ sym, s.resolve method = .ok sym

theorem exists_symbol {s : Store} {token : Token} {t : Table} (row : Row t) :
    (∃ sym, s.symbol token row = .ok sym) ↔ s.Follows row := by
  unfold Follows
  cases row with
  | typeRef space name =>
    exact (exists_wrapped _).trans (exists_qualifiedName.trans (by simp [Row.columns, Row.method?]))
  | typeDef space name =>
    exact (exists_wrapped _).trans (exists_qualifiedName.trans (by simp [Row.columns, Row.method?]))
  | field name => exact (exists_wrapped _).trans (by simp [Row.columns, Row.method?, Reads])
  | methodDef name => exact (exists_wrapped _).trans (by simp [Row.columns, Row.method?, Reads])
  | memberRef name => exact (exists_wrapped _).trans (by simp [Row.columns, Row.method?, Reads])
  | standAloneSig signature => exact (exists_wrapped _).trans (by simp [Row.columns, Row.method?, Reads])
  | typeSpec signature => exact (exists_wrapped _).trans (by simp [Row.columns, Row.method?, Reads])
  | methodSpec method instantiation =>
    exact (exists_wrapped _).trans (exists_genericName.trans (by simp [Row.columns, Row.method?]))

theorem exists_row {s : Store} {t : Table} {token : Token} :
    (∃ row, s.row t token = .ok row) ↔ 1 ≤ token.row ∧ token.row ≤ s.rowCount t := by
  unfold rowCount
  constructor
  · rintro ⟨row, h⟩
    obtain ⟨hzero, hrow⟩ := row_eq_ok.1 h
    obtain ⟨hlt, _⟩ := Array.getElem?_eq_some_iff.1 hrow
    omega
  · rintro ⟨hlow, hhigh⟩
    exact ⟨_, row_eq_ok.2 ⟨by omega, Array.getElem?_eq_getElem (by omega)⟩⟩

end Store

/-- **A token resolves exactly when its row is there and what resolution looks at can be
followed.** That is every index of the row, but for a generic instantiation only its
method. -/
theorem resolves_iff (s : Store) {token : Token} {t : Table} (htable : token.table? = some t)
    (hrow : t ≠ .userString) :
    (∃ sym, s.resolve token = .ok sym) ↔
      (1 ≤ token.row ∧ token.row ≤ s.rowCount t) ∧
        ∀ row, s.row t token = .ok row → s.Follows row := by
  rw [Store.resolve_row htable hrow]
  constructor
  · rintro ⟨sym, h⟩
    obtain ⟨row, hget, hsym⟩ := bind_eq_ok.1 h
    refine ⟨Store.exists_row.1 ⟨row, hget⟩, fun row' hget' => ?_⟩
    cases hget.symm.trans hget'
    exact (Store.exists_symbol row).1 ⟨sym, hsym⟩
  · rintro ⟨hrange, hfollows⟩
    obtain ⟨row, hget⟩ := Store.exists_row.2 hrange
    obtain ⟨sym, hsym⟩ := (Store.exists_symbol row).2 (hfollows row hget)
    exact ⟨sym, bind_eq_ok.2 ⟨row, hget, hsym⟩⟩

/-- A constructed type whose signature lies outside its heap does not resolve. -/
theorem resolves_iff_typeSpec :
    let s : Store := { rows := { typeSpecs := #[.typeSpec 99] } }
    Token.table? ⟨0x1B000001⟩ = some .typeSpec ∧ ¬∃ sym, s.resolve ⟨0x1B000001⟩ = .ok sym := by
  intro s
  refine ⟨rfl, fun h => ?_⟩
  obtain ⟨_, hfollows⟩ := (resolves_iff s (t := .typeSpec) rfl nofun).1 h
  obtain ⟨bytes, hbytes⟩ := (hfollows (.typeSpec 99) rfl).1 nofun (.blob 99) (List.mem_singleton.2 rfl)
  cases hbytes

/-- A generic instantiation whose signature lies outside its heap resolves all the same. -/
theorem dangling_instantiation_resolves :
    let s : Store := (Edit.run .empty [.addMethodDef "Main", .push (.methodSpec ⟨0x06000001⟩ 99)]).2
    s.resolve ⟨0x2B000001⟩ = .ok (.method ⟨0x2B000001⟩ "Main") ∧
      ∃ row : Row .methodSpec, s.row .methodSpec ⟨0x2B000001⟩ = .ok row ∧
        ∃ column ∈ row.columns, ¬s.Reads column := by
  intro s
  have houtside : s.blobs.blob 99 = .error .outOfBounds := by decide +kernel
  have hname : s.strings.identifier 1 = .ok "Main" := by decide +kernel
  have hresolve : s.resolve ⟨0x2B000001⟩ = .ok (.method ⟨0x2B000001⟩ "Main") := by
    show (s.strings.identifier 1 >>= fun name => .ok (Symbol.method ⟨0x2B000001⟩ name)) = _
    rw [hname]
    rfl
  refine ⟨hresolve, .methodSpec ⟨0x06000001⟩ 99, rfl, .blob 99, List.mem_singleton.2 rfl, ?_⟩
  rintro ⟨bytes, hbytes⟩
  cases houtside.symm.trans hbytes

end Cil
