import Cil.Proofs.Compressed
import Cil.Proofs.Tiling

/-! What kind of thing a token names.

The table of a token decides the kind of the symbol that it resolves to, and the
operand kind of an instruction decides the tables: so a decoded field access never
carries a type, and with metadata no token is left unresolved. A generic
instantiation takes its name from its method, which may be any token at all, even
its own; `resolveVia` leaves open how the method is resolved, and two layers of it
are already all of `resolve`, since a method that is looked at is never an
instantiation itself. -/
namespace Cil

open Bytes

/-! ### Kinds of symbols -/

inductive Symbol.Kind where
  | method | field | type | member | signature | literal
  deriving DecidableEq, Repr

def Symbol.kind : Symbol → Symbol.Kind
  | method .. => .method
  | field .. => .field
  | type .. => .type
  | member .. => .member
  | signature .. => .signature
  | literal .. => .literal

/-- The kind of thing that a token of the table names. -/
def Table.names : Table → Symbol.Kind
  | methodDef | methodSpec => .method
  | field => .field
  | typeRef | typeDef | typeSpec => .type
  | memberRef => .member
  | standAloneSig => .signature
  | userString => .literal

/-- The kinds of symbols an operand can be. -/
def OperandKind.admits : OperandKind → List Symbol.Kind
  | fieldRef => [.field, .member]
  | methodRef => [.method, .member]
  | typeRef => [.type]
  | signatureRef => [.signature]
  | stringRef => [.literal]
  | genericToken => [.method, .type, .field, .member]
  | _ => []

theorem OperandKind.names_mem_admits {kind : OperandKind} {t : Table} (h : t ∈ kind.accepted) :
    t.names ∈ kind.admits := by
  revert t
  cases kind <;> decide

namespace Store

theorem kind_of_symbol {s : Store} {token : Token} {t : Table} {row : Row t} {sym : Symbol}
    (h : s.symbol token row = .ok sym) : sym.kind = t.names := by
  cases row <;>
  · obtain ⟨_, _, hsym⟩ := bind_eq_ok.1 h
    cases hsym
    rfl

theorem kind_of_resolve {s : Store} {token : Token} {t : Table} {sym : Symbol}
    (htable : token.table? = some t) (h : s.resolve token = .ok sym) : sym.kind = t.names := by
  by_cases huser : t = .userString
  · subst huser
    rw [resolve_literal htable] at h
    obtain ⟨_, _, hsym⟩ := bind_eq_ok.1 h
    cases hsym
    rfl
  · rw [resolve_row htable huser] at h
    obtain ⟨_, _, hsym⟩ := bind_eq_ok.1 h
    exact kind_of_symbol hsym

end Store

/-! ### Layers of resolution -/

/-- A generic instantiation can be made of the token. -/
def Token.IsMethod (token : Token) : Prop :=
  token.table? = some .methodDef ∨ token.table? = some .memberRef

instance (token : Token) : Decidable token.IsMethod :=
  inferInstanceAs (Decidable (token.table? = some .methodDef ∨ token.table? = some .memberRef))

namespace Store

/-- One layer of resolution: `below` resolves the method of a generic instantiation, which
gives the instantiation its name. -/
def resolveVia (s : Store) (below : Token → Except Error Symbol) (token : Token) : Except Error Symbol :=
  match token.table? with
  | none => .error (.unsupportedToken token.tableByte)
  | some .userString => do return .literal token (← s.literal token)
  | some .methodSpec => do
    let .methodSpec method _ ← s.row .methodSpec token
    if method.IsMethod then
      let generic ← below method
      return .method token (generic.name?.getD "")
    else .error (.malformed (.badInstantiation token method))
  | some t => do
    let row ← s.row t token
    s.symbol token row

/-- A name that was put into a symbol is read out of it again. -/
theorem name_of_wrapped (wrap : String → Symbol) (hwrap : ∀ name, (wrap name).name? = some name)
    (x : Except Error String) :
    ((x >>= fun name => .ok (wrap name)) >>= fun sym => .ok (sym.name?.getD "")) = x := by
  cases x with
  | error e => rfl
  | ok name =>
    show Except.ok ((wrap name).name?.getD "") = .ok name
    rw [hwrap]
    rfl

/-- An instantiation has the name that its method resolves to. -/
theorem genericName_eq (s : Store) (spec : Token) {method : Token} (h : method.IsMethod) :
    s.genericName spec method = (s.resolve method >>= fun sym => .ok (sym.name?.getD "")) := by
  rcases h with h | h
  · rw [genericName, h, resolve_row h nofun]
    cases s.row .methodDef method with
    | error e => rfl
    | ok row =>
      cases row with
      | methodDef name => exact (name_of_wrapped (.method method) (fun _ => rfl) _).symm
  · rw [genericName, h, resolve_row h nofun]
    cases s.row .memberRef method with
    | error e => rfl
    | ok row =>
      cases row with
      | memberRef name => exact (name_of_wrapped (.member method) (fun _ => rfl) _).symm

theorem genericName_of_not {spec method : Token} (s : Store) (h : ¬method.IsMethod) :
    s.genericName spec method = .error (.malformed (.badInstantiation spec method)) := by
  unfold genericName
  split
  · next htable => exact absurd (.inl htable) h
  · next htable => exact absurd (.inr htable) h
  · rfl

theorem resolveVia_of_ne {s : Store} {token : Token} (h : token.table? ≠ some .methodSpec)
    (below : Token → Except Error Symbol) : s.resolveVia below token = s.resolve token := by
  unfold resolveVia
  split
  · next hnone => rw [resolve, hnone]
  · next huser => exact (resolve_literal huser).symm
  · next hspec => exact absurd hspec h
  · next huser _ htable => exact (resolve_row htable huser).symm

/-- A layer over one that resolves methods is all of resolution. -/
theorem resolveVia_of_methods {s : Store} {below : Token → Except Error Symbol}
    (h : ∀ method : Token, method.IsMethod → below method = s.resolve method) (token : Token) :
    s.resolveVia below token = s.resolve token := by
  by_cases hspec : token.table? = some .methodSpec
  · rw [resolve_row hspec nofun, resolveVia, hspec]
    cases s.row .methodSpec token with
    | error e => rfl
    | ok row =>
      cases row with
      | methodSpec method instantiation =>
        show (if method.IsMethod then _ else _) = (s.genericName token method >>= _)
        by_cases hmethod : method.IsMethod
        · rw [if_pos hmethod, h method hmethod, genericName_eq s token hmethod]
          cases s.resolve method <;> rfl
        · rw [if_neg hmethod, genericName_of_not s hmethod]
          rfl
  · exact resolveVia_of_ne hspec below

/-- Two layers are all of resolution, whatever stands below them. -/
theorem resolveVia_resolveVia (s : Store) (below : Token → Except Error Symbol) :
    s.resolveVia (s.resolveVia below) = s.resolve := by
  funext token
  refine resolveVia_of_methods (fun method hmethod => resolveVia_of_ne ?_ below) token
  rcases hmethod with htable | htable
  · rw [htable]
    nofun
  · rw [htable]
    nofun

end Store

/-! ### Operands -/

namespace Resolver

theorem resolve_eq_ok {s : Store} {kind : OperandKind} {token : Token} {sym : Symbol} :
    resolve ⟨some s⟩ kind token = .ok sym ↔
      ∃ t ∈ kind.accepted, token.table? = some t ∧ s.resolve token = .ok sym := by
  rw [resolve_eq]
  constructor
  · intro h
    obtain ⟨t, hcheck, hresolve⟩ := bind_eq_ok.1 h
    obtain ⟨htable, haccepted⟩ := check_eq_ok.1 hcheck
    exact ⟨t, haccepted, htable, hresolve⟩
  · rintro ⟨t, haccepted, htable, hresolve⟩
    exact bind_eq_ok.2 ⟨t, check_eq_ok.2 ⟨htable, haccepted⟩, hresolve⟩

/-- With a store a token is never left unresolved. -/
theorem operand_eq_ok {s : Store} {kind : OperandKind} {token : Token} {o : Operand} :
    operand ⟨some s⟩ kind token = .ok o ↔
      ∃ sym, resolve ⟨some s⟩ kind token = .ok sym ∧ o = .symbol sym := by
  rw [operand_eq, if_neg fun h => nomatch h.1]
  constructor
  · intro h
    obtain ⟨sym, hresolve, hpure⟩ := bind_eq_ok.1 h
    cases hpure
    exact ⟨sym, hresolve, rfl⟩
  · rintro ⟨sym, hresolve, rfl⟩
    exact bind_eq_ok.2 ⟨sym, hresolve, rfl⟩

end Resolver

/-! ### Instructions -/

namespace Instr

/-- The operand is a symbol of a kind that it admits, with the token that the four bytes
behind the opcode spell. -/
def Resolved (code : ByteArray) (i : Instr) : Prop :=
  ∃ sym bytes, i.operand = .symbol sym ∧
    window? code (i.address + i.opcode.codeWidth) 4 = some bytes ∧
    sym.token.value.toNat = ofLE (octets bytes) ∧ sym.kind ∈ i.opcode.kind.admits

theorem resolved_of_ofBytes {s : Store} {code : ByteArray} {pos : Nat} {i : Instr}
    (hpos : pos ≤ code.size) (h : ofBytes ⟨some s⟩ pos (ahead code pos) = .ok i)
    (hkind : i.opcode.kind.isToken = true) : i.Resolved code := by
  have hform := OperandKind.isToken_iff.1 hkind
  obtain ⟨operandBytes, hfetch, hoperand, rfl, _⟩ := ofBytes_eq_ok.1 h
  obtain ⟨_, hlength, hahead⟩ := fetch_eq_ok.1 hfetch
  have hwidth : operandBytes.length = 4 := hlength.trans (OperandKind.width_of_form hform)
  obtain ⟨_, hbytes⟩ := append_isPrefix_ahead.1 hahead
  rw [Opcode.length_toBytes] at hbytes
  have hinside := add_length_le_of_isPrefix hbytes (List.ne_nil_of_length_pos (by omega))
  have hwindow : window? code (i.address + i.opcode.codeWidth) 4 = some operandBytes.toByteArray := by
    refine (window?_eq_some_iff (by omega)).2 ⟨by rwa [octets_toByteArray], ?_⟩
    rw [← length_octets, octets_toByteArray, hwidth]
  simp only [Operand.ofBytes_eq, hform] at hoperand
  obtain ⟨sym, hresolve, hsym⟩ := Resolver.operand_eq_ok.1 hoperand
  obtain ⟨t, haccepted, htable, hstore⟩ := Resolver.resolve_eq_ok.1 hresolve
  refine ⟨sym, _, hsym, hwindow, ?_, ?_⟩
  · have hlt := ofLE_lt operandBytes
    rw [hwidth] at hlt
    rw [Store.token_of_resolve hstore, octets_toByteArray]
    exact Nat.mod_eq_of_lt hlt
  · rw [Store.kind_of_resolve htable hstore]
    exact OperandKind.names_mem_admits haccepted

end Instr

/-- **Resolution is sound for kinds, and goes one layer down at most.** Of any store, two
layers of resolution are all of it. What a resolver gives for a token of an operand kind
carries that token, which is of an accepted table, and is what the table names. And every
instruction decoded with the store, one by one or in a run, that takes a token carries a
symbol: of the token in its bytes, and of a kind that the operand admits. -/
theorem resolution_sound (s : Store) :
    (∀ below : Token → Except Error Symbol, s.resolveVia (s.resolveVia below) = s.resolve) ∧
      (∀ kind token sym, Resolver.resolve ⟨some s⟩ kind token = .ok sym →
        ∃ t ∈ kind.accepted, token.table? = some t ∧ sym.token = token ∧ sym.kind = t.names) ∧
      (∀ c i c', Instr.decodeNext ⟨some s⟩ c = .ok (some (i, c')) →
        i.opcode.kind.isToken = true → i.Resolved c.data) ∧
      (∀ code, ∀ i ∈ (decodeAll ⟨some s⟩ code).instrs.toList,
        i.opcode.kind.isToken = true → i.Resolved code) := by
  refine ⟨s.resolveVia_resolveVia, ?_, ?_, ?_⟩
  · intro kind token sym h
    obtain ⟨t, haccepted, htable, hresolve⟩ := Resolver.resolve_eq_ok.1 h
    exact ⟨t, haccepted, htable, Store.token_of_resolve hresolve, Store.kind_of_resolve htable hresolve⟩
  · intro c i c' h hkind
    obtain ⟨⟨hmore, _, hdecoded⟩, _⟩ := Instr.decodeNext_eq_some.1 h
    exact Instr.resolved_of_ofBytes (Nat.le_of_lt hmore) hdecoded hkind
  · intro code i hi hkind
    obtain ⟨_, hmore, hdecoded⟩ := (decodeAll_trace ⟨some s⟩ code).decoded i hi
    exact Instr.resolved_of_ofBytes (Nat.le_of_lt hmore) hdecoded hkind

/-- A call of a generic instantiation, in a store with an instantiation of itself. -/
theorem resolution_sound_call :
    let s : Store :=
      { rows :=
          { methodDefs := #[.methodDef 0]
            methodSpecs := #[.methodSpec ⟨0x06000001⟩ 0, .methodSpec ⟨0x2B000002⟩ 0] } }
    let code : ByteArray := ⟨#[0x28, 0x01, 0x00, 0x00, 0x2B]⟩
    let call : Instr := ⟨0, 5, ⟨0x28, "call", .methodRef⟩, .symbol (.method ⟨0x2B000001⟩ "")⟩
    Instr.decodeNext ⟨some s⟩ (.start code) = .ok (some (call, ⟨code, 5⟩)) ∧ call.Resolved code ∧
      s.resolveVia (s.resolveVia fun token => .error (.tokenNotFound token)) ⟨0x2B000002⟩ =
        .error (.malformed (.badInstantiation ⟨0x2B000002⟩ ⟨0x2B000002⟩)) := by
  intro s code call
  have hname : s.strings.identifier 0 = .ok "" := by decide +kernel
  have hresolve : s.resolve ⟨0x2B000001⟩ = .ok (.method ⟨0x2B000001⟩ "") := by
    show (s.strings.identifier 0 >>= fun name => .ok (Symbol.method ⟨0x2B000001⟩ name)) = _
    rw [hname]
    rfl
  have hdecoded : Instr.decodeNext ⟨some s⟩ (.start code) = .ok (some (call, ⟨code, 5⟩)) := by
    have hoperand : Resolver.operand ⟨some s⟩ .methodRef ⟨0x2B000001⟩ = .ok call.operand :=
      Resolver.operand_eq_ok.2 ⟨_, Resolver.resolve_eq_ok.2 ⟨.methodSpec, by decide, rfl, hresolve⟩, rfl⟩
    have hfetch : Instr.fetch (ahead code 0) = .ok (call.opcode, [0x01, 0x00, 0x00, 0x2B]) := by decide +kernel
    have hbytes := Instr.ofBytes_eq_ok.2 ⟨_, hfetch, hoperand, rfl, rfl⟩
    exact Instr.decodeNext_eq_some.2 ⟨⟨by decide, by decide, hbytes⟩, rfl⟩
  have hself : s.resolve ⟨0x2B000002⟩ =
      .error (.malformed (.badInstantiation ⟨0x2B000002⟩ ⟨0x2B000002⟩)) := rfl
  obtain ⟨hlayers, _, hnext, _⟩ := resolution_sound s
  exact ⟨hdecoded, hnext _ _ _ hdecoded rfl, by rw [hlayers, hself]⟩

end Cil
