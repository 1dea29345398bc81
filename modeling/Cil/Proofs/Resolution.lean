import Cil.Instr.Resolver

/-! What resolving a token can give.

A resolved symbol carries the token it was resolved from (`token_of_resolve`),
and a store that cannot follow a token of one of its tables says so in one of
three ways (`Error.Unresolved`): the row is not there, an index leaves its heap,
or what it leads to is malformed. An operand that is a token, resolved or not,
keeps its value (`token?_of_operand`). -/
namespace Cil

open Bytes

/-- What a store answers for a token that it cannot follow. -/
def Error.Unresolved : Error → Prop
  | tokenNotFound _ | outOfBounds | malformed _ => True
  | _ => False

/-- A computation whose failures are all those of a store. -/
def Lookup {α : Type} (x : Except Error α) : Prop := ∀ e, x = .error e → e.Unresolved

namespace Lookup

variable {α β : Type}

theorem ok (a : α) : Lookup (.ok a) := nofun

theorem error {e : Error} (h : e.Unresolved) : Lookup (.error e : Except Error α) := by
  intro e' he
  cases he
  exact h

theorem bind {x : Except Error α} {f : α → Except Error β} (hx : Lookup x) (hf : ∀ a, Lookup (f a)) :
    Lookup (x >>= f) := by
  intro e he
  rcases bind_eq_error.1 he with hfirst | ⟨a, _, hsecond⟩
  · exact hx e hfirst
  · exact hf a e hsecond

end Lookup

/-! ### Heaps -/

namespace Heap

theorem lookup_entry {kind : HeapKind} (h : Heap kind) (index : Nat) : Lookup (h.entry index) := by
  unfold entry slice
  split
  · split
    · exact .ok _
    · exact .error trivial
  · exact .error trivial
  · exact .error trivial

theorem lookup_identifier (h : Heap .strings) (index : Nat) : Lookup (h.identifier index) := by
  unfold identifier
  split
  · split
    · exact .ok _
    · exact .error trivial
  · exact .error trivial

theorem lookup_literal (h : Heap .userStrings) (index : Nat) : Lookup (h.literal index) := by
  unfold literal
  split
  · split
    · exact .ok _
    · exact .error trivial
  · next e he => exact .error (h.lookup_entry index e he)

end Heap

/-! ### Stores -/

namespace Store

/-- Rows count from one. -/
theorem row_eq_ok {s : Store} {t : Table} {token : Token} {row : Row t} :
    s.row t token = .ok row ↔ token.row ≠ 0 ∧ (s.rows.get t)[token.row - 1]? = some row := by
  unfold Store.row
  by_cases hzero : token.row = 0
  · simp [hzero]
  · rw [if_neg hzero]
    cases (s.rows.get t)[token.row - 1]? <;> simp [hzero]

theorem literal_eq_ok {s : Store} {token : Token} {text : String} :
    s.literal token = .ok text ↔
      token.table? = some .userString ∧ s.literals.literal token.row = .ok text := by
  unfold Store.literal
  by_cases htable : token.table? = some .userString
  · rw [if_pos htable]
    simp only [htable, true_and]
    split
    · next houtside => simp [houtside]
    · rfl
  · simp [htable]

theorem resolve_literal {s : Store} {token : Token} (h : token.table? = some .userString) :
    s.resolve token = (s.literal token >>= fun text => .ok (.literal token text)) := by
  unfold resolve
  rw [h]
  rfl

theorem resolve_row {s : Store} {token : Token} {t : Table} (h : token.table? = some t)
    (hrow : t ≠ .userString) :
    s.resolve token = (s.row t token >>= fun row => s.symbol token row) := by
  unfold resolve
  rw [h]
  cases t <;> first | rfl | exact absurd rfl hrow

theorem lookup_row (s : Store) (t : Table) (token : Token) : Lookup (s.row t token) := by
  unfold row
  split
  · exact .error trivial
  · split
    · exact .ok _
    · exact .error trivial

theorem lookup_qualifiedName (s : Store) (space name : Nat) : Lookup (s.qualifiedName space name) :=
  .bind (s.strings.lookup_identifier space) fun _ =>
    .bind (s.strings.lookup_identifier name) fun _ => .ok _

theorem lookup_genericName (s : Store) (spec method : Token) : Lookup (s.genericName spec method) := by
  unfold genericName
  split
  · refine .bind (s.lookup_row .methodDef method) fun row => ?_
    cases row
    exact s.strings.lookup_identifier _
  · refine .bind (s.lookup_row .memberRef method) fun row => ?_
    cases row
    exact s.strings.lookup_identifier _
  · exact .error trivial

theorem lookup_symbol (s : Store) (token : Token) {t : Table} (row : Row t) :
    Lookup (s.symbol token row) := by
  cases row with
  | typeRef space name => exact .bind (s.lookup_qualifiedName space name) fun _ => .ok _
  | typeDef space name => exact .bind (s.lookup_qualifiedName space name) fun _ => .ok _
  | field name => exact .bind (s.strings.lookup_identifier name) fun _ => .ok _
  | methodDef name => exact .bind (s.strings.lookup_identifier name) fun _ => .ok _
  | memberRef name => exact .bind (s.strings.lookup_identifier name) fun _ => .ok _
  | standAloneSig signature => exact .bind (s.blobs.lookup_entry signature) fun _ => .ok _
  | typeSpec signature => exact .bind (s.blobs.lookup_entry signature) fun _ => .ok _
  | methodSpec method _ => exact .bind (s.lookup_genericName token method) fun _ => .ok _

theorem lookup_literal (s : Store) {token : Token} (h : token.table? = some .userString) :
    Lookup (s.literal token) := by
  unfold literal
  rw [if_pos h]
  split
  · exact .error trivial
  · exact s.literals.lookup_literal _

/-- A token of one of the tables is followed, or is one that the store cannot follow. -/
theorem lookup_resolve (s : Store) {token : Token} {t : Table} (h : token.table? = some t) :
    Lookup (s.resolve token) := by
  unfold resolve
  split
  · next hnone => exact absurd (hnone.symm.trans h) nofun
  · next huser => exact .bind (s.lookup_literal huser) fun _ => .ok _
  · next u _ _ => exact .bind (s.lookup_row u token) fun row => s.lookup_symbol token row

theorem token_of_symbol {s : Store} {token : Token} {t : Table} {row : Row t} {sym : Symbol}
    (h : s.symbol token row = .ok sym) : sym.token = token := by
  cases row <;>
  · obtain ⟨_, _, hsym⟩ := bind_eq_ok.1 h
    cases hsym
    rfl

theorem token_of_resolve {s : Store} {token : Token} {sym : Symbol} (h : s.resolve token = .ok sym) :
    sym.token = token := by
  unfold resolve at h
  split at h
  · cases h
  · obtain ⟨_, _, hsym⟩ := bind_eq_ok.1 h
    cases hsym
    rfl
  · obtain ⟨_, _, hsym⟩ := bind_eq_ok.1 h
    exact token_of_symbol hsym

end Store

/-! ### Operands -/

namespace Resolver

/-- A token passes the check of its operand kind in an accepted table, and fails it with its
table byte in any other. -/
theorem check_eq_ok {kind : OperandKind} {token : Token} {t : Table} :
    check kind token = .ok t ↔ token.table? = some t ∧ t ∈ kind.accepted := by
  unfold check
  split
  · next u hu =>
    rw [hu]
    split
    · next hmem =>
      constructor
      · intro h
        cases h
        exact ⟨rfl, hmem⟩
      · rintro ⟨h, _⟩
        cases h
        rfl
    · next hmem =>
      constructor
      · nofun
      · rintro ⟨h, hmem'⟩
        cases h
        exact absurd hmem' hmem
  · next hnone =>
    rw [hnone]
    exact ⟨nofun, nofun⟩

theorem check_error {kind : OperandKind} {token : Token} {e : Error}
    (h : check kind token = .error e) : e = .unsupportedToken token.tableByte := by
  unfold check at h
  split at h
  · split at h
    · cases h
    · exact (Except.error.inj h).symm
  · exact (Except.error.inj h).symm

/-- A resolver looks tokens up in its store once they have passed the check: there literals are
told by the same look-up as rows. -/
theorem resolve_eq (r : Resolver) (kind : OperandKind) (token : Token) :
    r.resolve kind token = check kind token >>= fun _ =>
      match r.store with
      | some s => s.resolve token
      | none => .error .noMetadata := by
  obtain ⟨store⟩ := r
  unfold resolve resolveIn
  cases hcheck : check kind token with
  | error e => rfl
  | ok t =>
    cases store with
    | none => rfl
    | some s =>
      have htable := (check_eq_ok.1 hcheck).1
      show (if t = .userString then s.literal token >>= fun text => .ok (.literal token text)
        else s.resolve token) = s.resolve token
      split
      · next huser => rw [Store.resolve_literal (huser ▸ htable)]
      · rfl

theorem operand_eq (r : Resolver) (kind : OperandKind) (token : Token) :
    r.operand kind token =
      if r.store.isNone ∧ kind ≠ .genericToken then check kind token >>= fun _ => .ok (.token token)
      else r.resolve kind token >>= fun sym => .ok (.symbol sym) := by
  rw [operand, operandIn, symbols, Option.isNone_map]
  rfl

/-- Without a store a token stays as it is. -/
theorem operand_bare {kind : OperandKind} (hkind : kind ≠ .genericToken) (token : Token) :
    bare.operand kind token = (check kind token).map fun _ => .token token := by
  rw [operand_eq, if_pos ⟨rfl, hkind⟩]
  cases check kind token <;> rfl

/-- Without a store a token of the kind that has no unresolved form is refused once it
has passed the check. -/
theorem operand_bare_generic (token : Token) :
    bare.operand .genericToken token =
      (check .genericToken token).bind fun _ => .error .noMetadata := by
  rw [operand_eq, if_neg fun h => h.2 rfl, resolve_eq]
  cases check .genericToken token <;> rfl

/-- With a store a token is resolved once it has passed the check. -/
theorem operand_store (s : Store) (kind : OperandKind) (token : Token) :
    operand ⟨some s⟩ kind token =
      (check kind token).bind fun _ => (s.resolve token).map .symbol := by
  rw [operand_eq, if_neg (fun h => nomatch h.1), resolve_eq]
  cases check kind token with
  | error e => rfl
  | ok t => cases hres : s.resolve token <;> simp [bind, Except.bind, Except.map, hres]

theorem token?_of_operand {r : Resolver} {kind : OperandKind} {token : Token} {o : Operand}
    (h : r.operand kind token = .ok o) : o.token? = some token := by
  rw [operand_eq] at h
  split at h
  · obtain ⟨_, _, ho⟩ := bind_eq_ok.1 h
    cases ho
    rfl
  · obtain ⟨sym, hsym, ho⟩ := bind_eq_ok.1 h
    cases ho
    rw [resolve_eq] at hsym
    obtain ⟨_, _, hres⟩ := bind_eq_ok.1 hsym
    split at hres
    · rw [Operand.token?, Store.token_of_resolve hres]
    · cases hres

theorem operand_error {r : Resolver} {kind : OperandKind} {token : Token} {e : Error}
    (h : r.operand kind token = .error e) :
    e = .unsupportedToken token.tableByte ∨ e = .noMetadata ∨ e.Unresolved := by
  rw [operand_eq] at h
  split at h
  · rcases bind_eq_error.1 h with hcheck | ⟨_, _, hpure⟩
    · exact .inl (check_error hcheck)
    · cases hpure
  · rcases bind_eq_error.1 h with hres | ⟨_, _, hpure⟩
    · rw [resolve_eq] at hres
      rcases bind_eq_error.1 hres with hcheck | ⟨t, hcheck, hstore⟩
      · exact .inl (check_error hcheck)
      · split at hstore
        · next s _ => exact .inr (.inr (s.lookup_resolve (check_eq_ok.1 hcheck).1 e hstore))
        · exact .inr (.inl (Except.error.inj hstore).symm)
    · cases hpure

end Resolver
end Cil
