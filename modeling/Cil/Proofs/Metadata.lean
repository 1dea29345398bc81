import Cil.Proofs.Trace

/-! Decoding with metadata and without.

A store adds names to instructions and changes nothing else about them. Of the same
code, a decoder with a store and one without give item by item the same
instructions, up to resolved operands (`Instr.Agrees`), until they part
(`Parting`): both end, or both find the same fault in the code, or the one without
a store meets an `ldtoken`, which it cannot show, or the one with a store meets a
token that it cannot follow (`decodeAll_refines`). -/
namespace Cil

open Bytes

/-! ### What metadata does not change -/

/-- Faults of the code itself, whatever metadata it is decoded with. -/
def Error.Shared : Error → Prop
  | truncated | unknownOpcode _ | unsupportedToken _ | malformed (.branchOutOfRange _) => True
  | _ => False

/-- The operand as it is without metadata. -/
def Operand.unresolved : Operand → Operand
  | symbol s => token s.token
  | operand => operand

/-- An instruction and what it is without metadata. -/
structure Instr.Agrees (named bare : Instr) : Prop where
  address : bare.address = named.address
  size : bare.size = named.size
  opcode : bare.opcode = named.opcode
  operand : bare.operand = named.operand.unresolved
  text : bare.text false = named.text false

/-- The text without names shows nothing that metadata adds. -/
theorem Instr.text_unresolved (i : Instr) :
    Instr.text false { i with operand := i.operand.unresolved } = i.text false := by
  obtain ⟨address, size, opcode, operand⟩ := i
  cases operand <;> rfl

theorem Instr.agrees_unresolved (i : Instr) : i.Agrees { i with operand := i.operand.unresolved } :=
  ⟨rfl, rfl, rfl, rfl, i.text_unresolved⟩

/-! ### One operand -/

/-- What is read as an operand with a store, and beside it without one. -/
inductive Operand.Beside (s : Store) (kind : OperandKind) (token : Token) :
    Except Error Operand → Except Error Operand → Prop where
  | agree (operand : Operand) : Beside s kind token (.ok operand) (.ok operand.unresolved)
  | fault {cause : Error} : cause.Shared → Beside s kind token (.error cause) (.error cause)
  | generic {t : Table} : kind = .genericToken → Resolver.check kind token = .ok t →
    Beside s kind token ((s.resolve token).map .symbol) (.error .noMetadata)
  | lost {cause : Error} : s.resolve token = .error cause → cause.Unresolved →
    Beside s kind token (.error cause) (.ok (.token token))

namespace Operand

theorem beside_token (s : Store) (kind : OperandKind) (token : Token) :
    Beside s kind token (Resolver.operand ⟨some s⟩ kind token) (Resolver.bare.operand kind token) := by
  rw [Resolver.operand_store]
  by_cases hkind : kind = .genericToken
  · subst hkind
    rw [Resolver.operand_bare_generic]
    cases hcheck : Resolver.check .genericToken token with
    | error e =>
      rw [Resolver.check_error hcheck]
      exact .fault trivial
    | ok t => exact .generic rfl hcheck
  · rw [Resolver.operand_bare hkind]
    cases hcheck : Resolver.check kind token with
    | error e =>
      rw [Resolver.check_error hcheck]
      exact .fault trivial
    | ok t =>
      show Beside s kind token ((s.resolve token).map .symbol) (.ok (.token token))
      cases hres : s.resolve token with
      | error e =>
        have htable := (Resolver.check_eq_ok.1 hcheck).1
        exact .lost hres (s.lookup_resolve htable e hres)
      | ok sym =>
        rw [← Store.token_of_resolve hres]
        exact .agree (.symbol sym)

/-- Only an operand that is a token is read differently with metadata. -/
theorem beside_ofBytes (s : Store) (kind : OperandKind) (next : Nat) (bytes : List UInt8) :
    Beside s kind ⟨UInt32.ofNat (ofLE bytes)⟩ (ofBytes ⟨some s⟩ kind next bytes)
      (ofBytes .bare kind next bytes) := by
  rw [ofBytes_eq, ofBytes_eq]
  split
  · exact .agree .none
  · next f _ =>
    unfold branchTarget
    simp only
    split
    · exact .agree (.target _)
    · exact .fault trivial
  · exact .agree (.immediate _)
  · exact beside_token s kind _

end Operand

/-! ### One instruction -/

/-- An `ldtoken` stands there, with a token of one of the tables it accepts. -/
def LdtokenAt (code : ByteArray) (address : Nat) (token : Token) : Prop :=
  0xD0 :: toLE 4 token.value.toNat <+: ahead code address ∧
    ∃ t ∈ OperandKind.genericToken.accepted, token.table? = some t

theorem ldtokenAt_of_fetch {code : ByteArray} {address : Nat} {op : Opcode} {operandBytes : List UInt8}
    {t : Table} (hfetch : Instr.fetch (ahead code address) = .ok (op, operandBytes))
    (hkind : op.kind = .genericToken)
    (hcheck : Resolver.check op.kind ⟨UInt32.ofNat (ofLE operandBytes)⟩ = .ok t) :
    LdtokenAt code address ⟨UInt32.ofNat (ofLE operandBytes)⟩ := by
  obtain ⟨hmem, hlen, hpre⟩ := Instr.fetch_eq_ok.1 hfetch
  obtain ⟨htable, haccepted⟩ := Resolver.check_eq_ok.1 hcheck
  have hcode : op.toBytes = [0xD0] := (Opcode.ldtoken_of_genericToken hmem hkind).2
  rw [hkind] at hlen haccepted
  rw [hcode] at hpre
  refine ⟨?_, t, haccepted, htable⟩
  rw [Token.toLE_ofLE hlen]
  exact hpre

/-- How the items of the two decoders can differ, the one with a store first. -/
inductive Parting (s : Store) (code : ByteArray) :
    Option (Except Error Instr) → Option (Except Error Instr) → Prop where
  | ended : Parting s code none none
  | fault {address : Nat} {cause : Error} : cause.Shared →
    Parting s code (some (.error (.decode address cause))) (some (.error (.decode address cause)))
  /-- Only a store can show an `ldtoken`. -/
  | unnamed {i : Instr} {token : Token} {sym : Symbol} : LdtokenAt code i.address token →
    s.resolve token = .ok sym → i.operand = .symbol sym →
      Parting s code (some (.ok i)) (some (.error (.decode i.address .noMetadata)))
  | unnamedLost {address : Nat} {token : Token} {cause : Error} : LdtokenAt code address token →
    s.resolve token = .error cause → cause.Unresolved →
      Parting s code (some (.error (.decode address cause))) (some (.error (.decode address .noMetadata)))
  /-- Only with a store can a token lead nowhere. -/
  | lost {i : Instr} {token : Token} {cause : Error} : i.operand = .token token →
    s.resolve token = .error cause → cause.Unresolved →
      Parting s code (some (.error (.decode i.address cause))) (some (.ok i))

/-- With a store and without, the next item is the same instruction, or the decoders part. -/
theorem Instr.ofBytes_beside (s : Store) (code : ByteArray) (pos : Nat) :
    (∃ i i', ofBytes ⟨some s⟩ pos (ahead code pos) = .ok i ∧
      ofBytes .bare pos (ahead code pos) = .ok i' ∧ i.Agrees i') ∨
    Parting s code (some ((ofBytes ⟨some s⟩ pos (ahead code pos)).mapError (.decode pos)))
      (some ((ofBytes .bare pos (ahead code pos)).mapError (.decode pos))) := by
  cases hfetch : fetch (ahead code pos) with
  | error e =>
    have herror : ∀ r, ofBytes r pos (ahead code pos) = .error e :=
      fun _ => bind_eq_error.2 (.inl hfetch)
    rw [herror, herror]
    refine .inr (.fault ?_)
    rcases fetch_error hfetch with rfl | ⟨opcode, rfl⟩ <;> trivial
  | ok fetched =>
    obtain ⟨op, operandBytes⟩ := fetched
    have hbeside := Operand.beside_ofBytes s op.kind (pos + op.size) operandBytes
    rw [ofBytes_of_fetch hfetch, ofBytes_of_fetch hfetch]
    generalize Operand.ofBytes ⟨some s⟩ op.kind (pos + op.size) operandBytes = named at hbeside
    generalize Operand.ofBytes .bare op.kind (pos + op.size) operandBytes = bare at hbeside
    cases hbeside with
    | agree operand => exact .inl ⟨_, _, rfl, rfl, agrees_unresolved _⟩
    | fault hcause => exact .inr (.fault hcause)
    | generic hkind hcheck =>
      have hat := ldtokenAt_of_fetch hfetch hkind hcheck
      obtain ⟨t, _, htable⟩ := hat.2
      cases hres : s.resolve ⟨UInt32.ofNat (ofLE operandBytes)⟩ with
      | ok sym => exact .inr (.unnamed (i := ⟨pos, op.size, op, .symbol sym⟩) hat hres rfl)
      | error cause => exact .inr (.unnamedLost hat hres (s.lookup_resolve htable cause hres))
    | lost hres hcause =>
      exact .inr (.lost (i := ⟨pos, op.size, op, .token _⟩) rfl hres hcause)

/-! ### Runs -/

/-- What the next items of the two decoders are, from the same place in the code. -/
theorem Decoder.next_beside (s : Store) {code : ByteArray} (hsize : code.size ≤ maxAddress) (pos : Nat) :
    (∃ i i', Instr.decodeNext ⟨some s⟩ ⟨code, pos⟩ = .ok (some (i, ⟨code, pos + i.size⟩)) ∧
      Instr.decodeNext .bare ⟨code, pos⟩ = .ok (some (i', ⟨code, pos + i'.size⟩)) ∧ i.Agrees i') ∨
    Parting s code (next ⟨⟨code, pos⟩, ⟨some s⟩, false⟩).1 (next ⟨⟨code, pos⟩, .bare, false⟩).1 := by
  by_cases hmore : pos < code.size
  · have hpos : pos ≤ maxAddress := by omega
    have hitem : ∀ r, (next ⟨⟨code, pos⟩, r, false⟩).1 =
        some ((Instr.ofBytes r pos (ahead code pos)).mapError (.decode pos)) := by
      intro r
      cases hdecoded : Instr.ofBytes r pos (ahead code pos) with
      | ok i => rw [next_of_some (Instr.decodeNext_eq_some.2 ⟨⟨hmore, hpos, hdecoded⟩, rfl⟩)]; rfl
      | error cause =>
        rw [next_of_error ((Instr.decodeNext_eq_error hsize).2 ⟨hmore, cause, hdecoded, rfl⟩)]; rfl
    rw [hitem, hitem]
    refine (Instr.ofBytes_beside s code pos).imp_left ?_
    rintro ⟨i, i', hi, hi', hagrees⟩
    exact ⟨i, i', Instr.decodeNext_eq_some.2 ⟨⟨hmore, hpos, hi⟩, rfl⟩,
      Instr.decodeNext_eq_some.2 ⟨⟨hmore, hpos, hi'⟩, rfl⟩, hagrees⟩
  · have hend : ∀ r, Instr.decodeNext r ⟨code, pos⟩ = .ok none :=
      fun _ => Instr.decodeNext_eq_none.2 (Nat.not_lt.1 hmore)
    rw [next_of_none (hend _), next_of_none (hend _)]
    exact .inr .ended

/-- Two streams give the same instructions up to the item where they part. -/
def Refines (s : Store) (code : ByteArray) (named bare : List (Except Error Instr)) : Prop :=
  ∃ k : Nat, (∀ j < k, ∃ i i', named[j]? = some (.ok i) ∧ bare[j]? = some (.ok i') ∧ i.Agrees i') ∧
    Parting s code named[k]? bare[k]?

theorem Refines.cons {s : Store} {code : ByteArray} {named bare : List (Except Error Instr)}
    {i i' : Instr} (hagrees : i.Agrees i') (h : Refines s code named bare) :
    Refines s code (.ok i :: named) (.ok i' :: bare) := by
  obtain ⟨k, hbefore, hparting⟩ := h
  refine ⟨k + 1, ?_, by simpa using hparting⟩
  intro j hj
  cases j with
  | zero => exact ⟨i, i', rfl, rfl, hagrees⟩
  | succ j => simpa using hbefore j (Nat.lt_of_succ_lt_succ hj)

namespace Trace

variable {code : ByteArray} {pos stop stop' : Nat} {is is' : List Instr} {failure failure' : Option Error}

/-- The first item of a trace is the next one of a decoder at its start. -/
theorem head_items {r : Resolver} (h : Trace r code pos is failure stop) :
    (itemsOf is failure)[0]? = (Decoder.next ⟨⟨code, pos⟩, r, false⟩).1 := by
  cases h with
  | ended hnone => rw [Decoder.next_of_none hnone]; rfl
  | failed herror => rw [Decoder.next_of_error herror]; rfl
  | step hsome => rw [Decoder.next_of_some hsome]; rfl

theorem refines_of_parting {s : Store} (h : Trace ⟨some s⟩ code pos is failure stop)
    (h' : Trace .bare code pos is' failure' stop')
    (hparting : Parting s code (Decoder.next ⟨⟨code, pos⟩, ⟨some s⟩, false⟩).1
      (Decoder.next ⟨⟨code, pos⟩, .bare, false⟩).1) :
    Refines s code (itemsOf is failure) (itemsOf is' failure') := by
  refine ⟨0, fun j hj => absurd hj (Nat.not_lt_zero j), ?_⟩
  rw [h.head_items, h'.head_items]
  exact hparting

theorem refines {s : Store} (hsize : code.size ≤ maxAddress) (h : Trace ⟨some s⟩ code pos is failure stop)
    (h' : Trace .bare code pos is' failure' stop') :
    Refines s code (itemsOf is failure) (itemsOf is' failure') := by
  induction h generalizing is' failure' stop' with
  | @ended pos hnone =>
    rcases Decoder.next_beside s hsize pos with ⟨i, _, hsome, _⟩ | hparting
    · cases hnone.symm.trans hsome
    · exact (ended hnone).refines_of_parting h' hparting
  | @failed pos e herror =>
    rcases Decoder.next_beside s hsize pos with ⟨i, _, hsome, _⟩ | hparting
    · cases herror.symm.trans hsome
    · exact (failed herror).refines_of_parting h' hparting
  | @step pos i rest failure stop hsome htail ih =>
    rcases Decoder.next_beside s hsize pos with ⟨j, j', hj, hj', hagrees⟩ | hparting
    · cases hsome.symm.trans hj
      cases h' with
      | ended hnone' => cases hnone'.symm.trans hj'
      | failed herror' => cases herror'.symm.trans hj'
      | step hsome' htail' =>
        -- the two instructions have one size, so both decoders go on from the same place
        cases hsome'.symm.trans hj'
        rw [hagrees.size] at htail'
        exact (ih htail').cons hagrees
    · exact (step hsome htail).refines_of_parting h' hparting

end Trace

/-- **Metadata adds names and nothing else.** With any store and without one, the same code
gives the same instructions, item by item and up to resolved operands, until the two
streams part; and they part only where both end, at a fault of the code that they both
give, at an `ldtoken`, or at a token that the store cannot follow. -/
theorem decodeAll_refines (s : Store) (code : ByteArray) (hsize : code.size ≤ maxAddress) :
    Refines s code (Decoder.start ⟨some s⟩ code).rest.1.toList (Decoder.start .bare code).rest.1.toList := by
  rw [items_eq, items_eq]
  exact (decodeAll_trace _ code).refines hsize (decodeAll_trace _ code)

/-- Calls of the only method of a store, and of one that is not there. -/
theorem decodeAll_refines_calls :
    let s : Store := { rows := { methodDefs := #[.methodDef 0] } }
    let code : ByteArray := ⟨#[0x28, 0x01, 0x00, 0x00, 0x06, 0x28, 0x02, 0x00, 0x00, 0x06]⟩
    (decodeAll ⟨some s⟩ code).failure = some (.decode 5 (.tokenNotFound ⟨0x06000002⟩)) ∧
      (decodeAll .bare code).failure = none ∧
      Refines s code (Decoder.start ⟨some s⟩ code).rest.1.toList
        (Decoder.start .bare code).rest.1.toList := by
  intro s code
  refine ⟨by decide +kernel, by decide +kernel, ?_⟩
  exact decodeAll_refines s code (by decide)

end Cil
