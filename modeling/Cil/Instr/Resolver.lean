import Cil.Opcode.Kind
import Cil.Store.Basic

/-! Operands and their tokens.

A token is first held against the tables its operand kind accepts and only then
looked up, so that a field access through a type token fails for its kind and not
for its row. Where it is looked up is open (`Symbols`); a resolver looks into a store.
Without symbols a token stays as it is, except that an operand of the kind that takes
members as well as types has no unresolved form. -/
namespace Cil

inductive Operand where
  | none
  | immediate (value : Scalar)
  /-- The address a branch goes to. -/
  | target (address : Nat)
  | symbol (symbol : Symbol)
  | token (token : Token)

namespace Operand

/-- The token of the operand, resolved or not. -/
def token? : Operand → Option Token
  | symbol s => some s.token
  | token t => some t
  | _ => Option.none

end Operand

/-- Whatever can tell what tokens name: rows by their symbols, and literals by their text. -/
structure Symbols where
  resolve : Token → Except Error Symbol
  literal : Token → Except Error String

/-- A store tells what it holds. -/
def Store.symbols (s : Store) : Symbols := ⟨s.resolve, s.literal⟩

/-- The metadata that decoding may use. -/
structure Resolver where
  store : Option Store

namespace Resolver

/-- Decoding without metadata. -/
def bare : Resolver := ⟨none⟩

/-- The symbols of the store. -/
def symbols (r : Resolver) : Option Symbols := r.store.map Store.symbols

/-- A resolver stands for its symbols. -/
instance : Coe Resolver (Option Symbols) := ⟨symbols⟩

/-- The table of the token, if the kind accepts it. -/
def check (kind : OperandKind) (token : Token) : Except Error Table :=
  match token.table? with
  | some t => if t ∈ kind.accepted then .ok t else .error (.unsupportedToken token.tableByte)
  | none => .error (.unsupportedToken token.tableByte)

/-- The thing a token of this kind names among the symbols, if there are any. -/
def resolveIn (symbols : Option Symbols) (kind : OperandKind) (token : Token) : Except Error Symbol := do
  let table ← check kind token
  match symbols with
  | some s =>
    if table = .userString then return .literal token (← s.literal token)
    else s.resolve token
  | none => .error .noMetadata

/-- The operand that a token of this kind is, with these symbols or none. -/
def operandIn (symbols : Option Symbols) (kind : OperandKind) (token : Token) : Except Error Operand :=
  if symbols.isNone ∧ kind ≠ .genericToken then do
    let _ ← check kind token
    return .token token
  else do
    return .symbol (← resolveIn symbols kind token)

/-- The thing a token of this kind names in the store. -/
def resolve (r : Resolver) (kind : OperandKind) (token : Token) : Except Error Symbol :=
  resolveIn r.symbols kind token

/-- The operand that a token of this kind is, with the store or without one. -/
def operand (r : Resolver) (kind : OperandKind) (token : Token) : Except Error Operand :=
  operandIn r.symbols kind token

end Resolver
end Cil
