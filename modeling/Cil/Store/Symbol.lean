import Cil.Token

/-! What a token stands for. -/
namespace Cil

/-- A resolved token: the thing it names, with the token itself. -/
inductive Symbol where
  | method (token : Token) (name : String)
  | field (token : Token) (name : String)
  /-- A type; a constructed one has no name. -/
  | type (token : Token) (name : Option String)
  | member (token : Token) (name : String)
  | signature (token : Token) (blob : ByteArray)
  | literal (token : Token) (text : String)

namespace Symbol

def token : Symbol → Token
  | method t _ | field t _ | type t _ | member t _ | signature t _ | literal t _ => t

/-- The identifier, for what has one. -/
def name? : Symbol → Option String
  | method _ name | field _ name | member _ name => some name
  | type _ name => name
  | signature .. | literal .. => none

/-- The text of a literal. -/
def text? : Symbol → Option String
  | literal _ text => some text
  | _ => none

/-- The bytes of a signature. -/
def blob? : Symbol → Option ByteArray
  | signature _ blob => some blob
  | _ => none

end Symbol
end Cil
