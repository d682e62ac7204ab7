/-!
# Tokens

A token is a piece of source text with its class and the byte offset at which it starts.
-/

namespace Fluxion

/-- The class of a token. -/
inductive TokenKind where
  /-- The end of the text. -/
  | ending
  /-- A run of letters. -/
  | identifier
  /-- Digits with at most one decimal point. -/
  | number
  | plus
  | minus
  | star
  | slash
  | caret
  | opening
  | closing
deriving DecidableEq, Repr, Inhabited

namespace TokenKind

/-- Every class, in the order of the numeric codes. -/
def all : List TokenKind :=
  [ending, identifier, number, plus, minus, star, slash, caret, opening, closing]

/-- The name of a class in messages. -/
def name : TokenKind → String
  | ending => "end of input"
  | identifier => "identifier"
  | number => "number"
  | plus => "'+'"
  | minus => "'-'"
  | star => "'*'"
  | slash => "'/'"
  | caret => "'^'"
  | opening => "'('"
  | closing => "')'"

/-- The class with a numeric code. -/
def ofCode? (code : Int) : Option TokenKind :=
  if code < 0 then none else all[code.toNat]?

/-- The name that goes with a numeric code, also when no class has it. -/
def codeName (code : Int) : String := ((ofCode? code).map name).getD "unknown"

/-- The class of a byte that is a token by itself. -/
def ofByte? (b : UInt8) : Option TokenKind :=
  match Char.ofNat b.toNat with
  | '+' => some plus
  | '-' => some minus
  | '*' => some star
  | '/' => some slash
  | '^' => some caret
  | '(' => some opening
  | ')' => some closing
  | _ => none

end TokenKind

/-- A lexeme of the source text. -/
structure Token where
  /-- The class of the lexeme. -/
  kind : TokenKind
  /-- The text of the lexeme; empty for the end of the text. -/
  literal : String
  /-- The byte offset of its first byte. -/
  offset : Nat
deriving DecidableEq, Repr, Inhabited

end Fluxion
