import Fluxion.Expr
import Fluxion.Token.Lexer

/-!
# Reading expressions

The grammar has two layers of left associative operators over factors:

    expression := term (('+' | '-') term)*
    term       := factor (('*' | '/') factor)*
    factor     := primary ('^' ('+' | '-')? number)?
    primary    := number | identifier | '(' expression ')'

The reader takes the tokens one by one and keeps what it has seen as a `Parser.State`: the operands
that wait for a right neighbour, one `Level` for each open parenthesis, and what may come next. A
token that cannot come next is an error at once, so an error always points at the first token at
which the text stops being the beginning of an expression.
-/

namespace Fluxion

/-- Why a text is not an expression. -/
inductive ParseError where
  /-- The text contains a character that no token contains. -/
  | lexical (cause : LexError)
  /-- A token stands where it cannot stand. -/
  | mismatch (expected : List TokenKind) (found : TokenKind) (offset : Nat)
  /-- A number is too large to be represented. -/
  | range (digits : String) (offset : Nat)
deriving DecidableEq, Repr

namespace ParseError

/-- The kind names of the tokens that would have been accepted. -/
def alternatives (kinds : List TokenKind) : String :=
  String.intercalate " or " (kinds.map TokenKind.name)

/-- The complaint about a decimal literal that is too large. -/
def rangeMessage (digits : String) : String :=
  "strconv.ParseFloat: parsing " ++ Text.quote digits ++ ": value out of range"

/-- The text of the error. -/
def message : ParseError → String
  | lexical cause => cause.message
  | mismatch expected found offset =>
    "expected " ++ alternatives expected ++ ", found " ++ found.name ++ " at offset " ++
      toString offset
  | range digits offset => "number at offset " ++ toString offset ++ ": " ++ rangeMessage digits

end ParseError

namespace Numeral

/-- The digits of a literal read as one natural number, and how many stand after the point. -/
def read (literal : String) : Nat × Nat :=
  let digits := literal.toList.filter (· != '.')
  let fraction := (literal.toList.dropWhile (· != '.')).drop 1
  (Nat.ofDigitChars 10 digits 0, fraction.length)

/-- The value of a literal, unless it is too large. -/
def value? {α : Type} [Scalar α] (literal : String) : Option α :=
  Scalar.ofDecimal? (read literal).1 (read literal).2

end Numeral

namespace Parser

variable {α : Type} [Scalar α]

/-- A left operand with the operator that follows it. -/
structure Waiting (α : Type) where
  /-- The operand to the left. -/
  left : Expr α
  /-- The operator between it and what comes next. -/
  op : Operator

/-- The operands that wait for a right neighbour inside one pair of parentheses. -/
structure Level (α : Type) where
  /-- The sum read so far. -/
  sum : Option (Waiting α)
  /-- The product read so far. -/
  product : Option (Waiting α)

/-- A level at which nothing has been read. -/
def Level.start : Level α := ⟨none, none⟩

/-- The expression that a waiting operand and its right neighbour form. -/
def attach (w : Option (Waiting α)) (right : Expr α) : Expr α :=
  match w with
  | some w => .bin w.op w.left right
  | none => right

/-- The product that ends with a factor. -/
def Level.term (l : Level α) (factor : Expr α) : Expr α := attach l.product factor

/-- The expression that ends with a factor. -/
def Level.expression (l : Level α) (factor : Expr α) : Expr α := attach l.sum (l.term factor)

/-- What may come next. -/
inductive Expecting (α : Type) where
  /-- An operand. -/
  | operand
  /-- The exponent of `base`, with or without a sign. -/
  | exponent (base : Expr α)
  /-- The digits of the exponent of `base`; its sign has been read. -/
  | magnitude (base : Expr α) (negative : Bool)
  /-- An operator or the end of the expression. An exponent may follow a primary, not a power. -/
  | operator (factor : Expr α) (primary : Bool)

/-- What has been read. -/
structure State (α : Type) where
  /-- The operands that wait inside the innermost parentheses. -/
  level : Level α
  /-- The operands that wait outside of them, innermost first. -/
  outer : List (Level α)
  /-- What may come next. -/
  expecting : Expecting α

namespace State

/-- Nothing has been read. -/
def start : State α := ⟨.start, [], .operand⟩

/-- The kinds that an error names; the operators that could also follow are not among them. -/
def expected (s : State α) : List TokenKind :=
  match s.expecting with
  | .operand => [.number, .identifier, .opening]
  | .exponent _ => [.number]
  | .magnitude _ _ => [.number]
  | .operator _ _ => if s.outer.isEmpty then [.ending] else [.closing]

/-- The state after a complete factor. -/
def withFactor (s : State α) (factor : Expr α) (primary : Bool) : State α :=
  { s with expecting := .operator factor primary }

/-- The state after an operator of the outer layer. -/
def withSum (s : State α) (op : Operator) (factor : Expr α) : State α :=
  { s with level := ⟨some ⟨s.level.expression factor, op⟩, none⟩, expecting := .operand }

/-- The state after an operator of the inner layer. -/
def withProduct (s : State α) (op : Operator) (factor : Expr α) : State α :=
  { s with level := ⟨s.level.sum, some ⟨s.level.term factor, op⟩⟩, expecting := .operand }

end State

/-- What a token that can come next does. -/
inductive Move (α : Type) where
  /-- It leads to another state. -/
  | shift (s : State α)
  /-- It is a number, and its value leads to another state. -/
  | literal (next : α → State α)
  /-- It ends the expression. -/
  | accept (e : Expr α)

/-- What a token does in a state; `none` if it cannot come next. -/
def State.move? (s : State α) (t : Token) : Option (Move α) :=
  match s.expecting, t.kind with
  | .operand, .number => some (.literal fun v => s.withFactor (.num v) true)
  | .operand, .identifier => some (.shift (s.withFactor (.var t.literal) true))
  | .operand, .opening => some (.shift ⟨.start, s.level :: s.outer, .operand⟩)
  | .exponent base, .plus => some (.shift { s with expecting := .magnitude base false })
  | .exponent base, .minus => some (.shift { s with expecting := .magnitude base true })
  | .exponent base, .number => some (.literal fun v => s.withFactor (.pow base v) false)
  | .magnitude base negative, .number =>
    some (.literal fun v => s.withFactor (.pow base (if negative then -v else v)) false)
  | .operator factor true, .caret => some (.shift { s with expecting := .exponent factor })
  | .operator factor _, .plus => some (.shift (s.withSum .add factor))
  | .operator factor _, .minus => some (.shift (s.withSum .sub factor))
  | .operator factor _, .star => some (.shift (s.withProduct .mul factor))
  | .operator factor _, .slash => some (.shift (s.withProduct .div factor))
  | .operator factor _, .closing =>
    match s.outer with
    | level :: outer =>
      some (.shift ⟨level, outer, .operator (s.level.expression factor) true⟩)
    | [] => none
  | .operator factor _, .ending =>
    if s.outer.isEmpty then some (.accept (s.level.expression factor)) else none
  | _, _ => none

/-- Read the tokens one by one. `failure` is why the tokens end if they end without an end token; it
is reported before the value of a number in front of it is looked at. -/
def run (failure : ParseError) (s : State α) : List Token → Except ParseError (Expr α)
  | [] => .error failure
  | t :: rest =>
    match s.move? t with
    | none => .error (.mismatch s.expected t.kind t.offset)
    | some (.accept e) => .ok e
    | some (.shift s') => run failure s' rest
    | some (.literal next) =>
      if rest.isEmpty then .error failure
      else
        match Numeral.value? t.literal with
        | some v => run failure (next v) rest
        | none => .error (.range t.literal t.offset)

end Parser

/-- The expression that a text denotes. -/
def Expr.parse {α : Type} [Scalar α] (text : List UInt8) : Except ParseError (Expr α) :=
  let ts := tokens text
  Parser.run (.lexical (ts.failure.getD .exhausted)) .start ts.list

end Fluxion
