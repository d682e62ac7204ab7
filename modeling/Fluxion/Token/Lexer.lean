import Fluxion.Token
import Fluxion.Text.Quoted

/-!
# From bytes to tokens

`scan` reads one token off the front of a byte sequence, always the longest one that fits.
`tokenize` reads all of them. A `Lexer` hands the tokens out one at a time: after the end token it is
exhausted, and after a byte that starts no token it stays in front of that byte, so that asking again
gives the same answer.
-/

namespace Fluxion

/-- A space, or one of tabulator, line feed, vertical tabulator, form feed, carriage return. -/
def isBlank (b : UInt8) : Bool := b == 0x20 || (0x09 ≤ b && b ≤ 0x0D)

/-- An ASCII digit. -/
def isDigit (b : UInt8) : Bool := 0x30 ≤ b && b ≤ 0x39

/-- An ASCII letter. -/
def isLetter (b : UInt8) : Bool := (0x61 ≤ b && b ≤ 0x7A) || (0x41 ≤ b && b ≤ 0x5A)

/-- The decimal point. -/
def pointByte : UInt8 := 0x2E

/-- The text could be read as one identifier: it is not empty and holds ASCII letters only. -/
def isIdentifier (name : String) : Bool :=
  !name.isEmpty && (Utf8.bytes name).all isLetter

/-- Why no token comes next. -/
inductive LexError where
  /-- A character that no token contains. -/
  | unexpected (char : Char) (offset : Nat)
  /-- The end token has been handed out before. -/
  | exhausted
deriving DecidableEq, Repr

namespace LexError

/-- The text of the error. -/
def message : LexError → String
  | unexpected char offset =>
    "unexpected character " ++ Text.quoteChar char ++ " at offset " ++ toString offset
  | exhausted => "lexer exhausted"

end LexError

/-- What stands at the front of a byte sequence. -/
inductive Scan where
  /-- A token and the bytes after it. -/
  | token (t : Token) (rest : List UInt8)
  /-- Nothing but blanks; `offset` is where the text ends. -/
  | finish (offset : Nat)
  /-- A character that starts or continues no token, at the front of `rest`. -/
  | reject (char : Char) (offset : Nat) (rest : List UInt8)

namespace Scan

/-- A run of digits, then perhaps a point with more digits. A second point is rejected. -/
def number (bs : List UInt8) (offset : Nat) : Scan :=
  let whole := bs.takeWhile isDigit
  let afterWhole := bs.dropWhile isDigit
  match afterWhole with
  | b :: more =>
    if b == pointByte then
      let fraction := more.takeWhile isDigit
      let rest := more.dropWhile isDigit
      let literal := whole ++ b :: fraction
      if rest.head? == some pointByte then
        .reject '.' (offset + literal.length) rest
      else
        .token ⟨.number, Utf8.ofAscii literal, offset⟩ rest
    else .token ⟨.number, Utf8.ofAscii whole, offset⟩ afterWhole
  | [] => .token ⟨.number, Utf8.ofAscii whole, offset⟩ []

/-- A run of letters. -/
def identifier (bs : List UInt8) (offset : Nat) : Scan :=
  .token ⟨.identifier, Utf8.ofAscii (bs.takeWhile isLetter), offset⟩ (bs.dropWhile isLetter)

/-- The token at the front of bytes that do not start with a blank. -/
def ofVisible (bs : List UInt8) (offset : Nat) : Scan :=
  match bs with
  | [] => .finish offset
  | b :: rest =>
    if isDigit b then number bs offset
    else if isLetter b then identifier bs offset
    else
      match TokenKind.ofByte? b with
      | some kind => .token ⟨kind, Utf8.ofAscii [b], offset⟩ rest
      | none => .reject (Utf8.firstChar bs) offset bs

end Scan

/-- The token at the front of the bytes, which start at `offset`, after the blanks before it. -/
def scan (bs : List UInt8) (offset : Nat) : Scan :=
  Scan.ofVisible (bs.dropWhile isBlank) (offset + (bs.takeWhile isBlank).length)

/-! ### Every token takes at least one byte -/

theorem length_dropWhile_le (p : UInt8 → Bool) (bs : List UInt8) :
    (bs.dropWhile p).length ≤ bs.length :=
  (List.dropWhile_sublist p).length_le

theorem length_dropWhile_lt {p : UInt8 → Bool} {b : UInt8} {rest : List UInt8} (h : p b = true) :
    ((b :: rest).dropWhile p).length < (b :: rest).length := by
  rw [List.dropWhile_cons_of_pos h]
  exact Nat.lt_succ_of_le (length_dropWhile_le p rest)

theorem Scan.number_shrinks {b : UInt8} {bs rest : List UInt8} {offset : Nat} {t : Token}
    (hb : isDigit b = true) (h : Scan.number (b :: bs) offset = .token t rest) :
    rest.length < (b :: bs).length := by
  have hlt : ((b :: bs).dropWhile isDigit).length < (b :: bs).length := length_dropWhile_lt hb
  revert h hlt
  rw [Scan.number]
  split
  · rename_i c more hd
    rw [hd]
    intro h hlt
    split at h
    · dsimp only at h
      split at h
      · cases h
      · cases h
        have := length_dropWhile_le isDigit more
        simp only [List.length_cons] at hlt ⊢
        omega
    · cases h
      exact hlt
  · intro h _
    cases h
    exact Nat.zero_lt_succ _

theorem Scan.ofVisible_shrinks {bs rest : List UInt8} {offset : Nat} {t : Token}
    (h : Scan.ofVisible bs offset = .token t rest) : rest.length < bs.length := by
  cases bs with
  | nil => cases h
  | cons b bs =>
    rw [Scan.ofVisible] at h
    split at h
    · exact Scan.number_shrinks (by assumption) h
    · split at h
      · cases h
        exact length_dropWhile_lt (by assumption)
      · split at h
        · cases h
          exact Nat.lt_succ_self _
        · cases h

theorem scan_shrinks {bs rest : List UInt8} {offset : Nat} {t : Token}
    (h : scan bs offset = .token t rest) : rest.length < bs.length :=
  Nat.lt_of_lt_of_le (Scan.ofVisible_shrinks h) (length_dropWhile_le _ _)

/-! ### The tokens of a text -/

/-- The tokens of a text up to its end, or up to the first character that no token contains. -/
structure Tokens where
  /-- The tokens, the end token included if it was reached. -/
  list : List Token
  /-- Why there are no more, unless the end token was reached. -/
  failure : Option LexError
deriving DecidableEq, Repr

/-- Put a token in front. -/
def Tokens.cons (t : Token) (ts : Tokens) : Tokens := ⟨t :: ts.list, ts.failure⟩

/-- The tokens of the bytes from `offset` on. -/
def tokensFrom (bs : List UInt8) (offset : Nat) : Tokens :=
  match _h : scan bs offset with
  | .token t rest => (tokensFrom rest (t.offset + t.literal.utf8ByteSize)).cons t
  | .finish stop => ⟨[⟨.ending, "", stop⟩], none⟩
  | .reject char stop _ => ⟨[], some (.unexpected char stop)⟩
termination_by bs.length
decreasing_by exact scan_shrinks (by assumption)

/-- The tokens of a text. -/
def tokens (bs : List UInt8) : Tokens := tokensFrom bs 0

/-- All tokens of a text, the end token last, or the error that stops them. -/
def tokenize (bs : List UInt8) : Except LexError (List Token) :=
  match (tokens bs).failure with
  | some e => .error e
  | none => .ok (tokens bs).list

/-! ### One token at a time -/

/-- A text that is being read. -/
structure Lexer where
  /-- The bytes not read yet. -/
  rest : List UInt8
  /-- The offset of the first of them. -/
  offset : Nat
  /-- The end token has been handed out. -/
  finished : Bool
deriving DecidableEq, Repr

namespace Lexer

/-- In front of a text. -/
def ofBytes (bs : List UInt8) : Lexer := ⟨bs, 0, false⟩

/-- In front of another text, wherever the lexer stands. -/
def reset (_ : Lexer) (bs : List UInt8) : Lexer := ofBytes bs

/-- The next token and what is left to read. -/
def next (l : Lexer) : Except LexError Token × Lexer :=
  if l.finished then (.error .exhausted, l)
  else
    match scan l.rest l.offset with
    | .token t rest => (.ok t, ⟨rest, t.offset + t.literal.utf8ByteSize, false⟩)
    | .finish stop => (.ok ⟨.ending, "", stop⟩, ⟨[], stop, true⟩)
    | .reject char stop rest => (.error (.unexpected char stop), ⟨rest, stop, false⟩)

end Lexer

end Fluxion
