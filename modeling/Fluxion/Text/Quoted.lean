import Fluxion.Text.Utf8
import Fluxion.Text.Printable

/-!
# Quoted text

Messages quote the texts they speak about. Printable characters stay, the quote and the backslash get
a backslash, and everything else becomes an escape: a letter for the usual control characters, two
hexadecimal digits for a single byte, four or eight for a code point.
-/

namespace Fluxion.Text

/-- The hexadecimal digits of `n`, at least `width` of them. -/
def hex (width n : Nat) : String :=
  let digits := Nat.toDigits 16 n
  String.ofList (List.replicate (width - digits.length) '0' ++ digits)

/-- The letter that names a control character after a backslash. -/
def escapeLetter? (c : Char) : Option Char :=
  match c.toNat with
  | 7 => some 'a'
  | 8 => some 'b'
  | 9 => some 't'
  | 10 => some 'n'
  | 11 => some 'v'
  | 12 => some 'f'
  | 13 => some 'r'
  | _ => none

/-- A character as it stands between two marks `quote`. -/
def escapeChar (quote : Char) (c : Char) : String :=
  if c == quote || c == '\\' then String.ofList ['\\', c]
  else if isPrintable c then String.singleton c
  else
    match escapeLetter? c with
    | some letter => String.ofList ['\\', letter]
    | none =>
      if c.toNat < 0x80 then "\\x" ++ hex 2 c.toNat
      else if c.toNat < 0x10000 then "\\u" ++ hex 4 c.toNat
      else "\\U" ++ hex 8 c.toNat

/-- A piece of a byte sequence between double quotes. -/
def escapePiece : Utf8.Piece → String
  | .char c => escapeChar '"' c
  | .stray b => "\\x" ++ hex 2 b.toNat

/-- The concatenation of texts. -/
def concat (parts : List String) : String := parts.foldl (· ++ ·) ""

/-- Bytes in double quotes. -/
def quoteBytes (bs : List UInt8) : String :=
  "\"" ++ concat ((Utf8.pieces bs).map escapePiece) ++ "\""

/-- A text in double quotes. -/
def quote (s : String) : String := "\"" ++ concat (s.toList.map (escapeChar '"')) ++ "\""

/-- A character in single quotes. -/
def quoteChar (c : Char) : String := "'" ++ escapeChar '\'' c ++ "'"

/-- The marks `‹` and `›` are reserved: inside a message they become question marks. -/
def unmark (s : String) : String :=
  s.map fun c => if c.toNat == 0x2039 || c.toNat == 0x203A then '?' else c

end Fluxion.Text
