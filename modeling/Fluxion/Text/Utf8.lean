/-!
# Text as bytes

Source text arrives as bytes and offsets count bytes. Here bytes are read as UTF-8 without ever
failing: a byte that starts no encoded character is kept apart as a stray byte.
-/

namespace Fluxion.Utf8

/-- The bytes of a text. -/
def bytes (s : String) : List UInt8 := s.toUTF8.toList

/-- A text whose characters are the given ASCII bytes. -/
def ofAscii (bs : List UInt8) : String := String.ofList (bs.map fun b => Char.ofNat b.toNat)

/-- The payload of a continuation byte. -/
def continuation? (b : UInt8) : Option Nat :=
  if 0x80 ≤ b && b < 0xC0 then some (b.toNat - 0x80) else none

/-- The character with code `n`, if `n` is a scalar value of at least `least`; a smaller code would
have had a shorter encoding. -/
def scalar? (least n : Nat) : Option Char :=
  if n < least then none
  else if n.isValidChar then some (Char.ofNat n)
  else none

/-- The character that the bytes start with and the number of bytes that encode it. -/
def first? : List UInt8 → Option (Char × Nat)
  | [] => none
  | b :: rest =>
    if b < 0x80 then some (Char.ofNat b.toNat, 1)
    else if 0xC0 ≤ b && b < 0xE0 then do
      let c₁ ← (rest[0]?).bind continuation?
      let c ← scalar? 0x80 ((b.toNat - 0xC0) * 64 + c₁)
      return (c, 2)
    else if 0xE0 ≤ b && b < 0xF0 then do
      let c₁ ← (rest[0]?).bind continuation?
      let c₂ ← (rest[1]?).bind continuation?
      let c ← scalar? 0x800 (((b.toNat - 0xE0) * 64 + c₁) * 64 + c₂)
      return (c, 3)
    else if 0xF0 ≤ b && b < 0xF8 then do
      let c₁ ← (rest[0]?).bind continuation?
      let c₂ ← (rest[1]?).bind continuation?
      let c₃ ← (rest[2]?).bind continuation?
      let c ← scalar? 0x10000 ((((b.toNat - 0xF0) * 64 + c₁) * 64 + c₂) * 64 + c₃)
      return (c, 4)
    else none

/-- One unit of a byte sequence read as UTF-8. -/
inductive Piece where
  /-- An encoded character. -/
  | char (c : Char)
  /-- A byte that starts no encoded character. -/
  | stray (b : UInt8)
deriving DecidableEq, Repr

/-- The pieces of a byte sequence; the first `skip` bytes belong to a character already read. -/
def piecesFrom : (skip : Nat) → List UInt8 → List Piece
  | _, [] => []
  | skip + 1, _ :: rest => piecesFrom skip rest
  | 0, b :: rest =>
    match first? (b :: rest) with
    | some (c, width) => .char c :: piecesFrom (width - 1) rest
    | none => .stray b :: piecesFrom 0 rest

/-- The pieces of a byte sequence. -/
def pieces (bs : List UInt8) : List Piece := piecesFrom 0 bs

/-- Stands for what could not be read. -/
def replacement : Char := Char.ofNat 0xFFFD

/-- The character of a piece, the replacement character for a stray byte. -/
def Piece.toChar : Piece → Char
  | .char c => c
  | .stray _ => replacement

/-- The bytes as text, with each stray byte replaced. -/
def decode (bs : List UInt8) : String := String.ofList ((pieces bs).map Piece.toChar)

/-- The character that a non-empty byte sequence starts with, replaced if there is none. -/
def firstChar (bs : List UInt8) : Char :=
  match first? bs with
  | some (c, _) => c
  | none => replacement

end Fluxion.Utf8
