import Fluxion.Text.Quoted

/-!
# Integers as text

Integers are written in decimal, or in another base announced by `0b`, `0o`, `0x` or a leading zero.
Underscores may stand between digits. The value has to fit into 64 bits.
-/

namespace Fluxion.Integer

/-- Why a text is not an integer. -/
inductive ReadError where
  /-- It does not have the form of an integer. -/
  | invalid
  /-- It does not fit into 64 bits. -/
  | range
deriving DecidableEq, Repr

/-- The text of the error for the given input. -/
def ReadError.message (input : String) : ReadError → String
  | invalid => "strconv.ParseInt: parsing " ++ Text.quote input ++ ": invalid syntax"
  | range => "strconv.ParseInt: parsing " ++ Text.quote input ++ ": value out of range"

/-- The value of a digit in any base up to thirty-six. -/
def digit? (c : Char) : Option Nat :=
  if c.isDigit then some (c.toNat - '0'.toNat)
  else if c.isLower then some (c.toNat - 'a'.toNat + 10)
  else if c.isUpper then some (c.toNat - 'A'.toNat + 10)
  else none

/-- The digits of a number with the base that its beginning announces. -/
def splitBase : List Char → Nat × List Char
  | '0' :: b :: c :: rest =>
    match b.toLower with
    | 'b' => (2, c :: rest)
    | 'o' => (8, c :: rest)
    | 'x' => (16, c :: rest)
    | _ => (8, b :: c :: rest)
  | '0' :: rest => (8, rest)
  | cs => (10, cs)

/-- Read digits; the first one that is wrong, or that makes the number too large, decides. -/
def readDigits (base : Nat) (n : Nat) : List Char → Except ReadError Nat
  | [] => .ok n
  | '_' :: rest => readDigits base n rest
  | c :: rest =>
    match digit? c with
    | none => .error .invalid
    | some d =>
      if base ≤ d then .error .invalid
      else if Nat.pow 2 64 ≤ n * base + d then .error .range
      else readDigits base (n * base + d) rest

/-- What stands before a character in the check of underscores. -/
inductive Previous where
  | start
  | digit
  | underscore
  | other
deriving DecidableEq

/-- Every underscore has a digit, or the announcement of the base, before it and a digit after it. -/
def underscoresFit (hex : Bool) (previous : Previous) : List Char → Bool
  | [] => previous != .underscore
  | c :: rest =>
    if c.isDigit || (hex && 'a' ≤ c.toLower && c.toLower ≤ 'f') then underscoresFit hex .digit rest
    else if c == '_' then previous == .digit && underscoresFit hex .underscore rest
    else previous != .underscore && underscoresFit hex .other rest

/-- The underscores of a number without its sign are where they may be. -/
def underscoresOk : List Char → Bool
  | '0' :: b :: rest =>
    match b.toLower with
    | 'b' => underscoresFit false .digit rest
    | 'o' => underscoresFit false .digit rest
    | 'x' => underscoresFit true .digit rest
    | _ => underscoresFit false .start ('0' :: b :: rest)
  | cs => underscoresFit false .start cs

/-- The absolute value of a number without its sign. -/
def readUnsigned (cs : List Char) : Except ReadError Nat := do
  let (base, digits) := splitBase cs
  let n ← readDigits base 0 digits
  if cs.contains '_' && !underscoresOk cs then .error .invalid else return n

/-- The integer that a text denotes. -/
def read (s : String) : Except ReadError Int := do
  let (negative, digits) :=
    match s.toList with
    | '-' :: cs => (true, cs)
    | '+' :: cs => (false, cs)
    | cs => (false, cs)
  if digits.isEmpty then .error .invalid
  else
    let n ← readUnsigned digits
    if negative then
      if Nat.pow 2 63 < n then .error .range else return -(n : Int)
    else if Nat.pow 2 63 ≤ n then .error .range
    else return n

end Fluxion.Integer
