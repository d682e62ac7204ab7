import Fluxion.Decimal
import Fluxion.Text.Quoted

/-!
# Durations

Spans of time in nanoseconds, written as numbers with units such as `1h30m` or `1.5ms`.
-/

namespace Fluxion

/-- A span of time. -/
structure Duration where
  /-- Its length in nanoseconds. -/
  nanoseconds : Int
deriving DecidableEq, Repr, Inhabited

namespace Duration

/-- A number of seconds. -/
def ofSeconds (n : Int) : Duration := ⟨n * 1000000000⟩

/-! ### Writing -/

/-- `n` in units of `10 ^ places`, with the fraction that is left and without trailing zeros. -/
def renderFraction (n places : Nat) : String :=
  if n == 0 then "0" else ((⟨n, -(places : Int)⟩ : Decimal).trim places).positional

/-- The text of a span that is not negative. Below a second one smaller unit is used, above it hours,
minutes and seconds. -/
def renderNat (n : Nat) : String :=
  if n == 0 then "0s"
  else if n < 1000 then toString n ++ "ns"
  else if n < 1000000 then renderFraction n 3 ++ "µs"
  else if n < 1000000000 then renderFraction n 6 ++ "ms"
  else
    let minutes := n / 60000000000
    let seconds := renderFraction (n % 60000000000) 9 ++ "s"
    if minutes == 0 then seconds
    else if minutes < 60 then toString minutes ++ "m" ++ seconds
    else toString (minutes / 60) ++ "h" ++ toString (minutes % 60) ++ "m" ++ seconds

/-- The text of a span. -/
def render (d : Duration) : String :=
  if d.nanoseconds < 0 then "-" ++ renderNat d.nanoseconds.natAbs
  else renderNat d.nanoseconds.natAbs

/-! ### Reading -/

/-- Why a text is not a duration. -/
inductive ReadError where
  /-- It does not have the form of a duration, or is too long. -/
  | invalid
  /-- A number has no unit. -/
  | missingUnit
  /-- A number has a unit that is not known. -/
  | unknownUnit (unit : String)
deriving DecidableEq, Repr

/-- A character inside the quotes of an error about durations: what is not ASCII, or below the space,
is written byte by byte. -/
def escapeChar (c : Char) : String :=
  if c.toNat < 0x20 || 0x80 ≤ c.toNat then
    Text.concat ((Utf8.bytes (String.singleton c)).map fun b => "\\x" ++ Text.hex 2 b.toNat)
  else if c == '"' || c == '\\' then String.ofList ['\\', c]
  else String.singleton c

/-- A text in double quotes. -/
def quote (s : String) : String := "\"" ++ Text.concat (s.toList.map escapeChar) ++ "\""

/-- The text of the error for the given input. -/
def ReadError.message (input : String) : ReadError → String
  | invalid => "time: invalid duration " ++ quote input
  | missingUnit => "time: missing unit in duration " ++ quote input
  | unknownUnit unit => "time: unknown unit " ++ quote unit ++ " in duration " ++ quote input

/-- The length of a unit in nanoseconds. -/
def unit? (name : String) : Option Nat :=
  match name with
  | "ns" => some 1
  | "us" => some 1000
  | "µs" => some 1000
  | "μs" => some 1000
  | "ms" => some 1000000
  | "s" => some 1000000000
  | "m" => some 60000000000
  | "h" => some 3600000000000
  | _ => none

/-- The greatest length that is represented, one more for negative spans. -/
def limit : Nat := Nat.pow 2 63

/-- The whole number that digits denote, unless it exceeds the limit. -/
def wholeNumber (digits : List Char) : Except ReadError Nat :=
  let n := Nat.ofDigitChars 10 digits 0
  if limit < n then .error .invalid else .ok n

/-- Digits after a point as a number and the power of ten that divides it. Digits that the limit leaves
no room for are ignored. -/
def fractionNumber (n scale : Nat) : List Char → Nat × Nat
  | [] => (n, scale)
  | c :: rest =>
    let next := n * 10 + (c.toNat - '0'.toNat)
    if (limit - 1) / 10 < n || limit < next then (n, scale)
    else fractionNumber next (scale * 10) rest

/-- A fraction of a unit in nanoseconds, rounded down after one floating point product. -/
def fractionPart (n scale unit : Nat) : Nat :=
  (Float.ofNat n * (Float.ofNat unit / Float.ofNat scale)).toUInt64.toNat

/-- Digits and points are what numbers are made of. -/
def isNumeric (c : Char) : Bool := c.isDigit || c == '.'

/-- The digits after a point and the rest; no digits if there is no point. -/
def splitFraction : List Char → List Char × List Char
  | '.' :: rest => (rest.takeWhile Char.isDigit, rest.dropWhile Char.isDigit)
  | cs => ([], cs)

/-- Read numbers with units and add them to `total`. Every round takes at least one character. -/
def readParts : (fuel : Nat) → (total : Nat) → List Char → Except ReadError Nat
  | 0, _, _ => .error .invalid
  | _ + 1, total, [] => .ok total
  | fuel + 1, total, c :: cs =>
    if isNumeric c then do
      let digits := (c :: cs).takeWhile Char.isDigit
      let whole ← wholeNumber digits
      let (fraction, rest) := splitFraction ((c :: cs).dropWhile Char.isDigit)
      if digits.isEmpty && fraction.isEmpty then .error .invalid
      else
        let name := String.ofList (rest.takeWhile fun c => !isNumeric c)
        if name.isEmpty then .error .missingUnit
        else
          match unit? name with
          | none => .error (.unknownUnit name)
          | some unit =>
            let (n, scale) := fractionNumber 0 1 fraction
            let part := whole * unit + if n == 0 then 0 else fractionPart n scale unit
            if limit / unit < whole || limit < part || limit < total + part then
              .error .invalid
            else readParts fuel (total + part) (rest.dropWhile fun c => !isNumeric c)
    else .error .invalid

/-- Read a span without its sign. -/
def readUnsigned (negative : Bool) (cs : List Char) : Except ReadError Duration :=
  if cs == ['0'] then .ok ⟨0⟩
  else if cs.isEmpty then .error .invalid
  else do
    let n ← readParts (cs.length + 1) 0 cs
    if negative then return ⟨-(n : Int)⟩
    else if limit ≤ n then .error .invalid
    else return ⟨n⟩

/-- The span that a text denotes. -/
def read (s : String) : Except ReadError Duration :=
  match s.toList with
  | '-' :: cs => readUnsigned true cs
  | '+' :: cs => readUnsigned false cs
  | cs => readUnsigned false cs

/-- The complaint about a text that is not a duration. -/
def complaint (input : String) (e : ReadError) : String :=
  "invalid duration " ++ Text.unmark (Text.quote input) ++ ": " ++ e.message input

end Duration

end Fluxion
