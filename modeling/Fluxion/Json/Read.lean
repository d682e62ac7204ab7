import Fluxion.Json
import Fluxion.Scalar.Float
import Fluxion.Text.Utf8

/-!
# Reading JSON

`Json.read` reads one value off the front of a text and returns what follows it. A text that ends
inside a value is told apart from one that goes wrong, because more text may still arrive. Numbers stay
as they were written, since only their user knows what range they may have.
-/

namespace Fluxion

/-- A number as it was written. -/
structure NumberLiteral where
  /-- The characters of the number. -/
  text : String
  /-- It starts with a minus sign. -/
  negative : Bool
  /-- Its absolute value. -/
  value : Decimal

/-- The nearest floating point number; a number that is out of range is handed back as its text. -/
def NumberLiteral.toFloat (n : NumberLiteral) : Except String Float :=
  match FloatText.ofDecimal? n.negative n.value with
  | some v => .ok v
  | none => .error n.text

namespace Json

/-- Why no value could be read. -/
inductive ReadError where
  /-- The text ends inside the value, or before it. -/
  | truncated
  /-- The text is not JSON. -/
  | malformed
deriving DecidableEq, Repr

/-- The deepest nesting of arrays and objects that is read. -/
def maxNesting : Nat := 10000

/-- The white space of JSON. -/
def isSpace (c : Char) : Bool := c == ' ' || c == '\t' || c == '\r' || c == '\n'

/-- The text after leading white space. -/
def skipSpace (cs : List Char) : List Char := cs.dropWhile isSpace

/-- The value of a hexadecimal digit. -/
def hexDigit? (c : Char) : Option Nat :=
  if c.isDigit then some (c.toNat - '0'.toNat)
  else if 'a' ≤ c && c ≤ 'f' then some (c.toNat - 'a'.toNat + 10)
  else if 'A' ≤ c && c ≤ 'F' then some (c.toNat - 'A'.toNat + 10)
  else none

/-- The number that four hexadecimal digits denote. -/
def hex4? (a b c d : Char) : Option Nat := do
  return (((← hexDigit? a) * 16 + (← hexDigit? b)) * 16 + (← hexDigit? c)) * 16 + (← hexDigit? d)

/-- Read a fixed word, of which the first character is known to match. -/
def readWord (value : Json NumberLiteral) :
    (word : List Char) → List Char → Except ReadError (Json NumberLiteral × List Char)
  | [], rest => .ok (value, rest)
  | _ :: _, [] => .error .truncated
  | w :: ws, c :: rest => if w == c then readWord value ws rest else .error .malformed

/-- A unit of a string before surrogates are combined. -/
def isHighSurrogate (n : Nat) : Bool := 0xD800 ≤ n && n < 0xDC00

/-- The second half of a surrogate pair. -/
def isLowSurrogate (n : Nat) : Bool := 0xDC00 ≤ n && n < 0xE000

/-- Combine the code units that escapes denote: a surrogate pair is one character, and a surrogate on
its own is replaced. -/
def combineUnits : List Nat → List Char
  | [] => []
  | u :: v :: rest =>
    if isHighSurrogate u && isLowSurrogate v then
      Char.ofNat (0x10000 + (u - 0xD800) * 0x400 + (v - 0xDC00)) :: combineUnits rest
    else unitChar u :: combineUnits (v :: rest)
  | [u] => [unitChar u]
where
  /-- The character of a single unit. -/
  unitChar (u : Nat) : Char :=
    if isHighSurrogate u || isLowSurrogate u then Utf8.replacement else Char.ofNat u

/-- The characters of a string after its opening quote. `units` holds, in reverse, the code units of
the escapes that directly precede. -/
def readString (acc : List Char) (units : List Nat) :
    List Char → Except ReadError (String × List Char)
  | [] => .error .truncated
  | '"' :: rest => .ok (String.ofList (flush acc units).reverse, rest)
  | '\\' :: 'u' :: rest =>
    match rest with
    | a :: b :: c :: d :: rest =>
      match hex4? a b c d with
      | some n => readString acc (n :: units) rest
      | none => .error .malformed
    | partialDigits =>
      if partialDigits.all fun c => (hexDigit? c).isSome then .error .truncated
      else .error .malformed
  | ['\\'] => .error .truncated
  | '\\' :: e :: rest =>
    match escape? e with
    | some c => readString (c :: flush acc units) [] rest
    | none => .error .malformed
  | c :: rest =>
    if c.toNat < 0x20 then .error .malformed else readString (c :: flush acc units) [] rest
where
  /-- Append the characters of pending code units. -/
  flush (acc : List Char) (units : List Nat) : List Char :=
    (combineUnits units.reverse).reverse ++ acc
  /-- The character that a letter after a backslash denotes. -/
  escape? (e : Char) : Option Char :=
    match e with
    | '"' => some '"'
    | '\\' => some '\\'
    | '/' => some '/'
    | 'b' => some (Char.ofNat 8)
    | 'f' => some (Char.ofNat 12)
    | 'n' => some '\n'
    | 'r' => some '\r'
    | 't' => some '\t'
    | _ => none

/-- A non-empty run of digits and what follows. -/
def readDigits (cs : List Char) : Except ReadError (List Char × List Char) :=
  match cs with
  | [] => .error .truncated
  | c :: _ =>
    if c.isDigit then .ok (cs.takeWhile Char.isDigit, cs.dropWhile Char.isDigit)
    else .error .malformed

/-- The digits before the point: a single zero or a run that starts with another digit. -/
def readWhole (cs : List Char) : Except ReadError (List Char × List Char) :=
  match cs with
  | '0' :: rest => .ok (['0'], rest)
  | cs => readDigits cs

/-- The digits after the point, with the point; nothing if there is no point. -/
def readFraction (cs : List Char) : Except ReadError (List Char × List Char) :=
  match cs with
  | '.' :: rest => do
    let (digits, rest) ← readDigits rest
    return (digits, rest)
  | cs => .ok ([], cs)

/-- The exponent with its mark and sign as text, and its value. -/
def readExponent (cs : List Char) : Except ReadError (List Char × Int × List Char) :=
  match cs with
  | c :: rest =>
    if c == 'e' || c == 'E' then
      let (sign, rest) :=
        match rest with
        | '-' :: rest => (['-'], rest)
        | '+' :: rest => (['+'], rest)
        | rest => ([], rest)
      do
        let (digits, rest) ← readDigits rest
        let n : Int := Nat.ofDigitChars 10 digits 0
        return (c :: sign ++ digits, if sign == ['-'] then -n else n, rest)
    else .ok ([], 0, cs)
  | [] => .ok ([], 0, [])

/-- A number without its sign. -/
def readNumber (negative : Bool) (cs : List Char) :
    Except ReadError (Json NumberLiteral × List Char) := do
  let (whole, rest) ← readWhole cs
  let (fraction, rest) ← readFraction rest
  let (mark, exponent, rest) ← readExponent rest
  let sign := if negative then ['-'] else []
  let point := if fraction.isEmpty then [] else ['.']
  let text := String.ofList (sign ++ whole ++ point ++ fraction ++ mark)
  let digits := Nat.ofDigitChars 10 (whole ++ fraction) 0
  return (.num ⟨text, negative, ⟨digits, exponent - fraction.length⟩⟩, rest)

mutual

/-- Read a value inside `depth` arrays and objects. -/
def readValue : (fuel depth : Nat) → List Char →
    Except ReadError (Json NumberLiteral × List Char)
  | 0, _, _ => .error .malformed
  | fuel + 1, depth, cs =>
    match skipSpace cs with
    | [] => .error .truncated
    | '\x7b' :: rest =>
      if maxNesting ≤ depth then .error .malformed
      else
        match skipSpace rest with
        | '\x7d' :: rest => .ok (.obj [], rest)
        | rest => readFields fuel (depth + 1) [] rest
    | '[' :: rest =>
      if maxNesting ≤ depth then .error .malformed
      else
        match skipSpace rest with
        | ']' :: rest => .ok (.arr [], rest)
        | rest => readItems fuel (depth + 1) [] rest
    | '"' :: rest => (readString [] [] rest).map fun (s, rest) => (.str s, rest)
    | 't' :: rest => readWord (.bool true) ['r', 'u', 'e'] rest
    | 'f' :: rest => readWord (.bool false) ['a', 'l', 's', 'e'] rest
    | 'n' :: rest => readWord .null ['u', 'l', 'l'] rest
    | '-' :: rest => readNumber true rest
    | c :: rest => if c.isDigit then readNumber false (c :: rest) else .error .malformed

/-- Read the items of an array from the next one on; `acc` holds the earlier ones in reverse. -/
def readItems : (fuel depth : Nat) → (acc : List (Json NumberLiteral)) → List Char →
    Except ReadError (Json NumberLiteral × List Char)
  | 0, _, _, _ => .error .malformed
  | fuel + 1, depth, acc, cs => do
    let (j, rest) ← readValue fuel depth cs
    match skipSpace rest with
    | [] => .error .truncated
    | ']' :: rest => return (.arr (j :: acc).reverse, rest)
    | ',' :: rest => readItems fuel depth (j :: acc) rest
    | _ => .error .malformed

/-- Read the fields of an object from the next one on; `acc` holds the earlier ones in reverse. -/
def readFields : (fuel depth : Nat) → (acc : List (String × Json NumberLiteral)) → List Char →
    Except ReadError (Json NumberLiteral × List Char)
  | 0, _, _, _ => .error .malformed
  | fuel + 1, depth, acc, cs =>
    match skipSpace cs with
    | [] => .error .truncated
    | '"' :: rest => do
      let (name, rest) ← readString [] [] rest
      match skipSpace rest with
      | [] => .error .truncated
      | ':' :: rest =>
        let (j, rest) ← readValue fuel depth rest
        match skipSpace rest with
        | [] => .error .truncated
        | '\x7d' :: rest => return (.obj ((name, j) :: acc).reverse, rest)
        | ',' :: rest => readFields fuel depth ((name, j) :: acc) rest
        | _ => .error .malformed
      | _ => .error .malformed
    | _ => .error .malformed

end

/-- Read one value off the front of a text. Every step takes a character, so that the length of the
text bounds their number. -/
def read (cs : List Char) : Except ReadError (Json NumberLiteral × List Char) :=
  readValue (2 * cs.length + 2) 0 cs

/-- Read a text that is one value with white space around it. -/
def readAll (s : String) : Except ReadError (Json NumberLiteral) := do
  let (j, rest) ← read s.toList
  if (skipSpace rest).isEmpty then return j else .error .malformed

end Json

end Fluxion
