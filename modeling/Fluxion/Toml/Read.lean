import Fluxion.Integer
import Fluxion.Json.Read
import Fluxion.Toml

/-!
# Reading TOML

The statements of a document, one to a line. Only well-formed text is read; what is wrong with any other
text is not reported.
-/

namespace Fluxion.Toml

/-! ### Characters -/

/-- A space or a tabulator. -/
def isSpace (c : Char) : Bool := c == ' ' || c == '\t'

/-- A space, a tabulator or the end of a line. -/
def isGap (c : Char) : Bool := isSpace c || c == '\n' || c == '\r'

/-- A control character other than a tabulator or the end of a line. -/
def isControl (c : Char) : Bool :=
  (c.toNat < 0x20 && c != '\t' && c != '\n' && c != '\r') || c.toNat == 0x7F

/-- The text has no forbidden control characters and nothing that stands for a broken encoding, and
every carriage return belongs to a line end. -/
def isClean : List Char → Bool
  | [] => true
  | '\r' :: rest => rest.head? == some '\n' && isClean rest
  | c :: rest => !isControl c && c != Utf8.replacement && isClean rest

/-- The text after leading spaces. -/
def skipSpace (cs : List Char) : List Char := cs.dropWhile isSpace

/-- The text after a comment, if there is one. -/
def skipComment : List Char → List Char
  | '#' :: rest => rest.dropWhile (· != '\n')
  | cs => cs

/-- The text after gaps and comments. -/
def skipGaps (cs : List Char) : List Char :=
  go false cs
where
  /-- `inComment` holds from a hash mark to the end of its line. -/
  go (inComment : Bool) : List Char → List Char
    | [] => []
    | c :: rest =>
      if inComment then go (c != '\n') rest
      else if isGap c then go false rest
      else if c == '#' then go true rest
      else c :: rest

/-- The text after spaces, a comment and the end of the line. -/
def endLine (cs : List Char) : Option (List Char) :=
  match skipComment (skipSpace cs) with
  | [] => some []
  | '\n' :: rest => some rest
  | '\r' :: rest => some rest
  | _ => none

/-! ### Strings -/

/-- The character with the code that hexadecimal digits denote. -/
def unicode? (digits : List Char) : Option Char := do
  let values ← digits.mapM Json.hexDigit?
  Utf8.scalar? 0 (values.foldl (fun n d => n * 16 + d) 0)

/-- The character that a letter after a backslash denotes. -/
def escape? (c : Char) : Option Char :=
  match c with
  | 'b' => some (Char.ofNat 8)
  | 't' => some '\t'
  | 'n' => some '\n'
  | 'f' => some (Char.ofNat 12)
  | 'r' => some '\r'
  | '"' => some '"'
  | '\\' => some '\\'
  | _ => none

/-- The text with its escapes carried out; `acc` holds what was read in reverse. -/
def unescape (acc : List Char) : List Char → Option (List Char)
  | [] => some acc.reverse
  | '\\' :: 'u' :: a :: b :: c :: d :: rest =>
    match unicode? [a, b, c, d] with
    | some u => unescape (u :: acc) rest
    | none => none
  | '\\' :: 'U' :: a :: b :: c :: d :: e :: f :: g :: h :: rest =>
    match unicode? [a, b, c, d, e, f, g, h] with
    | some u => unescape (u :: acc) rest
    | none => none
  | '\\' :: c :: rest =>
    match escape? c with
    | some u => unescape (u :: acc) rest
    | none => none
  | c :: rest => if c == '\\' then none else unescape (c :: acc) rest

/-- The text between a quote and the next one that is not escaped, with its escapes as they are written,
and the rest; `acc` holds what was read in reverse. -/
def scanBasic (acc : List Char) : List Char → Option (List Char × List Char)
  | [] => none
  | '"' :: rest => some (acc.reverse, rest)
  | '\\' :: c :: rest => if c == '\n' || c == '\r' then none else scanBasic (c :: '\\' :: acc) rest
  | c :: rest => if c == '\n' || c == '\r' then none else scanBasic (c :: acc) rest

/-- A string on one line after its opening quote. -/
def readBasic (cs : List Char) : Option (String × List Char) := do
  let (body, rest) ← scanBasic [] cs
  return (String.ofList (← unescape [] body), rest)

/-- A string without escapes after its opening quote. -/
def readLiteral (cs : List Char) : Option (String × List Char) :=
  let body := cs.takeWhile (· != '\'')
  match cs.dropWhile (· != '\'') with
  | _ :: rest =>
    if body.any fun c => c == '\n' || c == '\r' then none else some (String.ofList body, rest)
  | [] => none

/-- The text without the line end that directly follows the opening quotes. -/
def dropFirstLineEnd : List Char → List Char
  | '\n' :: rest => rest
  | '\r' :: '\n' :: rest => rest
  | cs => cs

/-- The text between three quotes and the next three, with its escapes as they are written, and the rest;
`acc` holds what was read in reverse. Two quotes may directly precede the closing ones, and three after an
escaped backslash. -/
def scanBlock (acc : List Char) : List Char → Option (List Char × List Char)
  | [] => none
  | '"' :: '"' :: '"' :: rest =>
    let limit := if acc.head? == some '\\' then 3 else 2
    let inner := (rest.takeWhile (· == '"')).take limit
    some ((inner ++ acc).reverse, rest.drop inner.length)
  | '\\' :: c :: rest => scanBlock (c :: '\\' :: acc) rest
  | c :: rest => scanBlock (c :: acc) rest

/-- Every backslash starts an escape or precedes a space or a line end. -/
def escapesOk : List Char → Bool
  | [] => true
  | '\\' :: 'u' :: a :: b :: c :: d :: rest =>
    [a, b, c, d].all (fun x => (Json.hexDigit? x).isSome) && escapesOk rest
  | '\\' :: 'U' :: a :: b :: c :: d :: e :: f :: g :: h :: rest =>
    [a, b, c, d, e, f, g, h].all (fun x => (Json.hexDigit? x).isSome) && escapesOk rest
  | '\\' :: c :: rest => ((escape? c).isSome || isGap c) && escapesOk rest
  | c :: rest => c != '\\' && escapesOk rest

/-- A space, a tabulator or a carriage return. -/
def isBlank (c : Char) : Bool := isSpace c || c == '\r'

/-- The text without the longest end that consists of certain characters. -/
def dropEnd (p : Char → Bool) (cs : List Char) : List Char := (cs.reverse.dropWhile p).reverse

/-- Put the lines of a string together. A backslash at the end of a line that is not escaped itself
vanishes together with the line end and the blanks around it. From there on lines are joined without line
ends (`joined`), until one ends with an escaped backslash; such a line keeps its blanks and always has a
line end. `continued` holds for a line directly after a backslash. The last line must not end with one. -/
def joinLines (joined continued : Bool) : List (List Char) → Option (List Char)
  | [] => some []
  | line :: rest =>
    let line := if continued then line.dropWhile isBlank else line
    let visible := dropEnd isBlank line
    let slashes := (visible.reverse.takeWhile (· == '\\')).length
    if slashes == 0 then
      let lineEnd := if joined || rest.isEmpty then [] else ['\n']
      (joinLines joined false rest).map fun more => dropEnd (· == '\r') line ++ lineEnd ++ more
    else if slashes % 2 == 0 then
      (joinLines false false rest).map fun more => line ++ '\n' :: more
    else if rest.isEmpty then none
    else
      let kept := if joined then visible.dropWhile isBlank else visible
      (joinLines true true rest).map fun more => kept.dropLast ++ more

/-- A string over several lines after its opening quotes. -/
def readBlock (cs : List Char) : Option (String × List Char) := do
  let (body, rest) ← scanBlock [] cs
  if escapesOk body then
    let joined ← joinLines false false (body.splitOn '\n')
    return (String.ofList (← unescape [] (dropFirstLineEnd joined)), rest)
  else none

/-- A string over several lines without escapes after its opening quotes. -/
def readLiteralBlock (acc : List Char) : List Char → Option (String × List Char)
  | [] => none
  | '\'' :: '\'' :: '\'' :: '\'' :: '\'' :: rest =>
    some (String.ofList ('\'' :: '\'' :: acc).reverse, rest)
  | '\'' :: '\'' :: '\'' :: '\'' :: rest => some (String.ofList ('\'' :: acc).reverse, rest)
  | '\'' :: '\'' :: '\'' :: rest => some (String.ofList acc.reverse, rest)
  | c :: rest => readLiteralBlock (c :: acc) rest

/-! ### Keys -/

/-- One part of a key. -/
def readName (cs : List Char) : Option (String × List Char) :=
  match skipSpace cs with
  | '"' :: rest => readBasic rest
  | '\'' :: rest => readLiteral rest
  | cs =>
    let name := cs.takeWhile isBareChar
    if name.isEmpty then none else some (String.ofList name, cs.dropWhile isBareChar)

/-- A key with dots between its parts, up to what follows it. -/
def readKey : (fuel : Nat) → List Char → Option (Key × List Char)
  | 0, _ => none
  | fuel + 1, cs => do
    let (name, rest) ← readName cs
    match skipSpace rest with
    | '.' :: rest =>
      let (key, rest) ← readKey fuel rest
      return (name :: key, rest)
    | rest => return ([name], rest)

/-! ### Numbers and dates -/

/-- Every underscore stands between two digits of any base. -/
def underscoresOk (cs : List Char) : Bool :=
  fit false cs
where
  /-- `accept` tells whether the character before was a digit. -/
  fit (accept : Bool) : List Char → Bool
    | [] => accept
    | '_' :: rest => accept && fit false rest
    | c :: rest => fit (Json.hexDigit? c).isSome rest

/-- The digits start with a zero that should not be there. -/
def hasLeadingZero : List Char → Bool
  | '0' :: c :: _ => !(c == 'b' || c == 'o' || c == 'x')
  | '-' :: '0' :: _ :: _ => true
  | '+' :: '0' :: _ :: _ => true
  | _ => false

/-- An integer. -/
def integer? (cs : List Char) : Option Value :=
  if underscoresOk cs && !hasLeadingZero cs then
    match Integer.read (String.ofList cs) with
    | .ok n => some (.int n)
    | .error _ => none
  else none

/-- The text without a plus sign in front. -/
def withoutPlus : List Char → List Char
  | '+' :: rest => rest
  | cs => cs

/-- The parts of a number between point and exponent mark. -/
def floatParts (cs : List Char) : List (List Char) :=
  cs.splitBy fun a b => !(isMark a || isMark b)
where
  /-- A point or the mark of an exponent. -/
  isMark (c : Char) : Bool := c == '.' || c == 'e' || c == 'E'

/-- A number with a fraction or an exponent. -/
def float? (cs : List Char) : Option Value :=
  let parts := floatParts cs
  let digitsOk := parts.all fun p => !p.contains '_' || underscoresOk p
  let zerosOk := !hasLeadingZero (parts.headD [])
  if digitsOk && zerosOk then
    match Json.readAll (String.ofList ((withoutPlus cs).filter (· != '_'))) with
    | .ok (.num n) =>
      match n.toFloat with
      | .ok _ => some .float
      | .error _ => none
    | _ => none
  else none

/-- The number that exactly `width` digits denote. -/
def fixedNumber? (width : Nat) (cs : List Char) : Option Nat :=
  if cs.length == width && cs.all Char.isDigit then some (Nat.ofDigitChars 10 cs 0) else none

/-- The number of days in a month. -/
def daysIn (year month : Nat) : Nat :=
  if month == 2 then
    if year % 4 == 0 && (year % 100 != 0 || year % 400 == 0) then 29 else 28
  else if month == 4 || month == 6 || month == 9 || month == 11 then 30
  else 31

/-- A date such as `1979-05-27`. -/
def isDate (cs : List Char) : Bool :=
  match cs.splitOn '-' with
  | [y, m, d] =>
    match fixedNumber? 4 y, fixedNumber? 2 m, fixedNumber? 2 d with
    | some y, some m, some d => 1 ≤ m && m ≤ 12 && 1 ≤ d && d ≤ daysIn y m
    | _, _, _ => false
  | _ => false

/-- A time of day such as `07:32:00.999`; the hour may have one digit. -/
def isTime (cs : List Char) : Bool :=
  let clock := cs.takeWhile (· != '.')
  let fraction := cs.dropWhile (· != '.')
  let fractionOk := fraction.isEmpty || (1 < fraction.length && (fraction.drop 1).all Char.isDigit)
  match clock.splitOn ':' with
  | [h, m, s] =>
    match fixedNumber? 1 h <|> fixedNumber? 2 h, fixedNumber? 2 m, fixedNumber? 2 s with
    | some h, some m, some s => fractionOk && h < 24 && m < 60 && s < 60
    | _, _, _ => false
  | _ => false

/-- A distance from universal time such as `Z` or `+02:00`. -/
def isOffset (cs : List Char) : Bool :=
  match cs with
  | [] => true
  | ['Z'] => true
  | sign :: rest =>
    (sign == '+' || sign == '-') &&
      match rest.splitOn ':' with
      | [h, m] =>
        match fixedNumber? 2 h, fixedNumber? 2 m with
        | some h, some m => h ≤ 24 && m ≤ 60
        | _, _ => false
      | _ => false

/-- A date, a time of day, or both with an optional distance from universal time. -/
def datetime? (cs : List Char) : Option Value :=
  let cs := cs.map fun c => if c == 't' || c == ' ' then 'T' else if c == 'z' then 'Z' else c
  let date := cs.takeWhile (· != 'T')
  let time := (cs.dropWhile (· != 'T')).drop 1
  let isClock (c : Char) : Bool := c.isDigit || c == ':' || c == '.'
  let valid :=
    if cs.contains 'T' then
      isDate date && isTime (time.takeWhile isClock) && isOffset (time.dropWhile isClock)
    else isDate cs || isTime cs
  if valid then some .datetime else none

/-- A character of a number without sign or date. -/
def isDateChar (c : Char) : Bool :=
  c.isDigit || c == '-' || c == ':' || c == 'T' || c == 't' || c == ' ' || c == '.' ||
    c == 'Z' || c == 'z' || c == '+'

/-- A character that continues a number with a fraction or an exponent. -/
def isFloatChar (c : Char) : Bool :=
  c.isDigit || c == '_' || c == '.' || c == '-' || c == '+' || c == 'e' || c == 'E'

/-- Digits and underscores. -/
def isDecimalChar (c : Char) : Bool := c.isDigit || c == '_'

/-- A number, or a date if it has no sign and does not start with a lone zero. -/
def readNumber (signed : Bool) (sign cs : List Char) : Option (Value × List Char) :=
  let digits := cs.takeWhile isDecimalChar
  let rest := cs.dropWhile isDecimalChar
  let based : Option (Char → Bool) :=
    match cs with
    | '0' :: 'b' :: _ => some fun c => c == '0' || c == '1' || c == '_'
    | '0' :: 'o' :: _ => some fun c => ('0' ≤ c && c ≤ '7') || c == '_'
    | '0' :: 'x' :: _ => some fun c => (Json.hexDigit? c).isSome || c == '_'
    | _ => none
  match based with
  | some isBased =>
    if signed then none
    else
      let body := (cs.drop 2).takeWhile isBased
      if body.isEmpty || body.head? == some '_' then none
      else (integer? (cs.take 2 ++ body)).map fun v => (v, (cs.drop 2).dropWhile isBased)
  | none =>
    match rest with
    | c :: _ =>
      if c == '.' || c == 'e' || c == 'E' then
        (float? (sign ++ cs.takeWhile isFloatChar)).map fun v => (v, cs.dropWhile isFloatChar)
      else if (c == '-' || c == ':') && !signed && !digits.contains '_' && digits != ['0'] then
        (datetime? (dropEnd isSpace (cs.takeWhile isDateChar))).map fun v => (v, cs.dropWhile isDateChar)
      else (integer? (sign ++ digits)).map fun v => (v, rest)
    | [] => (integer? (sign ++ digits)).map fun v => (v, [])

/-- Infinity or not a number after an optional sign. -/
def readSpecial : List Char → Option (Value × List Char)
  | 'i' :: 'n' :: 'f' :: rest => some (.float, rest)
  | 'n' :: 'a' :: 'n' :: rest => some (.float, rest)
  | _ => none

/-- A truth value. -/
def readBool (cs : List Char) : Option (Value × List Char) :=
  let word := String.ofList (cs.takeWhile Char.isAlpha)
  let rest := cs.dropWhile Char.isAlpha
  if word == "true" then some (.bool true, rest)
  else if word == "false" then some (.bool false, rest)
  else none

/-- A number after its sign. -/
def readSigned (sign : Char) (cs : List Char) : Option (Value × List Char) :=
  match readSpecial cs with
  | some r => some r
  | none =>
    match cs with
    | c :: _ => if c.isDigit then readNumber true [sign] cs else none
    | [] => none

/-! ### Values and statements -/

mutual

/-- A value. -/
def readValue : (fuel : Nat) → List Char → Option (Value × List Char)
  | 0, _ => none
  | fuel + 1, cs =>
    match skipSpace cs with
    | '"' :: '"' :: '"' :: rest =>
      (readBlock rest).map fun (s, rest) => (.str s, rest)
    | '"' :: rest => (readBasic rest).map fun (s, rest) => (.str s, rest)
    | '\'' :: '\'' :: '\'' :: rest =>
      (readLiteralBlock [] (dropFirstLineEnd rest)).map fun (s, rest) => (.str s, rest)
    | '\'' :: rest => (readLiteral rest).map fun (s, rest) => (.str s, rest)
    | '[' :: rest => readItems fuel [] rest
    | '\x7b' :: rest =>
      match skipSpace rest with
      | '\x7d' :: rest => some (.inline [], rest)
      | rest => readEntries fuel [] rest
    | '-' :: rest => readSigned '-' rest
    | '+' :: rest => readSigned '+' rest
    | c :: rest =>
      if c.isDigit then readNumber false [] (c :: rest)
      else
        match readSpecial (c :: rest) with
        | some r => some r
        | none => readBool (c :: rest)
    | [] => none

/-- The items of an array; `acc` holds the earlier ones in reverse. -/
def readItems : (fuel : Nat) → (acc : List Value) → List Char → Option (Value × List Char)
  | 0, _, _ => none
  | fuel + 1, acc, cs =>
    match skipGaps cs with
    | ']' :: rest => some (.array acc.reverse, rest)
    | rest => do
      let (v, rest) ← readValue fuel rest
      match skipGaps rest with
      | ',' :: rest => readItems fuel (v :: acc) rest
      | ']' :: rest => return (.array (v :: acc).reverse, rest)
      | _ => none

/-- The entries of an inline table; `acc` holds the earlier ones in reverse. -/
def readEntries : (fuel : Nat) → (acc : List (Key × Value)) → List Char →
    Option (Value × List Char)
  | 0, _, _ => none
  | fuel + 1, acc, cs => do
    let (key, rest) ← readKey cs.length cs
    match rest with
    | '=' :: rest =>
      let (v, rest) ← readValue fuel rest
      match skipSpace rest with
      | ',' :: rest => readEntries fuel ((key, v) :: acc) rest
      | '\x7d' :: rest => return (.inline ((key, v) :: acc).reverse, rest)
      | _ => none
    | _ => none

end

/-- A statement up to the end of its line. -/
def readStatement (cs : List Char) : Option (Statement × List Char) :=
  match cs with
  | '[' :: '[' :: rest => do
    let (key, rest) ← readKey rest.length rest
    match rest with
    | ']' :: ']' :: rest => return (.element key, rest)
    | _ => none
  | '[' :: rest => do
    let (key, rest) ← readKey rest.length rest
    match rest with
    | ']' :: rest => return (.table key, rest)
    | _ => none
  | cs => do
    let (key, rest) ← readKey cs.length cs
    match rest with
    | '=' :: rest =>
      let (v, rest) ← readValue (rest.length + 1) rest
      return (.assign key v, rest)
    | _ => none

/-- Statements with gaps and comments between them. -/
def readStatements : (fuel : Nat) → List Char → Option (List Statement)
  | 0, _ => none
  | fuel + 1, cs =>
    match skipGaps cs with
    | [] => some []
    | rest => do
      let (s, rest) ← readStatement rest
      let rest ← endLine rest
      return s :: (← readStatements fuel rest)

/-- The document that a text denotes; `none` if the text is not well-formed or defines something
twice. -/
def read (s : String) : Option Document :=
  let cs := s.toList
  if isClean cs then (readStatements (cs.length + 1) cs).bind Document.build else none

end Fluxion.Toml
