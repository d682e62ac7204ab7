import Fluxion.Json
import Fluxion.Scalar.Float
import Fluxion.Text.Quoted

/-!
# Writing JSON

Values are written compactly or with an indentation of two spaces. Strings escape what JSON demands
and, so that the text can stand inside a web page, also `<`, `>`, `&` and the two Unicode line
separators. Only finite numbers can be written.
-/

namespace Fluxion.Json

/-- A character inside a JSON string. -/
def escapeChar (c : Char) : String :=
  match c with
  | '"' => "\\\""
  | '\\' => "\\\\"
  | '\n' => "\\n"
  | '\r' => "\\r"
  | '\t' => "\\t"
  | c =>
    if c.toNat == 8 then "\\b"
    else if c.toNat == 12 then "\\f"
    else if c.toNat < 0x20 || c == '<' || c == '>' || c == '&'
        || c.toNat == 0x2028 || c.toNat == 0x2029 then
      "\\u" ++ Text.hex 4 c.toNat
    else String.singleton c

/-- A JSON string. -/
def writeString (s : String) : String :=
  s.toList.foldl (fun acc c => acc ++ escapeChar c) "\"" ++ "\""

/-- How the parts of arrays and objects are set apart. -/
inductive Layout where
  /-- Nothing between the parts. -/
  | compact
  /-- Every part on a line of its own, `depth` levels in. -/
  | indented (depth : Nat)

namespace Layout

/-- The layout one level further in. -/
def deeper : Layout → Layout
  | compact => compact
  | indented depth => indented (depth + 1)

/-- What stands before a part. -/
def lineBreak : Layout → String
  | compact => ""
  | indented depth => "\n" ++ String.ofList (List.replicate (2 * depth) ' ')

/-- What stands between a field name and its value. -/
def colon : Layout → String
  | compact => ":"
  | indented _ => ": "

end Layout

mutual

/-- The text of a value. -/
def write (layout : Layout) : Json Float → String
  | null => "null"
  | bool true => "true"
  | bool false => "false"
  | num v => FloatText.encoded v
  | str s => writeString s
  | arr [] => "[]"
  | arr (j :: js) =>
    "[" ++ layout.deeper.lineBreak ++ write layout.deeper j ++ writeItems layout.deeper js ++
      layout.lineBreak ++ "]"
  | obj [] => "\x7b\x7d"
  | obj ((k, j) :: fs) =>
    "\x7b" ++ layout.deeper.lineBreak ++ writeString k ++ layout.colon ++ write layout.deeper j ++
      writeFields layout.deeper fs ++ layout.lineBreak ++ "\x7d"

/-- The text of the items after the first. -/
def writeItems (layout : Layout) : List (Json Float) → String
  | [] => ""
  | j :: js => "," ++ layout.lineBreak ++ write layout j ++ writeItems layout js

/-- The text of the fields after the first. -/
def writeFields (layout : Layout) : List (String × Json Float) → String
  | [] => ""
  | (k, j) :: fs =>
    "," ++ layout.lineBreak ++ writeString k ++ layout.colon ++ write layout j ++
      writeFields layout fs

end

/-- A number that JSON has no text for. -/
structure Unwritable where
  /-- The number. -/
  value : Float

/-- The text of the error. -/
def Unwritable.message (e : Unwritable) : String :=
  "json: unsupported value: " ++ FloatText.special e.value

/-- The text of a value, or the first number in it that is not finite. -/
def encode (layout : Layout) (j : Json Float) : Except Unwritable String :=
  match j.numbers.find? fun v => !v.isFinite with
  | some v => .error ⟨v⟩
  | none => .ok (write layout j)

end Fluxion.Json
