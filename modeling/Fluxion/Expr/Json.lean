import Fluxion.Expr.Parse
import Fluxion.Expr.PassError
import Fluxion.Json

/-!
# Expressions as JSON

An expression is an object with a field `type`:

    binary    op, left, right
    variable  name
    number    value
    pending   target

Reading accepts further fields and ignores them.
-/

namespace Fluxion

/-- Why a JSON value is not an expression. -/
inductive DecodeError where
  /-- It is not an object. -/
  | notObject
  /-- Its type is missing, not a string or empty. -/
  | noType
  /-- No kind of expression has this type. -/
  | unknownType (name : String)
  /-- No operator has this symbol. -/
  | unknownOperator (symbol : String)
  /-- An operand is missing. -/
  | missing (owner field : String)
  /-- An operand is not an object. -/
  | notNested (owner field : String)
  /-- A variable has a name that is not a run of letters. -/
  | invalidName (name : String)
  /-- The value of a number is something else. -/
  | notNumeric
  /-- The value of a number is too large. -/
  | range (digits : String)
  /-- An operand is not an expression. -/
  | within (owner field : String) (cause : DecodeError)
deriving DecidableEq, Repr

namespace DecodeError

/-- The text of the error. -/
def message : DecodeError → String
  | notObject => "expression must be an object"
  | noType => "field 'type' must be a non-empty string"
  | unknownType name => "unknown expression type: " ++ Text.unmark name
  | unknownOperator symbol => "binary: unknown operator " ++ Text.unmark (Text.quote symbol)
  | missing owner field => owner ++ ": missing " ++ Text.quote field
  | notNested owner field => owner ++ ": " ++ Text.quote field ++ " must be an object"
  | invalidName name => "variable: invalid name " ++ Text.unmark (Text.quote name)
  | notNumeric => "number: 'value' must be numeric"
  | range digits => "number: " ++ ParseError.rangeMessage digits
  | within owner field cause => owner ++ "." ++ field ++ ": " ++ cause.message

/-- The innermost cause. -/
def root : DecodeError → DecodeError
  | within _ _ cause => cause.root
  | e => e

end DecodeError

namespace Expr

variable {α ν : Type} [Scalar α]

/-! ### Writing -/

/-- The expression as a JSON value, with the fields of every object in alphabetical order. -/
def toJson : Expr α → Except (PassError α) (Json α)
  | num v => .ok (.obj [("type", .str "number"), ("value", .num v)])
  | var x => .ok (.obj [("name", .str x), ("type", .str "variable")])
  | bin op l r => do
    let l' ← l.toJson
    let r' ← r.toJson
    return .obj [("left", l'), ("op", .str op.symbol), ("right", r'), ("type", .str "binary")]
  | pending t => do
    let t' ← t.toJson
    return .obj [("target", t'), ("type", .str "pending")]
  | hole => .error (.missing .encode)

/-! ### Reading -/

/-- A field of an object beside the expression that it denotes. -/
abbrev DecodedField (α ν : Type) := String × Json ν × Except DecodeError (Expr α)

/-- The operand of an object of type `owner` under the name `field`. -/
def operand (owner field : String) (fields : List (DecodedField α ν)) :
    Except DecodeError (Expr α) :=
  match Json.lookup? field fields with
  | none => .error (.missing owner field)
  | some (.obj _, e) => e.mapError (.within owner field)
  | some _ => .error (.notNested owner field)

/-- The expression of an object, from its fields beside the expressions that they denote. -/
def ofFields (read : ν → Except String α) (fields : List (DecodedField α ν)) :
    Except DecodeError (Expr α) :=
  let text (field : String) : String :=
    Json.strD ((Json.lookup? field fields).map Prod.fst)
  match text "type" with
  | "" => .error .noType
  | "binary" =>
    match Operator.ofSymbol? (text "op") with
    | none => .error (.unknownOperator (text "op"))
    | some op => do
      let l ← operand "binary" "left" fields
      let r ← operand "binary" "right" fields
      return bin op l r
  | "variable" =>
    if isIdentifier (text "name") then .ok (var (text "name"))
    else .error (.invalidName (text "name"))
  | "number" =>
    match (Json.lookup? "value" fields).map Prod.fst with
    | some (.num v) => ((read v).mapError DecodeError.range).map num
    | _ => .error .notNumeric
  | "pending" => do return pending (← operand "pending" "target" fields)
  | other => .error (.unknownType other)

mutual

/-- The expression that a JSON value denotes; `read` interprets its numbers. -/
def ofJson (read : ν → Except String α) : Json ν → Except DecodeError (Expr α)
  | .obj fields => ofFields read (decodeFields read fields)
  | .null => .error .notObject
  | .bool _ => .error .notObject
  | .num _ => .error .notObject
  | .str _ => .error .notObject
  | .arr _ => .error .notObject

/-- Every field beside the expression that it denotes. -/
def decodeFields (read : ν → Except String α) :
    List (String × Json ν) → List (DecodedField α ν)
  | [] => []
  | (k, j) :: fs => (k, j, ofJson read j) :: decodeFields read fs

end

end Expr

end Fluxion
