import Fluxion.Tool
import Fluxion.Json.Read
import Fluxion.Text.Case

/-!
# Requests to the tool server

The body of a request is a JSON object with the fields `tool` and `params`, whose names may be written
in any case. At most a given number of bytes of the body is read. Once the object is complete, the next
visible character decides: a closing bracket or the end of the body lets the request pass, anything else is
refused as trailing data. That holds also where the limit comes before either is seen.
-/

namespace Fluxion.Server

/-- Why a request is refused. -/
inductive RequestError where
  /-- The body is empty. -/
  | empty
  /-- The body goes on beyond the limit before the request is complete. -/
  | tooLarge
  /-- A field is neither `tool` nor `params`. -/
  | unknownField (name : String)
  /-- Something follows the request. -/
  | trailing
  /-- The body is not JSON, or a field has the wrong type. -/
  | invalid
deriving DecidableEq, Repr

/-- The text of the error. -/
def RequestError.message : RequestError → String
  | empty => "EOF"
  | tooLarge => "http: request body too large"
  | unknownField name => "json: unknown field " ++ Text.quote name
  | trailing => "invalid JSON: trailing data"
  | invalid => "invalid JSON: cannot decode request"

/-- A request that is being read, with the first error met. -/
structure Reading where
  /-- The request so far. -/
  request : ToolRequest Float := {}
  /-- The first error. -/
  error : Option RequestError := none

namespace Reading

/-- Note an error; the first one stays. -/
def fail (r : Reading) (e : RequestError) : Reading := { r with error := r.error.or (some e) }

/-- Take in the field `tool`; null leaves it as it is. -/
def withTool (r : Reading) : Json NumberLiteral → Reading
  | .str s => { r with request := { r.request with tool := s } }
  | .null => r
  | _ => r.fail .invalid

/-- Take in the field `params`. An object adds its fields to those given before, null drops them. -/
def withParams (r : Reading) (j : Json NumberLiteral) : Reading :=
  match j with
  | .null => { r with request := { r.request with params := [] } }
  | .obj fields =>
    match Json.mapFields NumberLiteral.toFloat fields with
    | .ok fields =>
      { r with request := { r.request with params := r.request.params ++ fields } }
    | .error _ => r.fail .invalid
  | _ => r.fail .invalid

/-- Take in a field. -/
def withField (r : Reading) (field : String × Json NumberLiteral) : Reading :=
  if Text.foldCase field.1 == "tool" then r.withTool field.2
  else if Text.foldCase field.1 == "params" then r.withParams field.2
  else r.fail (.unknownField field.1)

/-- The request, unless there was an error. -/
def finish (r : Reading) : Except RequestError (ToolRequest Float) :=
  match r.error with
  | some e => .error e
  | none => .ok r.request

end Reading

/-- The request that a JSON value denotes; null is the empty request. -/
def requestOfJson : Json NumberLiteral → Except RequestError (ToolRequest Float)
  | .obj fields => (fields.foldl Reading.withField {}).finish
  | .null => .ok {}
  | _ => .error .invalid

/-- What follows a request may start with a closing bracket; it may not start with anything else. A body that
the limit cuts off has no end that could be found: a reader that fails for another reason than the end of the
body expects more. A request of 38 bytes with one blank behind it is answered in this way when the limit is 38
bytes. -/
def checkRest (isCut : Bool) (rest : List Char) : Except RequestError Unit :=
  match Json.skipSpace rest with
  | [] => if isCut then .error .trailing else .ok ()
  | ']' :: _ => .ok ()
  | '\x7d' :: _ => .ok ()
  | _ => .error .trailing

/-- Read the request in a body of which at most `limit` bytes may be looked at. A number is complete only
when something after it, or the end of the body, has been seen. -/
def readRequest (limit : Int) (body : List UInt8) : Except RequestError (ToolRequest Float) := do
  let isCut := limit.toNat < body.length
  let available := (Utf8.decode (body.take limit.toNat)).toList
  match Json.read available with
  | .error .malformed => .error .invalid
  | .error .truncated =>
    if isCut then .error .tooLarge
    else if (Json.skipSpace available).isEmpty then .error .empty
    else .error .invalid
  | .ok (j, rest) =>
    if isCut && rest.isEmpty && j.isNumber then .error .tooLarge
    else
      let request ← requestOfJson j
      checkRest isCut rest
      return request

end Fluxion.Server
