import Fluxion.Path
import Fluxion.Server.Request

/-!
# The tool server

Answers requests to three addresses: tools are called at `/tool`, their descriptions are served at
`/schema`, and `/health` tells that the server is alive.
-/

namespace Fluxion.Server

/-- What a response says. -/
inductive Body where
  /-- Nothing. -/
  | empty
  /-- A fixed text. -/
  | text (s : String)
  /-- A request was refused. -/
  | refused (cause : RequestError)
  /-- The response of a tool. -/
  | tool (response : ToolResponse Float)
  /-- The server is alive. -/
  | health

/-- A response. -/
structure Response where
  /-- The status code. -/
  status : Nat
  /-- The type of the body; empty when there is none. -/
  contentType : String
  /-- What the response says. -/
  body : Body

/-- A JSON value on a line of its own; a value that cannot be written leaves nothing. -/
def jsonLine (j : Json Float) : String :=
  match j.encode .compact with
  | .ok s => s ++ "\n"
  | .error _ => ""

/-- The bytes of a body as text; `now` is the time of day that the health check reports. -/
def Body.render (now : String) : Body → String
  | empty => ""
  | text s => s
  | refused cause => jsonLine (.obj [("error", .str cause.message)])
  | tool response => jsonLine response.toJson
  | health => jsonLine (.obj [("status", .str "ok"), ("time", .str now)])

/-- The content type of JSON. -/
def jsonType : String := "application/json"

/-- Answer a call of a tool. -/
def handleTool (options : Options) (limit : Int) (body : List UInt8) : Response :=
  match readRequest limit body with
  | .error cause => ⟨400, jsonType, .refused cause⟩
  | .ok request => ⟨200, jsonType, .tool (Tool.handle options request)⟩

/-- The bytes of a path, in which a percent sign with two hexadecimal digits stands for a byte. -/
def unescape : List Char → List UInt8
  | [] => []
  | '%' :: a :: b :: rest =>
    match Json.hexDigit? a, Json.hexDigit? b with
    | some high, some low => UInt8.ofNat (high * 16 + low) :: unescape rest
    | _, _ => Utf8.bytes "%" ++ unescape (a :: b :: rest)
  | c :: rest => Utf8.bytes (String.singleton c) ++ unescape rest

/-- The path of a request without its query. -/
def pathOf (target : String) : String :=
  Utf8.decode (unescape (target.toList.takeWhile (· != '?')))

/-- The path that a request is sent on to: cleaned, a slash at the end being kept. -/
def canonicalPath (path : String) : String :=
  let cleaned := Path.clean (if Path.isRooted path then path else "/" ++ path)
  if path.endsWith "/" && cleaned != "/" then cleaned ++ "/" else cleaned

/-- Answer a request. -/
def route (options : Options) (limit : Int) (method target : String) (body : List UInt8) :
    Response :=
  let path := pathOf target
  let notAllowed : Response := ⟨405, "", .empty⟩
  if canonicalPath path != path then ⟨301, "", .empty⟩
  else
    match path with
    | "/tool" => if method == "POST" then handleTool options limit body else notAllowed
    | "/schema" =>
      if method == "GET" then ⟨200, jsonType, .text Tool.schemaText⟩ else notAllowed
    | "/health" => if method == "GET" then ⟨200, jsonType, .health⟩ else notAllowed
    | _ => ⟨404, "text/plain; charset=utf-8", .text "404 page not found\n"⟩

end Fluxion.Server
