import Fluxion.Differentiation
import Fluxion.Expr.Json
import Fluxion.Term.Json
import Fluxion.Tool.Schema

/-!
# Tools

The operations of the library as tools that are called by name with JSON parameters. An expression can
be given as text or as a tree. A call answers with a result, together with its text or its LaTeX, or
with an error.
-/

namespace Fluxion

/-- A call of a tool. -/
structure ToolRequest (α : Type) where
  /-- The name of the tool. -/
  tool : String := ""
  /-- The parameters; where a name occurs twice the last one counts. -/
  params : List (String × Json α) := []

/-- Why a call of a tool fails. -/
inductive ToolError (α : Type) where
  /-- A parameter is missing. -/
  | missing (param : String)
  /-- A parameter has to be a text. -/
  | notText (param : String)
  /-- A parameter has to be a text or a tree. -/
  | notExpression (param : String)
  /-- No tool has this name. -/
  | unknownTool (name : String)
  /-- The text of an expression cannot be read. -/
  | source (cause : ParseError)
  /-- The tree of an expression cannot be read. -/
  | tree (cause : DecodeError)
  /-- A pass fails. -/
  | pass (cause : PassError α)
  /-- The differentiation fails. -/
  | failure (cause : Failure α)

namespace ToolError

variable {α : Type} [Scalar α]

/-- The text of the error. -/
def message : ToolError α → String
  | missing param => "missing param: " ++ param
  | notText param => "param " ++ param ++ " must be a string"
  | notExpression param => "param " ++ param ++ " must be a string or an object"
  | unknownTool name => "unknown tool: " ++ Text.unmark name
  | source cause => cause.message
  | tree cause => cause.message
  | pass cause => cause.message
  | failure cause => cause.message

end ToolError

namespace ToolRequest

variable {α : Type} [Scalar α]

/-- A parameter. -/
def param? (r : ToolRequest α) (name : String) : Option (Json α) := Json.lookup? name r.params

/-- A parameter that is a text. -/
def text (r : ToolRequest α) (name : String) : Except (ToolError α) String :=
  match r.param? name with
  | none => .error (.missing name)
  | some (.str s) => .ok s
  | some _ => .error (.notText name)

/-- A parameter that is an expression, as text or as a tree. -/
def expression (r : ToolRequest α) (name : String) : Except (ToolError α) (Expr α) :=
  match r.param? name with
  | none => .error (.missing name)
  | some (.str s) => (Expr.parse (Utf8.bytes s)).mapError .source
  | some (.obj fields) => (Expr.ofJson .ok (.obj fields)).mapError .tree
  | some _ => .error (.notExpression name)

/-- The parameter is given and true. -/
def isSet (r : ToolRequest α) (name : String) : Bool :=
  match r.param? name with
  | some (.bool b) => b
  | _ => false

end ToolRequest

/-- A step as a JSON value; a depth of zero is left out. -/
def Tool.stepJson {α : Type} [Scalar α] (s : Step) : Json α :=
  .obj ([("stage", .str s.stage.name)] ++
    (if s.depth == 0 then [] else [("depth", .num (s.depth : α))]) ++
    [("text", .str s.text), ("latex", .str s.latex)])

/-- What a caller of a tool gets to see. -/
structure ToolResponse (α : Type) where
  /-- The result, absent after an error. -/
  result : Option (Json α) := none
  /-- The result as LaTeX; may be empty. -/
  latex : String := ""
  /-- The result as text; may be empty. -/
  text : String := ""
  /-- The text of the error, empty after a success. -/
  error : String := ""

namespace ToolResponse

variable {α : Type} [Scalar α]

/-- The response after an error. -/
def ofError (err : ToolError α) : ToolResponse α := { error := err.message }

/-- The response with an expression as its result. -/
def ofExpr (e : Expr α) : ToolResponse α :=
  match e.toJson with
  | .ok j => { result := some j, latex := e.latex, text := e.print }
  | .error err => ofError (.pass err)

/-- The response with the steps that led to its result beside it, whether there is one or not. -/
def withSteps (d : Solution α) (r : ToolResponse α) : ToolResponse α :=
  { r with
    result := some (.obj [("expr", r.result.getD .null), ("iterations", .num (d.iterations : α)),
      ("steps", .arr (d.steps.map Tool.stepJson))]) }

/-- The response as a JSON value; what is empty is left out. -/
def toJson (r : ToolResponse α) : Json α :=
  let optional (name s : String) : List (String × Json α) :=
    if s.isEmpty then [] else [(name, .str s)]
  .obj ((r.result.map fun j => ("result", j)).toList ++ optional "latex" r.latex ++
    optional "string" r.text ++ optional "error" r.error)

end ToolResponse

namespace Tool

variable {α : Type} [Scalar α]

/-- Differentiate the text `expr` with respect to `var`. -/
def callDifferentiate (options : Options) (r : ToolRequest α) :
    Except (ToolError α) (ToolResponse α) := do
  let text ← r.text "expr"
  let variableName ← r.text "var"
  let d ← (differentiate options (Utf8.bytes text) variableName).outcome.mapError .failure
  let response := ToolResponse.ofExpr d.expr
  return if r.isSet "steps" then response.withSteps d else response

/-- Run the tool that is asked for. -/
def call (options : Options) (r : ToolRequest α) : Except (ToolError α) (ToolResponse α) :=
  match r.tool with
  | "differentiate" => callDifferentiate options r
  | "parse" => do return .ofExpr (← r.expression "expr")
  | "print" => do
    let e ← r.expression "expr"
    return { result := some (.str e.print), text := e.print }
  | "latex" => do
    let e ← r.expression "expr"
    return { result := some (.str e.latex), latex := e.latex }
  | "expand" => do
    let e ← r.expression "expr"
    let expanded ← e.distribute.mapError .pass
    return .ofExpr expanded
  | "terms" => do
    let e ← r.expression "expr"
    let ts ← e.canonicalTerms.mapError .pass
    return { result := some (Terms.toJson ts), latex := (Terms.toExpr ts).latex,
             text := Terms.format ts }
  | "mcp_spec" => .ok { result := some (.str schemaText), text := "MCP tool specification" }
  | name => .error (.unknownTool name)

/-- Run a tool and make its response. -/
def handle (options : Options) (r : ToolRequest α) : ToolResponse α :=
  match call options r with
  | .ok response => response
  | .error err => .ofError err

end Tool

end Fluxion
