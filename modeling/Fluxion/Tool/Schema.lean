import Fluxion.Json.Write

/-!
# The tools and their parameters

A description of every tool for programs that call them: its name, what it does, which parameters it
takes and which of them it needs.
-/

namespace Fluxion.Tool

/-- What a tool is called, does and takes. -/
structure Description where
  /-- The name of the tool. -/
  name : String
  /-- What it does. -/
  summary : String
  /-- The parameters that have to be given. -/
  required : List String
  /-- All parameters with their types, in alphabetical order. -/
  properties : List (String × String)

/-- The tools. -/
def descriptions : List Description :=
  [⟨"differentiate", "Differentiate expr with respect to var and simplify. Optional: steps (bool)",
      ["expr", "var"], [("expr", "string"), ("steps", "boolean"), ("var", "string")]⟩,
    ⟨"parse", "Parse expression text into a tree", ["expr"], [("expr", "string")]⟩,
    ⟨"print", "Render a tree as minimally parenthesized text", ["expr"], [("expr", "object")]⟩,
    ⟨"latex", "Render an expression as LaTeX", ["expr"], [("expr", "object")]⟩,
    ⟨"expand", "Distribute products and integer powers", ["expr"], [("expr", "string")]⟩,
    ⟨"terms", "Canonical grouped monomials of an expression", ["expr"], [("expr", "string")]⟩,
    ⟨"mcp_spec", "Return this tool schema", [], []⟩]

variable {ν : Type}

/-- A description as a JSON value. -/
def Description.toJson (d : Description) : Json ν :=
  .obj [("description", .str d.summary),
    ("inputSchema",
      .obj [("properties", .obj (d.properties.map fun p => (p.1, .obj [("type", .str p.2)]))),
        ("required", .arr (d.required.map .str)),
        ("type", .str "object")]),
    ("name", .str d.name)]

/-- All descriptions as a JSON value. -/
def schema : Json ν := .obj [("tools", .arr (descriptions.map Description.toJson))]

/-- All descriptions as indented text. -/
def schemaText : String := schema.write (.indented 0)

end Fluxion.Tool
