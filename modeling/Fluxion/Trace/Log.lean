import Fluxion.Differentiation

/-!
# Log records

What a differentiation writes to a log. Every step gives two records: the differentiation notes it for
debugging, and a sink that forwards steps to the log reports it. A failure is noted last.
-/

namespace Fluxion.Log

/-- How important a record is. -/
inductive Level where
  | debug
  | info
  | warn
  | error
  | dpanic
  | panic
  | fatal
deriving DecidableEq, Repr

namespace Level

/-- Every level, least important first. -/
def all : List Level := [debug, info, warn, error, dpanic, panic, fatal]

/-- The name of a level. -/
def name : Level → String
  | debug => "debug"
  | info => "info"
  | warn => "warn"
  | error => "error"
  | dpanic => "dpanic"
  | panic => "panic"
  | fatal => "fatal"

end Level

/-- The value of a field. -/
inductive Value where
  | text (s : String)
  | number (n : Nat)
deriving DecidableEq, Repr

/-- A record of the log. -/
structure Record where
  /-- How important it is. -/
  level : Level
  /-- What happened. -/
  message : String
  /-- The circumstances. -/
  fields : List (String × Value)
deriving DecidableEq, Repr

/-- The fields that describe a step. -/
def stepFields (s : Step) : List (String × Value) :=
  [("stage", .text s.stage.name), ("depth", .number s.depth), ("expr", .text s.text)]

/-- The records of a step. -/
def ofStep (variableName : String) (s : Step) : List Record :=
  [⟨.debug, "stage", ("variable", .text variableName) :: stepFields s⟩,
    ⟨.info, "step", stepFields s⟩]

/-- The record of a failure. -/
def ofFailure {α : Type} [Scalar α] (f : Failure α) : Record :=
  ⟨.debug, "differentiation failed",
    [("variable", .text f.variableName), ("input", .text (Utf8.decode f.input)),
      ("error", .text f.cause.message)]⟩

/-- The records of a differentiation. -/
def ofRun {α : Type} [Scalar α] (variableName : String)
    (run : Traced (Failure α) (Solution α)) : List Record :=
  run.steps.flatMap (ofStep variableName) ++
    match run.outcome with
    | .ok _ => []
    | .error f => [ofFailure f]

end Fluxion.Log
