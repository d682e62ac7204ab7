import Fluxion.Expr.Parse
import Fluxion.Expr.Derive
import Fluxion.Expr.Evaluate
import Fluxion.Term.Recompose
import Fluxion.Trace

/-!
# Differentiation

The whole way from a text to the text of its derivative. The expression is read and multiplied out,
the rules of differentiation are pushed one layer deeper at a time until the tree does not change any
more, the markers are resolved, and the result is flattened into terms, grouped and put together again.
-/

namespace Fluxion

/-- What can be chosen about a differentiation. -/
structure Options where
  /-- Upper limit for the depths tried; zero or less leaves only the limit that the tree sets. -/
  maxIterations : Int := 0
  /-- Write negative powers as quotients again. -/
  restoreDivision : Bool := true
deriving DecidableEq, Repr

/-- Why a differentiation fails. -/
inductive Cause (α : Type) where
  /-- The variable is not a run of letters. -/
  | invalidVariable (name : String)
  /-- The text is not an expression. -/
  | source (cause : ParseError)
  /-- A pass fails. -/
  | pass (cause : PassError α)
  /-- The tree still changed when the limit was reached. -/
  | iterationLimit (limit : Nat)
deriving DecidableEq, Repr

namespace Cause

variable {α : Type} [Scalar α]

/-- The text of the cause. -/
def message : Cause α → String
  | invalidVariable name =>
    Text.unmark (Text.quote name) ++ ": invalid differentiation variable"
  | source cause => cause.message
  | pass cause => cause.message
  | iterationLimit limit =>
    "derivation did not reach a fixed point within " ++ toString limit ++ " iterations"

end Cause

/-- A failed differentiation. -/
structure Failure (α : Type) where
  /-- The text that was to be differentiated. -/
  input : List UInt8
  /-- The variable. -/
  variableName : String
  /-- What went wrong. -/
  cause : Cause α

/-- The text of the failure. -/
def Failure.message {α : Type} [Scalar α] (f : Failure α) : String :=
  "failed to differentiate " ++ Text.quoteBytes f.input ++ " with respect to " ++
    Text.quote f.variableName ++ ": " ++ f.cause.message

/-- A derivative. -/
structure Derivative (α : Type) where
  /-- The derivative. -/
  expr : Expr α
  /-- How many depths were tried until the tree did not change any more. -/
  iterations : Nat

/-- A differentiation that succeeded. -/
structure Solution (α : Type) where
  /-- The text that was differentiated. -/
  input : List UInt8
  /-- The variable. -/
  variableName : String
  /-- The derivative. -/
  expr : Expr α
  /-- The derivative as text. -/
  text : String
  /-- The derivative as LaTeX. -/
  latex : String
  /-- The steps on the way. -/
  steps : List Step
  /-- How many depths were tried until the tree did not change any more. -/
  iterations : Nat

namespace Differentiation

variable {α : Type} [Scalar α]

/-- Record an expression and continue with it. -/
def showing (stage : Stage) (depth : Nat) (e : Expr α) : Traced (Cause α) (Expr α) :=
  ⟨[Step.ofExpr stage depth e], .ok e⟩

/-- Run a pass and record its result. -/
def runPass (stage : Stage) (depth : Nat) (r : Except (PassError α) (Expr α)) :
    Traced (Cause α) (Expr α) := do
  showing stage depth (← Traced.lift (r.mapError Cause.pass))

/-- The number of depths that may be tried for a tree. -/
def bound (options : Options) (e : Expr α) : Nat :=
  let structural := e.depth + 1
  if 0 < options.maxIterations && options.maxIterations < structural then
    options.maxIterations.toNat
  else structural

/-- Derive at one depth after the other, from `depth` on, until two successive trees are the same.
`previous` is the tree of the depth before. -/
def settle (limit : Nat) (e : Expr α) :
    (remaining depth : Nat) → (previous : Option (Expr α)) → Traced (Cause α) (Derivative α)
  | 0, _, _ => .lift (.error (.iterationLimit limit))
  | remaining + 1, depth, previous => do
    let current ← runPass .derive depth (e.derive depth)
    match previous with
    | some p =>
      if p.same current then return ⟨current, depth⟩
      else settle limit e remaining (depth + 1) (some current)
    | none => settle limit e remaining (depth + 1) (some current)

/-- Derive until the tree does not change any more. -/
def fixedPoint (options : Options) (e : Expr α) : Traced (Cause α) (Derivative α) :=
  let limit := bound options e
  settle limit e limit 1 none

/-- The stages after the derivative has reached the atoms. -/
def finish (options : Options) (variableName : String) (derived : Expr α) :
    Traced (Cause α) (Expr α) := do
  let evaluated ← runPass .evaluate 0 (derived.evaluate variableName)
  let expanded ← runPass .expand 0 evaluated.distribute
  let undivided ← runPass .removeDivision 0 expanded.removeDivision
  let terms ← Traced.lift (undivided.decompose.mapError Cause.pass)
  let grouped := Terms.group terms
  let composed := Terms.toExpr grouped
  Traced.record ⟨.group, 0, Terms.format grouped, composed.latex⟩
  let composed ← showing .compose 0 composed
  let restored ←
    if options.restoreDivision then showing .restoreDivision 0 composed.restoreDivision
    else pure composed
  runPass .simplify 0 (restored.evaluate variableName)

/-- All stages. -/
def pipeline (options : Options) (text : List UInt8) (variableName : String) :
    Traced (Cause α) (Derivative α) := do
  if isIdentifier variableName then
    let parsed ← Traced.lift ((Expr.parse text).mapError Cause.source)
    let parsed ← showing .parse 0 parsed
    let distributed ← runPass .distribute 0 parsed.distribute
    let derived ← fixedPoint options distributed
    let result ← finish options variableName derived.expr
    return ⟨result, derived.iterations⟩
  else Traced.lift (.error (.invalidVariable variableName))

end Differentiation

variable {α : Type} [Scalar α]

/-- Differentiate a text with respect to a variable. The steps of the trace are those that were
completed, also when the differentiation fails. -/
def differentiate (options : Options) (text : List UInt8) (variableName : String) :
    Traced (Failure α) (Solution α) :=
  let run := Differentiation.pipeline options text variableName
  ⟨run.steps,
    match run.outcome with
    | .ok d => .ok
      { input := text, variableName, expr := d.expr, text := d.expr.print, latex := d.expr.latex,
        steps := run.steps, iterations := d.iterations }
    | .error cause => .error ⟨text, variableName, cause⟩⟩

end Fluxion
