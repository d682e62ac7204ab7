import Fluxion.Expr.Print
import Fluxion.Expr.Latex

/-!
# Traces

A differentiation goes through stages, and after each of them the state of the expression is recorded
as a `Step`. A `Traced` computation is one that records steps and may fail; what was recorded before a
failure is kept.
-/

namespace Fluxion

/-- A stage of a differentiation. -/
inductive Stage where
  | parse
  | distribute
  | derive
  | evaluate
  | expand
  | removeDivision
  | group
  | compose
  | restoreDivision
  | simplify
deriving DecidableEq, Repr

/-- The name of a stage. -/
def Stage.name : Stage → String
  | parse => "parse"
  | distribute => "distribute"
  | derive => "derive"
  | evaluate => "evaluate"
  | expand => "expand"
  | removeDivision => "remove-division"
  | group => "group"
  | compose => "compose"
  | restoreDivision => "restore-division"
  | simplify => "simplify"

/-- The state of the expression after a stage. -/
structure Step where
  /-- The stage that was completed. -/
  stage : Stage
  /-- How deep the rules of differentiation were applied; zero outside that stage. -/
  depth : Nat
  /-- The expression as text. -/
  text : String
  /-- The expression as LaTeX. -/
  latex : String
deriving DecidableEq, Repr

namespace Step

/-- The name of the stage, with the depth where it matters. -/
def title (s : Step) : String :=
  if s.stage = .derive then s.stage.name ++ "(" ++ toString s.depth ++ ")" else s.stage.name

/-- The step on one line. -/
def render (s : Step) : String := s.title ++ ": " ++ s.text

/-- The step that shows an expression. -/
def ofExpr {α : Type} [Scalar α] (stage : Stage) (depth : Nat) (e : Expr α) : Step :=
  ⟨stage, depth, e.print, e.latex⟩

end Step

/-- A computation that records steps on its way to a value or a failure. -/
structure Traced (ε β : Type) where
  /-- What was recorded, first step first. -/
  steps : List Step
  /-- How the computation ended. -/
  outcome : Except ε β

namespace Traced

variable {ε β γ : Type}

/-- Continue after a computation, unless it failed. -/
def bind (m : Traced ε β) (f : β → Traced ε γ) : Traced ε γ :=
  match m.outcome with
  | .error e => ⟨m.steps, .error e⟩
  | .ok b =>
    let next := f b
    ⟨m.steps ++ next.steps, next.outcome⟩

instance : Monad (Traced ε) where
  pure b := ⟨[], .ok b⟩
  bind := bind

/-- A computation that records nothing. -/
def lift (r : Except ε β) : Traced ε β := ⟨[], r⟩

/-- Record one step. -/
def record (s : Step) : Traced ε Unit := ⟨[s], .ok ()⟩

end Traced

end Fluxion
