import Fluxion.Differentiation

/-!
# Sessions

Several differentiations with the same options, whose steps are collected in one recorder. The recorder
can be emptied at any time; the number of derivation steps that were ever taken is counted separately.
-/

namespace Fluxion

/-- Keeps the steps it is given. -/
structure Recorder where
  /-- The steps, first one first. -/
  steps : List Step := []
deriving DecidableEq, Repr

namespace Recorder

/-- Add steps at the end. -/
def record (r : Recorder) (new : List Step) : Recorder := ⟨r.steps ++ new⟩

/-- The recorder with nothing in it. -/
def reset (_ : Recorder) : Recorder := ⟨[]⟩

/-- The steps, one line each. -/
def lines (r : Recorder) : List String := r.steps.map Step.render

end Recorder

/-- Differentiations that share options and a recorder. -/
structure Session where
  /-- The options of every differentiation. -/
  options : Options
  /-- The steps since the recorder was last emptied. -/
  recorder : Recorder := {}
  /-- The number of derivation steps ever taken. -/
  derives : Nat := 0

namespace Session

variable {α : Type} [Scalar α]

/-- The number of derivation steps among some steps. -/
def countDerives (steps : List Step) : Nat := steps.countP fun s => s.stage = .derive

/-- Differentiate and record the steps. -/
def differentiate (s : Session) (text : List UInt8) (variableName : String) :
    Except (Failure α) (Solution α) × Session :=
  let run := Fluxion.differentiate s.options text variableName
  (run.outcome,
    { s with
      recorder := s.recorder.record run.steps
      derives := s.derives + countDerives run.steps })

/-- Differentiate a text, then its derivative, and so on. The derivatives end with a failure if one of
them cannot be differentiated. -/
def chain (s : Session) (text : List UInt8) (variableName : String) :
    (times : Nat) → List (Except (Failure α) (Solution α)) × Session
  | 0 => ([], s)
  | times + 1 =>
    match s.differentiate text variableName with
    | (.ok d, s') =>
      let rest := s'.chain (Utf8.bytes d.text) variableName times
      (.ok d :: rest.1, rest.2)
    | (.error f, s') => ([.error f], s')

/-- Empty the recorder. -/
def reset (s : Session) : Session := { s with recorder := s.recorder.reset }

end Session

end Fluxion
