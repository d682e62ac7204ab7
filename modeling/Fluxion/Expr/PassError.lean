import Fluxion.Expr.Print

/-!
# What can go wrong in a pass

Every transformation of expressions is a *pass*. A pass fails on a tree that it has no rule for, or on
a computation that has no finite result; all the causes are collected here with their wording.
-/

namespace Fluxion

/-- The transformations of expressions that can fail. -/
inductive Pass where
  | distribute
  | derive
  | evaluate
  | removeDivision
  | decompose
  | encode
deriving DecidableEq, Repr

namespace Pass

/-- The name of a pass in messages. -/
def name : Pass → String
  | distribute => "distribute"
  | derive => "derive"
  | evaluate => "evaluate"
  | removeDivision => "remove-division"
  | decompose => "decompose"
  | encode => "encode"

/-- Who walks over the tree, in the complaint about a missing operand. -/
def walker : Pass → String
  | distribute => "minimaple.distributor"
  | derive => "minimaple.deriver"
  | evaluate => "minimaple.evaluator"
  | removeDivision => "minimaple.divisionRemover"
  | decompose => "minimaple.decomposer"
  | encode => "minimaple.jsonEncoder"

end Pass

/-- Why a pass fails. -/
inductive PassError (α : Type) where
  /-- A marker has a target that is not an atom; `target` is its text. -/
  | incomplete (target : String)
  /-- The pass has no rule for this use of an operator. -/
  | unsupported (pass : Pass) (op : Operator)
  /-- An operation on numbers has no finite result. -/
  | numeric (op : Operator) (left right : α)
  /-- The pass has no rule for markers. -/
  | noRule (pass : Pass)
  /-- An operand is missing. -/
  | missing (pass : Pass)
deriving DecidableEq, Repr

namespace PassError

variable {α : Type} [Scalar α]

/-- What the pass met when it has no rule for markers. -/
def markerName : String := "pending derivative"

/-- The text of the error. -/
def message : PassError α → String
  | incomplete target => "derivative of " ++ target ++ " was not propagated to its atoms"
  | unsupported pass op => pass.name ++ ": unsupported use of operator " ++ op.symbol
  | numeric op left right =>
    if op = .div && right == 0 then "numeric error: division by zero"
    else
      "numeric error: " ++ Scalar.text left ++ op.symbol ++ Scalar.text right ++ " is not finite"
  | noRule pass => pass.name ++ ": no rule for " ++ markerName
  | missing pass => pass.walker ++ ": visit of nil node"

end PassError

end Fluxion
