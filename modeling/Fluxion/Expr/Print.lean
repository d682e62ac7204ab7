import Fluxion.Expr

/-!
# Expressions as text

An expression is written with as few parentheses as its tree allows. `render min e` encloses `e` when
it binds less tightly than `min`. Operators associate to the left, so the left operand may bind as
tightly as the operator and the right one has to bind more tightly; the base of a power is an atom.
A product with minus one on the left is written as a negation, and a marker as its target with a
prime.
-/

namespace Fluxion.Expr

variable {α : Type} [Scalar α]

/-- Enclose a text that binds at `prec` where `min` is needed. -/
def enclose (min prec : Nat) (s : String) : String :=
  if prec < min then "(" ++ s ++ ")" else s

/-- The weakest binding that the left operand may have without parentheses. -/
def leftLevel (op : Operator) : Nat :=
  if op = .pow then Operator.atomPrecedence else op.precedence

/-- The text of an expression where a binding of at least `min` is needed. -/
def render (min : Nat) : Expr α → String
  | num v => Scalar.text v
  | var x => x
  | bin op l r =>
    if (bin op l r).isNegation then
      enclose min op.precedence ("-" ++ r.render op.precedence)
    else
      enclose min op.precedence
        (l.render (leftLevel op) ++ op.symbol ++ r.render (op.precedence + 1))
  | pending t => "(" ++ t.render 0 ++ ")'"
  | hole => ""

/-- The text of an expression. A tree with a hole has none; the answer then says so. -/
def print (e : Expr α) : String :=
  if e.isWhole then e.render 0 else "%!(minimaple.printer: visit of nil node)"

end Fluxion.Expr
