import Fluxion.Expr

/-!
# Expressions as LaTeX

For display, quotients become fractions and exponents go into braces. A fraction delimits its own
operands, so it needs parentheses only as the base of a power.
-/

namespace Fluxion.Expr

variable {α : Type} [Scalar α]

/-- Enclose a formula that binds at `prec` where `min` is needed. -/
def encloseLatex (min prec : Nat) (s : String) : String :=
  if prec < min then "\\left(" ++ s ++ "\\right)" else s

/-- The sign between the operands of an operator. -/
def latexSign : Operator → String
  | .mul => " \\cdot "
  | op => " " ++ op.symbol ++ " "

/-- The formula of an expression where a binding of at least `min` is needed. -/
def renderLatex (min : Nat) : Expr α → String
  | num v => Scalar.text v
  | var x => x
  | bin .div l r =>
    encloseLatex min Operator.pow.precedence
      ("\\frac\x7b" ++ l.renderLatex 0 ++ "\x7d\x7b" ++ r.renderLatex 0 ++ "\x7d")
  | bin .pow l r =>
    encloseLatex min Operator.pow.precedence
      (l.renderLatex Operator.atomPrecedence ++ "^\x7b" ++ r.renderLatex 0 ++ "\x7d")
  | bin op l r =>
    if (bin op l r).isNegation then
      encloseLatex min op.precedence ("-" ++ r.renderLatex op.precedence)
    else
      encloseLatex min op.precedence
        (l.renderLatex op.precedence ++ latexSign op ++ r.renderLatex (op.precedence + 1))
  | pending t => "\\left(" ++ t.renderLatex 0 ++ "\\right)'"
  | hole => ""

/-- The formula of an expression. A tree with a hole has none; the answer then says so. -/
def latex (e : Expr α) : String :=
  if e.isWhole then e.renderLatex 0
  else "\\text\x7bminimaple.latexPrinter: visit of nil node\x7d"

end Fluxion.Expr
