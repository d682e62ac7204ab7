import Fluxion.Term.Decompose

/-!
# Sums of terms as expressions and as text

`Terms.toExpr` builds an expression from a list of terms: terms after the first are added, or
subtracted when their coefficient is not positive. `Terms.format` writes the same sum down directly.
-/

namespace Fluxion

variable {α : Type} [Scalar α]

/-! ### Expressions -/

/-- A coefficient times factors, multiplied from the left. -/
def monomialExpr (coefficient : α) (factors : List (Expr α)) : Expr α :=
  factors.foldl .mul (.num coefficient)

/-- A base with its exponent, which is left out when it is one. -/
def powerExpr (base : Expr α) (exponent : α) : Expr α :=
  if exponent == 1 then base else .pow base exponent

mutual

/-- The base that a key stands for. -/
def Key.toExpr : Key α → Expr α
  | .atom x => .var x
  | .composite ts => Terms.toExpr ts

/-- The powers that factors stand for. -/
def Factors.toExprs : List (Factor α) → List (Expr α)
  | [] => []
  | ⟨k, e⟩ :: fs => powerExpr k.toExpr e :: Factors.toExprs fs

/-- The sum of terms as an expression; zero if there are none. -/
def Terms.toExpr : List (Term α) → Expr α
  | [] => .num 0
  | ⟨c, fs⟩ :: ts => Terms.addTo (monomialExpr c (Factors.toExprs fs)) ts

/-- Add terms to an expression, or subtract them when the coefficient is not positive. -/
def Terms.addTo (e : Expr α) : List (Term α) → Expr α
  | [] => e
  | ⟨c, fs⟩ :: ts =>
    if Scalar.isPositive c then
      Terms.addTo (.add e (monomialExpr c (Factors.toExprs fs))) ts
    else Terms.addTo (.sub e (monomialExpr (-c) (Factors.toExprs fs))) ts

end

/-! ### Text -/

/-- A coefficient with the texts of its factors; one and minus one are not written out. -/
def monomialText (coefficient : α) (factors : List String) : String :=
  if factors.isEmpty then Scalar.text coefficient
  else
    let body := String.intercalate "*" factors
    if coefficient == 1 then body
    else if coefficient == -1 then "-" ++ body
    else Scalar.text coefficient ++ "*" ++ body

/-- A base with its exponent, which is left out when it is one. -/
def powerText (base : String) (exponent : α) : String :=
  if exponent == 1 then base else base ++ "^" ++ Scalar.text exponent

mutual

/-- The text of a key; a composite key is put in parentheses. -/
def Key.format : Key α → String
  | .atom x => x
  | .composite ts => "(" ++ Terms.format ts ++ ")"

/-- The texts of factors. -/
def Factors.format : List (Factor α) → List String
  | [] => []
  | ⟨k, e⟩ :: fs => powerText k.format e :: Factors.format fs

/-- The text of a signed sum of terms. -/
def Terms.format : List (Term α) → String
  | [] => "0"
  | ⟨c, fs⟩ :: ts => monomialText c (Factors.format fs) ++ Terms.formatRest ts

/-- The text of the terms after the first, each with its sign. -/
def Terms.formatRest : List (Term α) → String
  | [] => ""
  | ⟨c, fs⟩ :: ts =>
    (if Scalar.isNegative c then "-" ++ monomialText (-c) (Factors.format fs)
      else "+" ++ monomialText c (Factors.format fs)) ++ Terms.formatRest ts

end

/-- The text of a single term. -/
def Term.format (t : Term α) : String := monomialText t.coefficient (Factors.format t.factors)

end Fluxion
