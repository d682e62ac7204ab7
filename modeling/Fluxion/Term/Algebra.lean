import Fluxion.Term.Group
import Fluxion.Expr.PassError

/-!
# Arithmetic of terms

Products and powers of single terms, built so that no key occurs twice among the factors of a product.
-/

namespace Fluxion.Term

variable {α : Type} [Scalar α]

/-- The term with the given coefficient and factors, factors with the same key being merged. -/
def ofFactors (coefficient : α) (factors : List (Factor α)) : Term α :=
  ⟨coefficient, Factors.insertAll Key.canonical [] factors⟩

/-- The term that is a number. -/
def constant (value : α) : Term α := ⟨value, []⟩

/-- The product of two terms; exponents of shared keys add up. -/
def mul (t u : Term α) : Term α :=
  ⟨t.coefficient * u.coefficient, Factors.insertAll Key.canonical t.factors u.factors⟩

/-- The term with the opposite coefficient. -/
def neg (t : Term α) : Term α := ⟨-t.coefficient, t.factors⟩

/-- The term raised to an exponent, factor by factor. -/
def pow (t : Term α) (exponent : α) : Except (PassError α) (Term α) :=
  let c := Scalar.pow t.coefficient exponent
  if Scalar.isFinite c then
    .ok ⟨c, t.factors.map fun f => ⟨f.key, f.exponent * exponent⟩⟩
  else .error (.numeric .pow t.coefficient exponent)

end Fluxion.Term
