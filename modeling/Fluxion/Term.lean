import Fluxion.Scalar

/-!
# Terms

A term is a coefficient times a product of powers. The base of each power is a *key*: a variable, or
a whole list of terms that is treated as one opaque base, as `x+5` is in `(x+5)^-1`. A list of terms
stands for their sum.
-/

namespace Fluxion

mutual

/-- The base of a power in a term. -/
inductive Key (α : Type) where
  /-- A variable. -/
  | atom (name : String)
  /-- A sum of terms taken as a whole. -/
  | composite (terms : List (Term α))

/-- A key raised to an exponent. -/
structure Factor (α : Type) where
  /-- The base. -/
  key : Key α
  /-- The exponent. -/
  exponent : α

/-- A coefficient times a product of factors. -/
structure Term (α : Type) where
  /-- The number in front. -/
  coefficient : α
  /-- The factors in the order in which they were met. -/
  factors : List (Factor α)

end

variable {α : Type}

instance : Inhabited (Key α) := ⟨.atom ""⟩

instance [Inhabited α] : Inhabited (Term α) := ⟨⟨default, []⟩⟩

/-! ### Nesting depth -/

mutual

/-- How deeply composite keys are nested; an atom has depth zero. -/
def Key.depth : Key α → Nat
  | .atom _ => 0
  | .composite ts => Terms.depth ts + 1

/-- The nesting depth of the key of a factor. -/
def Factor.depth : Factor α → Nat
  | ⟨k, _⟩ => k.depth

/-- The largest nesting depth among some factors. -/
def Factors.depth : List (Factor α) → Nat
  | [] => 0
  | f :: fs => max f.depth (Factors.depth fs)

/-- The largest nesting depth among the factors of a term. -/
def Term.depth : Term α → Nat
  | ⟨_, fs⟩ => Factors.depth fs

/-- The largest nesting depth among some terms. -/
def Terms.depth : List (Term α) → Nat
  | [] => 0
  | t :: ts => max t.depth (Terms.depth ts)

end

end Fluxion
