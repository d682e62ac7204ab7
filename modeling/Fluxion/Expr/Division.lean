import Fluxion.Expr.PassError

/-!
# Division as a negative power, and back

`removeDivision` writes every quotient as a product with the power of minus one, so that later passes
need no rule for quotients. `restoreDivision` goes back: the factors of each product that carry a
negative exponent move into a divisor, in the order in which they stand.
-/

namespace Fluxion.Expr

variable {α : Type} [Scalar α]

/-- Write every quotient `l / r` as `l * r ^ (-1)`. -/
def removeDivision : Expr α → Except (PassError α) (Expr α)
  | num v => .ok (num v)
  | var x => .ok (var x)
  | bin op l r => do
    let l' ← l.removeDivision
    let r' ← r.removeDivision
    return if op = .div then mul l' (pow r' (-1)) else bin op l' r'
  | pending _ => .error (.noRule .removeDivision)
  | hole => .error (.missing .removeDivision)

/-- The left nested product of some factors; one if there are none. -/
def product : List (Expr α) → Expr α
  | [] => num 1
  | e :: es => es.foldl mul e

/-- The factors above and below the line of a fraction. -/
structure Fraction (α : Type) where
  /-- The factors of the dividend. -/
  above : List (Expr α)
  /-- The factors of the divisor. -/
  below : List (Expr α)

namespace Fraction

/-- The product of two fractions. -/
def append (f g : Fraction α) : Fraction α := ⟨f.above ++ g.above, f.below ++ g.below⟩

/-- A power as a fraction: a negative exponent puts it below the line. -/
def ofPower (base : Expr α) (exponent : α) : Fraction α :=
  if exponent == -1 then ⟨[], [base]⟩
  else if Scalar.isNegative exponent then ⟨[], [pow base (-exponent)]⟩
  else ⟨[pow base exponent], []⟩

/-- The fraction as an expression; nothing below the line means no quotient. -/
def toExpr (f : Fraction α) : Expr α :=
  match f.below with
  | [] => product f.above
  | below => div (product f.above) (product below)

end Fraction

mutual

/-- Put negative powers into divisors, in every summand. -/
def restoreDivision : Expr α → Expr α
  | bin .add l r => bin .add l.restoreDivision r.restoreDivision
  | bin .sub l r => bin .sub l.restoreDivision r.restoreDivision
  | bin .mul l r => (l.fraction.append r.fraction).toExpr
  | bin .pow base (num e) => (Fraction.ofPower base.restoreDivision e).toExpr
  | e => e

/-- The factors of a product, those with negative exponents below the line. -/
def fraction : Expr α → Fraction α
  | bin .mul l r => l.fraction.append r.fraction
  | bin .pow base (num e) => Fraction.ofPower base.restoreDivision e
  | e => ⟨[e], []⟩

end

end Fluxion.Expr
