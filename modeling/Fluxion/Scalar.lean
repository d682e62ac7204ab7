/-!
# Scalars

Every number in an expression, a term or an encoded value is a *scalar*. The library never looks
inside a scalar: it adds, multiplies and divides, raises to powers, compares, reads a decimal
literal and writes one down, and that is all that `Scalar` lists. The program runs with binary
floating point numbers, and the same definitions can be read over any other arithmetic, exact
rational numbers for instance.
-/

namespace Fluxion

/-- The arithmetic that expressions are built on. Comparisons answer `Bool`, because they need not
obey the laws of an order: a floating point number may differ from itself. -/
class Scalar (α : Type) extends
    Zero α, One α, NatCast α, Add α, Sub α, Mul α, Div α, Neg α, BEq α where
  /-- The first argument raised to the second. -/
  pow : α → α → α
  /-- Strictly smaller. -/
  less : α → α → Bool
  /-- Neither infinite nor undefined. -/
  isFinite : α → Bool
  /-- The text of a number inside expressions, signatures and messages. -/
  text : α → String
  /-- The number nearest to `digits * 10 ^ (-places)`, or `none` when it is out of range. -/
  ofDecimal? : (digits places : Nat) → Option α

namespace Scalar

variable {α : Type} [Scalar α]

/-- The scalar two, the exponent that the quotient rule puts on a divisor. -/
def two : α := ((2 : Nat) : α)

/-- Largest integer power that is written out as a repeated product. -/
def maxWrittenPower : Nat := 10

/-- The exponent as a natural number, if it is one of `1, ..., maxWrittenPower`. -/
def smallPower? (exponent : α) : Option Nat :=
  ((List.range maxWrittenPower).map (· + 1)).find? fun k => exponent == (k : α)

/-- Strictly greater than zero. -/
def isPositive (x : α) : Bool := less 0 x

/-- Strictly smaller than zero. -/
def isNegative (x : α) : Bool := less x 0

end Scalar

end Fluxion
