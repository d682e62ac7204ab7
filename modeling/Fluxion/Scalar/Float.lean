import Fluxion.Scalar
import Fluxion.Decimal.Binary64

/-!
# Floating point scalars

The scalars that the program computes with: IEEE double precision numbers. The plain text of a
number is positional whatever its size and does not tell the two zeros apart; the text inside encoded
data keeps the sign of zero and turns to scientific notation for very large and very small numbers.

A power with a whole exponent is found by repeated squaring, with the powers of two kept apart from
numbers between a half and one. Each product is rounded, so the result need not be the number that is
closest to the power: `10 ^ -23` is the number above `1e-23`.
-/

namespace Fluxion.FloatText

/-- The bits without the sign. -/
def unsignedBits (x : Float) : Nat := x.toBits.toNat % Nat.pow 2 63

/-- The sign bit is set. -/
def isSigned (x : Float) : Bool := Nat.pow 2 63 ≤ x.toBits.toNat

/-- The shortest decimal of the absolute value of a finite number other than zero. -/
def magnitude (x : Float) : Decimal := (Binary64.ofBits (unsignedBits x)).shortest

/-- The texts of the values that are not numbers of the real line. -/
def special (x : Float) : String :=
  if x.isNaN then "NaN" else if isSigned x then "-Inf" else "+Inf"

/-- Positional text with the fewest digits that read back; both zeros are `0`. -/
def plain (x : Float) : String :=
  if x == 0 then "0"
  else if x.isFinite then (if isSigned x then "-" else "") ++ (magnitude x).positional
  else special x

/-- Text for encoded data: positional from `1e-6` up to below `1e21`, scientific outside. -/
def encoded (x : Float) : String :=
  if !x.isFinite then special x
  else
    (if isSigned x then "-" else "") ++
      if x == 0 then "0"
      else
        let d := magnitude x
        if d.magnitude < -6 || 21 ≤ d.magnitude then d.scientific else d.positional

/-- The number nearest to a decimal, negated on demand; `none` when it is out of range. -/
def ofDecimal? (negative : Bool) (d : Decimal) : Option Float :=
  (Binary64.ofDecimal? d).map fun bits =>
    Float.ofBits (UInt64.ofNat (bits + if negative then Nat.pow 2 63 else 0))

end Fluxion.FloatText

namespace Fluxion

/-- A floating point number times a power of two. -/
structure ScaledFloat where
  /-- The number, from a half up to below one in its absolute value for a base. -/
  factor : Float
  /-- The power of two. -/
  exponent : Int

namespace ScaledFloat

open FloatText

/-- A finite number other than zero, without a power of two in the factor. -/
def split (x : Float) : ScaledFloat :=
  let b := Binary64.ofBits (unsignedBits x)
  let size := b.mantissa.log2 + 1
  let factor := Float.ofNat b.mantissa / Float.ofNat (Nat.pow 2 size)
  ⟨if isSigned x then -factor else factor, b.exponent + size⟩

/-- The nearest number, infinite when it is out of range. -/
def value (s : ScaledFloat) : Float :=
  let b := Binary64.ofBits (unsignedBits s.factor)
  let f := Binary64.scale b.mantissa (b.exponent + s.exponent)
  let bits := (Binary64.nearestBits? f.1 f.2).getD Binary64.infinityBits
  Float.ofBits (UInt64.ofNat (bits + if isSigned s.factor then Nat.pow 2 63 else 0))

/-- The square of a base, as a base. -/
def square (s : ScaledFloat) : ScaledFloat :=
  let factor := s.factor * s.factor
  if factor < 0.5 then ⟨factor + factor, 2 * s.exponent - 1⟩ else ⟨factor, 2 * s.exponent⟩

/-- Multiply by the power of a base whose exponent has the given binary digits, the lowest first. Once
the base is far outside the format, so is the product, whatever digits follow. -/
def timesPower (s base : ScaledFloat) : (digits : List Bool) → ScaledFloat
  | [] => s
  | digit :: digits =>
    if base.exponent < -4096 ∨ 4096 < base.exponent then ⟨s.factor, s.exponent + base.exponent⟩
    else
      let s' := if digit then ⟨s.factor * base.factor, s.exponent + base.exponent⟩ else s
      s'.timesPower base.square digits

/-- The reciprocal. -/
def inverse (s : ScaledFloat) : ScaledFloat := ⟨1 / s.factor, -s.exponent⟩

end ScaledFloat

namespace FloatPower

/-- The absolute value of a finite number, if it is a natural number below `2 ^ 63`. -/
def whole? (x : Float) : Option Nat :=
  let b := Binary64.ofBits (FloatText.unsignedBits x)
  let n? := if 0 < b.exponent then some (b.mantissa * Nat.pow 2 b.exponent.toNat) else b.whole?
  n?.filter (· < Nat.pow 2 63)

/-- The power of a finite number other than zero with a natural exponent, or its reciprocal. -/
def whole (x : Float) (n : Nat) (negative : Bool) : Float :=
  let digits := (List.range (n.log2 + 1)).map n.testBit
  let s := (⟨1, 0⟩ : ScaledFloat).timesPower (.split x) digits
  (if negative then s.inverse else s).value

/-- The power. Zeros and what is not finite, roots other than the square root and exponents from `2 ^ 63` on
are left to `Float.pow`. -/
def power (x y : Float) : Float :=
  if y == 0 || x == 1 then 1
  else if y == 1 then x
  else if x == 0 || !x.isFinite || !y.isFinite then Float.pow x y
  else if y == 0.5 then x.sqrt
  else if y == -0.5 then 1 / x.sqrt
  else
    match whole? y with
    | some n => whole x n (y < 0)
    | none => Float.pow x y

end FloatPower

instance : Scalar Float where
  zero := 0
  one := 1
  natCast := Float.ofNat
  pow := FloatPower.power
  less a b := a < b
  isFinite := Float.isFinite
  text := FloatText.plain
  ofDecimal? digits places := FloatText.ofDecimal? false ⟨digits, -(places : Int)⟩

end Fluxion
