import Fluxion.Decimal

/-!
# Decimal numbers and binary floating point

The two directions between decimal numbers and the 64 bit floating point format: `nearestBits?` rounds a
fraction to the closest number of the format, ties going to the even one, and `shortest` finds the
decimal with the fewest digits that is rounded back to a given number, the closest such decimal if
there are several. Both compute with natural numbers only, so neither rounds on the way.
-/

namespace Fluxion

/-- The quotient rounded to the nearest natural number, a half going to the even neighbour. -/
def roundQuotient (numerator denominator : Nat) : Nat :=
  let q := numerator / denominator
  let r := numerator % denominator
  if denominator < 2 * r then q + 1
  else if 2 * r == denominator then q + q % 2
  else q

/-- A finite, non-negative number of the format: `mantissa * 2 ^ exponent`. -/
structure Binary64 where
  /-- The integer mantissa, below `2 ^ 53`. -/
  mantissa : Nat
  /-- The power of two that scales it. -/
  exponent : Int
  /-- The number just below is half as far away as the number just above. -/
  narrowBelow : Bool

namespace Binary64

/-- Bits of the smallest pattern that is not a finite number. -/
def infinityBits : Nat := 0x7FF * Nat.pow 2 52

/-- The number that a pattern without its sign bit stands for. -/
def ofBits (bits : Nat) : Binary64 :=
  let biased : Nat := bits / Nat.pow 2 52 % Nat.pow 2 11
  let fraction := bits % Nat.pow 2 52
  if biased == 0 then ⟨fraction, -1074, false⟩
  else ⟨Nat.pow 2 52 + fraction, (biased : Int) - 1075, fraction == 0 && biased != 1⟩

/-- `n * 2 ^ e` as a fraction. -/
def scale (n : Nat) (e : Int) : Nat × Nat := (n * Nat.pow 2 e.toNat, Nat.pow 2 (-e).toNat)

/-- The power of two of the leading bit of a positive fraction. -/
def binaryMagnitude (numerator denominator : Nat) : Int :=
  let e : Int := (numerator.log2 : Int) - denominator.log2
  if numerator * Nat.pow 2 (-e).toNat < denominator * Nat.pow 2 e.toNat then e - 1 else e

/-- The bits of the number closest to a fraction, or `none` if it is beyond the largest one. The
leading bit of the mantissa adds one to the exponent field, which is why a plain sum of the two
fields gives the right pattern, also when rounding carries into the next power of two. -/
def nearestBits? (numerator denominator : Nat) : Option Nat :=
  if numerator == 0 then some 0 else
    let e := max (binaryMagnitude numerator denominator - 52) (-1074)
    let mantissa :=
      roundQuotient (numerator * Nat.pow 2 (-e).toNat) (denominator * Nat.pow 2 e.toNat)
    let bits := (e + 1074).toNat * Nat.pow 2 52 + mantissa
    if bits < infinityBits then some bits else none

/-- The bits of the number closest to a decimal. Decimals whose leading digit is far outside the
format are settled before any power of ten is formed. -/
def ofDecimal? (d : Decimal) : Option Nat :=
  if d.digits == 0 then some 0
  else if 310 < d.magnitude then none
  else if d.magnitude < -330 then some 0
  else nearestBits? (d.digits * Nat.pow 10 d.exponent.toNat) (Nat.pow 10 (-d.exponent).toNat)

/-- Compare `a * 10 ^ i` with `b * 2 ^ j`, exactly. -/
def compareScaled (a : Nat) (i : Int) (b : Nat) (j : Int) : Ordering :=
  compare (a * Nat.pow 10 i.toNat * Nat.pow 2 (-j).toNat)
    (b * Nat.pow 2 j.toNat * Nat.pow 10 (-i).toNat)

/-- The decimal is one of those that are rounded to this number: it lies between the midpoints to
the two neighbours, and the midpoints count when the mantissa is even. -/
def readsBack (x : Binary64) (d : Decimal) : Bool :=
  let low := if x.narrowBelow then 4 * x.mantissa - 1 else 4 * x.mantissa - 2
  let high := 4 * x.mantissa + 2
  let closed := x.mantissa % 2 == 0
  let toLow := compareScaled d.digits d.exponent low (x.exponent - 2)
  let toHigh := compareScaled d.digits d.exponent high (x.exponent - 2)
  (toLow == .gt || (closed && toLow == .eq)) && (toHigh == .lt || (closed && toHigh == .eq))

/-- The power of ten of the leading digit of a positive number. The binary magnitude fixes it up to
one, and the candidates are tried from above. -/
def decimalMagnitude (x : Binary64) : Int :=
  let f := scale x.mantissa x.exponent
  let guess := (binaryMagnitude f.1 f.2 * 30103).fdiv 100000
  let below (k : Int) : Bool := compareScaled 1 k x.mantissa x.exponent != .gt
  if below (guess + 1) then guess + 1 else if below guess then guess else guess - 1

/-- The decimals on the grid of `10 ^ power` just below and just above the number; the closer one
that reads back, an even digit deciding between two at the same distance. -/
def onGrid? (x : Binary64) (power : Int) : Option Decimal :=
  let f := scale x.mantissa x.exponent
  let numerator := f.1 * Nat.pow 10 (-power).toNat
  let denominator := f.2 * Nat.pow 10 power.toNat
  let q := numerator / denominator
  let lower : Decimal := ⟨q, power⟩
  let upper : Decimal := ⟨q + 1, power⟩
  match q != 0 && x.readsBack lower, x.readsBack upper with
  | true, true => some ⟨roundQuotient numerator denominator, power⟩
  | true, false => some lower
  | false, true => some upper
  | false, false => none

/-- The number as a natural number, if it is one below `2 ^ 53`. -/
def whole? (x : Binary64) : Option Nat :=
  if x.exponent ≤ 0 then
    let unit := Nat.pow 2 (-x.exponent).toNat
    if x.mantissa % unit == 0 then some (x.mantissa / unit) else none
  else none

/-- The decimal with the fewest digits that reads back as a positive number, found by trying one digit
more at a time. Seventeen digits are always enough; were they not, the exact value would be the
answer. -/
def search (x : Binary64) : Decimal :=
  let top := x.decimalMagnitude
  let exact : Decimal :=
    if 0 ≤ x.exponent then ⟨x.mantissa * Nat.pow 2 x.exponent.toNat, 0⟩
    else ⟨x.mantissa * Nat.pow 5 (-x.exponent).toNat, x.exponent⟩
  let found := (List.range 17).findSome? fun (i : Nat) => x.onGrid? (top - (i : Int))
  found.getD exact

/-- The decimal with the fewest digits that reads back as a positive number. Up to `2 ^ 53` the numbers of
the format are at most one apart, so no other natural number is rounded to a natural number below that,
and its own digits are the fewest. -/
def shortest (x : Binary64) : Decimal :=
  match x.whole? with
  | some n => (⟨n, 0⟩ : Decimal).trim 400
  | none => x.search.trim 400

end Binary64

end Fluxion
