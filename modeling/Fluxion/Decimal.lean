/-!
# Decimal numbers

A non-negative decimal number `digits * 10 ^ exponent` and its two layouts: positional, with as many
zeros as it takes, and scientific, with one digit before the point.
-/

namespace Fluxion

/-- The number `digits * 10 ^ exponent`. -/
structure Decimal where
  /-- The significant digits, read as one natural number. -/
  digits : Nat
  /-- The power of ten that scales them. -/
  exponent : Int
deriving DecidableEq, Repr

namespace Decimal

/-- The digits of a natural number, most significant first. -/
def digitString (n : Nat) : String := String.ofList (Nat.toDigits 10 n)

/-- A run of zeros. -/
def zeros (n : Nat) : String := String.ofList (List.replicate n '0')

/-- How many digits the number is written with. -/
def width (d : Decimal) : Nat := (Nat.toDigits 10 d.digits).length

/-- The power of ten of the leading digit. -/
def magnitude (d : Decimal) : Int := d.exponent + d.width - 1

/-- Drop up to `fuel` trailing zeros of the digits; the number stays the same. -/
def trim : (fuel : Nat) → Decimal → Decimal
  | 0, d => d
  | fuel + 1, d =>
    if d.digits != 0 && d.digits % 10 == 0 then trim fuel ⟨d.digits / 10, d.exponent + 1⟩ else d

/-- The digits with zeros up to the point, or a point among or before them. -/
def positional (d : Decimal) : String :=
  if 0 ≤ d.exponent then
    digitString d.digits ++ zeros d.exponent.toNat
  else
    let places := (-d.exponent).toNat
    let digits := Nat.toDigits 10 d.digits
    if places < digits.length then
      String.ofList (digits.take (digits.length - places)) ++ "." ++
        String.ofList (digits.drop (digits.length - places))
    else
      "0." ++ zeros (places - digits.length) ++ String.ofList digits

/-- One digit, the others after a point, and the signed power of ten without padding. -/
def scientific (d : Decimal) : String :=
  let fraction := (Nat.toDigits 10 d.digits).drop 1
  let power := d.magnitude
  String.ofList ((Nat.toDigits 10 d.digits).take 1) ++
    (if fraction.isEmpty then "" else "." ++ String.ofList fraction) ++ "e" ++
    (if power < 0 then "-" else "+") ++ digitString power.natAbs

end Decimal

end Fluxion
