import Fluxion.Expr.PassError

/-!
# Distributing products over sums

`distribute` multiplies out: products of sums become sums of products, and a power with an exponent
from one to ten becomes a repeated product first. Powers inside a divisor stay as they are, so that
the square which the quotient rule puts there remains a square.
-/

namespace Fluxion.Expr

variable {α : Type} [Scalar α]

/-- The product of `l` with the summands of `r`, for an `l` that is not a sum. -/
def distributeRight (l : Expr α) : Expr α → Expr α
  | bin .add a b => bin .add (distributeRight l a) (distributeRight l b)
  | bin .sub a b => bin .sub (distributeRight l a) (distributeRight l b)
  | r => mul l r

/-- The product of the summands of two expressions that are multiplied out themselves. -/
def distributeProduct (l r : Expr α) : Expr α :=
  match l with
  | bin .add a b => bin .add (distributeProduct a r) (distributeProduct b r)
  | bin .sub a b => bin .sub (distributeProduct a r) (distributeProduct b r)
  | l => distributeRight l r

/-- The product of `n + 1` copies of `base`. -/
def distributePower (base : Expr α) : (n : Nat) → Expr α
  | 0 => base
  | n + 1 => distributeProduct (distributePower base n) base

/-- Multiply out one node whose operands are multiplied out. -/
def distributeNode (inDivisor : Bool) (op : Operator) (l r : Expr α) : Expr α :=
  match op, r with
  | .mul, r => distributeProduct l r
  | .pow, num e =>
    match inDivisor, Scalar.smallPower? e with
    | false, some k => distributePower l (k - 1)
    | _, _ => bin .pow l (num e)
  | op, r => bin op l r

/-- Multiply out, inside a divisor or outside of all of them. -/
def distributeIn (inDivisor : Bool) : Expr α → Except (PassError α) (Expr α)
  | num v => .ok (num v)
  | var x => .ok (var x)
  | bin op l r => do
    let l' ← l.distributeIn inDivisor
    let r' ← r.distributeIn (inDivisor || op = .div)
    return distributeNode inDivisor op l' r'
  | pending t => return pending (← t.distributeIn inDivisor)
  | hole => .error (.missing .distribute)

/-- Multiply out products of sums and small powers. -/
def distribute (e : Expr α) : Except (PassError α) (Expr α) := e.distributeIn false

end Fluxion.Expr
