import Fluxion.Expr.PassError

/-!
# The rules of differentiation

`derive depth e` applies the sum, difference, product, quotient and power rules to the topmost
`depth` layers of `e`. What lies deeper, and every atom, goes under a marker.
-/

namespace Fluxion.Expr

variable {α : Type} [Scalar α]

/-- The product rule, from the derivatives `dl` and `dr` of the factors. -/
def productRule (l r dl dr : Expr α) : Expr α := add (mul dl r) (mul l dr)

/-- The quotient rule. -/
def quotientRule (l r dl dr : Expr α) : Expr α :=
  div (sub (mul dl r) (mul l dr)) (pow r Scalar.two)

/-- The power rule for a literal exponent. -/
def powerRule (base : Expr α) (exponent : α) (d : Expr α) : Expr α :=
  mul (mul (num exponent) (pow base (exponent - 1))) d

/-- Push the derivative `depth` layers into the tree. -/
def derive (depth : Int) : Expr α → Except (PassError α) (Expr α)
  | num v => .ok (pending (num v))
  | var x => .ok (pending (var x))
  | bin op l r =>
    if depth ≤ 0 then .ok (pending (bin op l r))
    else do
      let dl ← l.derive (depth - 1)
      match op, r with
      | .pow, num e => return powerRule l e dl
      | .pow, _ => .error (.unsupported .derive .pow)
      | op, r =>
        let dr ← r.derive (depth - 1)
        match op with
        | .add => return add dl dr
        | .sub => return sub dl dr
        | .mul => return productRule l r dl dr
        | .div => return quotientRule l r dl dr
        | op => .error (.unsupported .derive op)
  | pending t => if depth ≤ 0 then .ok (pending (pending t)) else .error (.noRule .derive)
  | hole => if depth ≤ 0 then .ok (pending hole) else .error (.missing .derive)

end Fluxion.Expr
