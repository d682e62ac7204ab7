import Fluxion.Expr.PassError

/-!
# Evaluation

`evaluate` works from the leaves to the root. A marker on an atom becomes one or zero, an operator
with two numbers is computed, and the identities for zero and one are applied:

    e^1 = e    e^0 = 1    e*1 = 1*e = e    e*0 = 0*e = 0
    e+0 = 0+e = e    e-0 = e    e/1 = e    0/e = 0
-/

namespace Fluxion.Expr

variable {α : Type} [Scalar α]

/-- The derivative of an atom: one for the variable itself, zero for any other atom. -/
def resolve (target : Expr α) (variableName : String) : Except (PassError α) α :=
  match target with
  | var x => .ok (if x == variableName then 1 else 0)
  | num _ => .ok 0
  | t => .error (.incomplete t.print)

/-- A computed number, unless it is not finite. -/
def finite (op : Operator) (a b v : α) : Except (PassError α) α :=
  if Scalar.isFinite v then .ok v else .error (.numeric op a b)

/-- An operator applied to two numbers. -/
def fold (op : Operator) (a b : α) : Except (PassError α) α :=
  match op with
  | .add => finite .add a b (a + b)
  | .sub => finite .sub a b (a - b)
  | .mul => finite .mul a b (a * b)
  | .div => if b == 0 then .error (.numeric .div a b) else finite .div a b (a / b)
  | .pow => finite .pow a b (Scalar.pow a b)
  | op => .error (.unsupported .evaluate op)

/-- Apply the identities for zero and one to a node. -/
def simplify (op : Operator) (l r : Expr α) : Expr α :=
  match op with
  | .pow => if r.isNumber 1 then l else if r.isNumber 0 then num 1 else bin .pow l r
  | .mul =>
    if l.isNumber 0 || r.isNumber 0 then num 0
    else if l.isNumber 1 then r
    else if r.isNumber 1 then l
    else mul l r
  | .add => if l.isNumber 0 then r else if r.isNumber 0 then l else add l r
  | .sub => if r.isNumber 0 then l else sub l r
  | .div => if r.isNumber 1 then l else if l.isNumber 0 then num 0 else div l r
  | op => bin op l r

/-- A node whose operands are evaluated. -/
def evaluateNode (op : Operator) (l r : Expr α) : Except (PassError α) (Expr α) :=
  match l, r with
  | num a, num b => (fold op a b).map num
  | l, r => .ok (simplify op l r)

/-- Resolve the markers with respect to a variable, compute and simplify. -/
def evaluate (variableName : String) : Expr α → Except (PassError α) (Expr α)
  | num v => .ok (num v)
  | var x => .ok (var x)
  | bin op l r => do
    let l' ← l.evaluate variableName
    let r' ← r.evaluate variableName
    evaluateNode op l' r'
  | pending t => (t.resolve variableName).map num
  | hole => .error (.missing .evaluate)

end Fluxion.Expr
