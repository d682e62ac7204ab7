import Fluxion.Term.Algebra
import Fluxion.Expr.Distribute
import Fluxion.Expr.Division

/-!
# Expressions as sums of terms

`Expr.decompose` flattens an expression without quotients and markers into terms. A power of something
that groups to a single term is that term raised to the exponent; a power of any other sum becomes a
factor with a composite key. `Expr.canonicalTerms` multiplies out and removes quotients first, and
merges like terms afterwards.
-/

namespace Fluxion

variable {α : Type} [Scalar α]

/-- A sum of terms raised to an exponent. -/
def Terms.pow (base : List (Term α)) (exponent : α) : Except (PassError α) (List (Term α)) :=
  match Terms.group base with
  | [] => if Scalar.isPositive exponent then .ok [] else .error (.numeric .pow 0 exponent)
  | [t] => (t.pow exponent).map fun u => [u]
  | ts => .ok [Term.ofFactors 1 [⟨.composite ts, exponent⟩]]

/-- The product of two sums of terms, left factors first. -/
def Terms.mul (ts us : List (Term α)) : List (Term α) :=
  ts.flatMap fun t => us.map fun u => t.mul u

/-- The terms whose sum is the expression. -/
def Expr.decompose : Expr α → Except (PassError α) (List (Term α))
  | .num v => .ok [.constant v]
  | .var x => .ok [.ofFactors 1 [⟨.atom x, 1⟩]]
  | .bin op l r => do
    let ts ← l.decompose
    match op, r with
    | .pow, .num e => Terms.pow ts e
    | .pow, _ => .error (.unsupported .decompose .pow)
    | op, r =>
      let us ← r.decompose
      match op with
      | .add => return ts ++ us
      | .sub => return ts ++ us.map Term.neg
      | .mul => return Terms.mul ts us
      | op => .error (.unsupported .decompose op)
  | .pending _ => .error (.noRule .decompose)
  | .hole => .error (.missing .decompose)

/-- The grouped terms of an expression that is multiplied out and freed of quotients. -/
def Expr.canonicalTerms (e : Expr α) : Except (PassError α) (List (Term α)) := do
  let expanded ← e.distribute
  let undivided ← expanded.removeDivision
  let ts ← undivided.decompose
  return Terms.group ts

end Fluxion
