import Fluxion.Proofs.Derive
import Fluxion.Proofs.Rational
import Fluxion.Proofs.Shape

/-!
# Every depth is right

The rules cover arithmetic at every depth, and whatever the depth, the tree that they produce is a true
equation when its markers are read as derivatives. The power rule at exponent zero writes down a power
that need not exist. It stands to the right of the zero, and the value of the tree does not depend on
what is put in its place.
-/

namespace Fluxion

open ExactScalar

variable {α : Type} [ExactScalar α]

/-- As `resolvedAt`, with `undefined` for quotients by zero and for negative powers of zero. -/
noncomputable def resolvedWith (undefined : ℚ → ℚ → ℚ) (ρ : String → ℚ) (x : String) :
    Interpretation α ℚ :=
  { resolvedAt ρ x with
    divide := fun a b => if b = 0 then undefined a b else a / b
    power := fun b e => if b = 0 ∧ e < 0 then undefined b e else b ^ e.num }

namespace Expr

/-- The value of a tree at a point, a marker being the derivative of its target with respect to `x` and
`undefined` standing in for what does not exist. -/
noncomputable def resolvedValue (undefined : ℚ → ℚ → ℚ) (ρ : String → ℚ) (x : String) (e : Expr α) : ℚ :=
  e.denote (resolvedWith undefined ρ x)

variable {ρ : String → ℚ} {x : String}

/-- Where nothing is undefined except to the right of a literal zero, the value does not depend on the
undefined. -/
theorem Guarded.resolvedValue_eq {e : Expr α} (h : e.Guarded ρ x) (undefined : ℚ → ℚ → ℚ) :
    e.resolvedValue undefined ρ x = e.denote (resolvedAt ρ x) := by
  rw [resolvedValue]
  induction e with
  | num v => rfl
  | var y => rfl
  | bin op l r ihl ihr =>
    rcases h with ⟨rfl, hzero⟩ | ⟨⟨hdiv, hpow⟩, hgl, hgr⟩
    · cases l with
      | num c =>
        have hc : value c = 0 := (beq_zero_iff c).mp hzero
        show value c * _ = value c * _
        rw [hc, zero_mul, zero_mul]
      | var y => cases hzero
      | bin op l r => cases hzero
      | pending t => cases hzero
      | hole => cases hzero
    · have hl := ihl hgl
      have hr := ihr hgr
      cases op with
      | add => rw [denote, denote, hl, hr]
      | sub => rw [denote, denote, hl, hr]
      | mul => rw [denote, denote, hl, hr]
      | div =>
        rw [denote, denote, hl, hr]
        exact if_neg (hdiv rfl)
      | pow =>
        rw [denote, denote, hl, hr]
        exact if_neg fun hundefined => hpow rfl hundefined.2 hundefined.1
      | other c => rfl
  | pending t ih => rfl
  | hole => rfl

/-- At every depth the rules turn arithmetic with integer exponents into a tree that has the derivative
as its value, a marker being the derivative of its target, wherever no divisor and no base of a negative
power is zero. Nothing in that tree is undefined except to the right of a literal zero, so its value is
the same whatever the undefined is taken to be. -/
theorem exists_derive_resolvedValue_eq (n : Expr α) (d : ℤ) (x : String) (ρ : String → ℚ)
    (hn : n.Arithmetic) (hint : n.IntegerPowers) (hpole : n.PoleFree ρ) :
    ∃ m, n.derive d = .ok m ∧ m.Guarded ρ x ∧
      ∀ undefined, m.resolvedValue undefined ρ x = n.derivativeAt ρ x := by
  obtain ⟨m, hm⟩ := hn.exists_derive d
  obtain ⟨hvalue, hguarded, -⟩ := derive_sound (x := x) hn.markerFree hint hpole hm
  refine ⟨m, hm, hguarded, fun undefined => ?_⟩
  rw [hguarded.resolvedValue_eq, hvalue]

section Rational

open scoped Rational

/-- A quotient by a power, less a power with exponent zero of a base that is zero, derived until the
rule for the latter has been used. The power with a negative exponent that is undefined there stands to the
right of a zero. -/
theorem exists_derive_resolvedValue_eq_quotient :
    let base : Expr ℚ := sub (var "x") (num 2)
    let n : Expr ℚ := sub (div (var "y") (pow (var "x") 2)) (mul (var "y") (pow base 0))
    let quotient : Expr ℚ := div (sub (mul (pending (var "y")) (pow (var "x") 2))
      (mul (var "y") (mul (mul (num 2) (pow (var "x") 1)) (pending (var "x"))))) (pow (pow (var "x") 2) 2)
    let product : Expr ℚ := add (mul (pending (var "y")) (pow base 0))
      (mul (var "y") (mul (mul (num 0) (pow base (-1))) (pending base)))
    let ρ : String → ℚ := fun z => if z = "x" then 2 else 3
    n.derive 3 = .ok (sub quotient product) ∧ (sub quotient product).Guarded ρ "x" ∧
      ∀ undefined, (sub quotient product).resolvedValue undefined ρ "x" = -3 / 4 := by
  intro base n quotient product ρ
  have hderive : n.derive 3 = .ok (sub quotient product) := by decide +kernel
  obtain ⟨m, hm, hguarded, hvalue⟩ := exists_derive_resolvedValue_eq n 3 "x" ρ
    (.join (by decide) (.join (by decide) (.var _) (.power (.var _)))
      (.join (by decide) (.var _) (.power (.join (by decide) (.var _) (.num _)))))
    (by decide +kernel) (by decide +kernel)
  cases hderive.symm.trans hm
  refine ⟨hderive, hguarded, fun undefined => (hvalue undefined).trans ?_⟩
  have htwo : integer (2 : ℚ) = 2 := integer_of_value_eq rfl
  have hzero : integer (0 : ℚ) = 0 := integer_of_value_eq rfl
  have hy : "y" ≠ "x" := by decide
  rw [derivativeAt_sub, derivativeAt_div _ _ _ _ (by decide +kernel), derivativeAt_mul,
    derivativeAt_pow _ _ _ _ (by decide +kernel), derivativeAt_pow _ _ _ _ (by decide +kernel)]
  simp only [derivativeAt_var, valueAt_var, valueAt_pow, htwo, hzero]
  norm_num [hy, ρ]

end Rational

end Expr

end Fluxion
