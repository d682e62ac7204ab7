import Fluxion.Proofs.Distribute.Flat
import Fluxion.Proofs.Division
import Fluxion.Proofs.Rational

/-!
# Multiplying out in every ring

A literal exponent from one to ten stands for a repeated product in every ring, also where different
exponents have the same value; every other power may be anything that is made of the values of base and
exponent. In such a reading a tree keeps its value when it is multiplied out, as long as the exponents that
are written out were literals before. A power with the exponent one is replaced by its base, also in an
exponent: the exponent `2 ^ 1` turns into the literal `2`, and the power above it into a product.
-/

namespace Fluxion

universe u

variable {α : Type} {R : Type*}

/-- As `FieldReading`, for a ring: what quotients stand for has to be given, too. -/
structure RingReading (α : Type) (R : Type*) extends FieldReading α R where
  /-- The quotient of two values. -/
  divide : R → R → R

namespace RingReading

/-- Literal exponents from one to ten stand for repeated products, and every other one acts through its
value. -/
structure RepeatsProducts [Scalar α] [Monoid R] (F : RingReading α R) : Prop where
  small (b : R) {e : α} {k : ℕ} : 1 ≤ k → k ≤ 10 → (e == (k : α)) = true → F.literalPower b e = b ^ k
  other (b : R) {e : α} : ¬(Expr.num e).IsSmallInteger → F.literalPower b e = F.power b (F.number e)

/-- The reading in which literal exponents do so. -/
def repeating [Scalar α] [Monoid R] (F : RingReading α R) : RingReading α R where
  toFieldReading := { F.toFieldReading with
    literalPower := fun b e => (Scalar.smallPower? e).elim (F.power b (F.number e)) (b ^ ·) }
  divide := F.divide

/-- Numbers, names and powers can be read in any way. -/
theorem repeatsProducts_repeating [ExactScalar α] [Monoid R] (F : RingReading α R) :
    F.repeating.RepeatsProducts where
  small b {e} {k} hpos hmax heq := by
    have hsmall : Scalar.smallPower? e = some k := by
      rw [ExactScalar.smallPower?_eq_some_iff]
      exact ⟨⟨hpos, hmax⟩, ((ExactScalar.beq_iff _ _).mp heq).trans (ExactScalar.value_natCast k)⟩
    show (Scalar.smallPower? e).elim _ _ = _
    rw [hsmall]
    rfl
  other b {e} hother := by
    have hnone : Scalar.smallPower? e = none := by
      rw [Expr.isSmallInteger_num_iff, ← Option.isSome_iff_exists, Option.not_isSome_iff_eq_none] at hother
      exact hother
    show (Scalar.smallPower? e).elim _ _ = _
    rw [hnone]
    rfl

end RingReading

namespace Expr

/-- The value of an expression in a ring. -/
def valueOver [Ring R] (F : RingReading α R) : Expr α → R
  | num v => F.number v
  | var x => F.named x
  | bin .add l r => l.valueOver F + r.valueOver F
  | bin .sub l r => l.valueOver F - r.valueOver F
  | bin .mul l r => l.valueOver F * r.valueOver F
  | bin .div l r => F.divide (l.valueOver F) (r.valueOver F)
  | bin .pow l (num e) => F.literalPower (l.valueOver F) e
  | bin .pow l r => F.power (l.valueOver F) (r.valueOver F)
  | bin (.other c) l r => F.unknown c (l.valueOver F) (r.valueOver F)
  | pending t => F.marked t
  | hole => 0

/-! ## Exponents that turn into literals -/

section Literals

variable [Scalar α]

/-- The literal that is left of a tree when powers with the exponent one are replaced by their bases. -/
def literal? : Expr α → Option α
  | num v => some v
  | bin .pow l r => if r.literal?.any (· == ((1 : ℕ) : α)) then l.literal? else none
  | _ => none

/-- The tree is no literal, and yet a literal from one to ten is left of it. -/
def HidesSmallInteger (r : Expr α) : Prop :=
  (∀ v, r ≠ num v) ∧ ∃ v, r.literal? = some v ∧ (num v).IsSmallInteger

/-- Outside of divisors, no exponent hides a literal from one to ten. -/
def ShowsExponents : (inDivisor : Bool) → Expr α → Prop
  | _, num _ => True
  | _, var _ => True
  | d, bin op l r =>
    (op = .pow → d = false → ¬r.HidesSmallInteger) ∧ l.ShowsExponents d ∧
      r.ShowsExponents (d || op = .div)
  | d, pending t => t.ShowsExponents d
  | _, hole => True

theorem smallPower?_eq_one_iff {e : α} :
    Scalar.smallPower? e = some 1 ↔ (e == ((1 : ℕ) : α)) = true := by
  refine ⟨fun h => (Scalar.smallPower?_eq_some h).2, fun h => ?_⟩
  exact List.find?_cons_of_pos h

omit [Scalar α] in
theorem distributeProduct_ne_num (l r : Expr α) (v : α) : distributeProduct l r ≠ num v := by
  fun_cases distributeProduct l r with
  | case1 => simp
  | case2 => simp
  | case3 => fun_cases distributeRight l r <;> simp

/-- Multiplying out a node gives a literal exactly for a literal with the exponent one, outside of divisors. -/
theorem distributeNode_eq_num_iff {d : Bool} {op : Operator} {l r : Expr α} {v : α} :
    distributeNode d op l r = num v ↔
      d = false ∧ op = .pow ∧ l = num v ∧ ∃ e, r = num e ∧ (e == ((1 : ℕ) : α)) = true := by
  fun_cases distributeNode d op l r with
  | case1 =>
    refine iff_of_false (distributeProduct_ne_num _ _ v) ?_
    rintro ⟨-, hop, -⟩
    cases hop
  | case2 e k hk =>
    obtain _ | _ | k := k
    · exact absurd (Scalar.smallPower?_eq_some hk).1.1 (by decide)
    · exact ⟨fun h => ⟨rfl, rfl, h, e, rfl, smallPower?_eq_one_iff.mp hk⟩, fun h => h.2.2.1⟩
    · refine iff_of_false (distributeProduct_ne_num _ _ v) ?_
      rintro ⟨-, -, -, e', he', hone⟩
      cases he'
      simp [smallPower?_eq_one_iff.mpr hone] at hk
  | case3 _ e hk =>
    refine iff_of_false (by simp) ?_
    rintro ⟨hd, -, -, e', he', hone⟩
    cases he'
    exact hk 1 hd (smallPower?_eq_one_iff.mpr hone)
  | case4 _ _ _ _ hpow =>
    refine iff_of_false (by simp) ?_
    rintro ⟨-, hop, -, e, he, -⟩
    exact hpow e hop he

/-- What is left of a tree outside of divisors when it is multiplied out is a literal if it is one at all. -/
theorem distributeIn_eq_num_iff {e e' : Expr α} (h : e.distributeIn false = .ok e') (v : α) :
    e' = num v ↔ e.literal? = some v := by
  induction e generalizing e' v with
  | num w =>
    cases h
    simp [literal?]
  | var x =>
    cases h
    simp [literal?]
  | bin op l r ihl ihr =>
    obtain ⟨l', r', hl, hr, rfl⟩ := distributeIn_bin h
    rw [distributeNode_eq_num_iff]
    constructor
    · rintro ⟨-, rfl, hbase, e, hexponent, hone⟩
      rw [literal?, (ihr hr e).mp hexponent, Option.any_some, if_pos hone]
      exact (ihl hl v).mp hbase
    · intro hliteral
      cases op with
      | pow =>
        rw [literal?] at hliteral
        split at hliteral
        case isTrue hany =>
          obtain ⟨e, hexponent, hone⟩ := (Option.any_eq_true _ _).mp hany
          exact ⟨rfl, rfl, (ihl hl v).mpr hliteral, e, (ihr hr e).mpr hexponent, hone⟩
        case isFalse => cases hliteral
      | _ => cases hliteral
  | pending t =>
    obtain ⟨t', -, rfl⟩ := distributeIn_pending h
    exact iff_of_false (by simp) (by simp [literal?])
  | hole => cases h

/-- Inside a divisor no power is written out, and only literals give literals. -/
theorem distributeIn_true_eq_num_iff {e e' : Expr α} (h : e.distributeIn true = .ok e') (v : α) :
    e' = num v ↔ e = num v := by
  cases e with
  | num w => cases h; rfl
  | var x => cases h; rfl
  | bin op l r =>
    obtain ⟨l', r', -, -, rfl⟩ := distributeIn_bin h
    rw [distributeNode_eq_num_iff]
    exact iff_of_false (by simp) (by simp)
  | pending t =>
    obtain ⟨t', -, rfl⟩ := distributeIn_pending h
    exact iff_of_false (by simp) (by simp)
  | hole => cases h

/-- An exponent that hides nothing is a small integer after it has been multiplied out if it was one
before. -/
theorem isSmallInteger_of_distributeIn {d : Bool} {r r' : Expr α} (h : r.distributeIn d = .ok r')
    (hshown : d = false → ¬r.HidesSmallInteger) (hsmall : r'.IsSmallInteger) : r.IsSmallInteger := by
  obtain ⟨e, k, rfl, hk⟩ := id hsmall
  have hliteral : ∃ v, r = num v := by
    cases d with
    | true => exact ⟨e, (distributeIn_true_eq_num_iff h e).mp rfl⟩
    | false =>
      by_contra hnone
      exact hshown rfl ⟨not_exists.mp hnone, e, (distributeIn_eq_num_iff h e).mp rfl, hsmall⟩
  obtain ⟨v, rfl⟩ := hliteral
  cases h
  exact hsmall

end Literals

/-! ## The value stays the same -/

section Value

variable [Ring R] (F : RingReading α R)

theorem ringValue_valueOver : RingValue (valueOver F) where
  add _ _ := rfl
  sub _ _ := rfl
  mul _ _ := rfl

variable {F} [Scalar α] (hF : F.RepeatsProducts)

include hF

/-- A power whose exponent is no small integer depends on the values of its operands only. -/
theorem valueOver_pow {l r : Expr α} (h : ¬r.IsSmallInteger) :
    (bin .pow l r).valueOver F = F.power (l.valueOver F) (r.valueOver F) := by
  cases r with
  | num e => exact hF.other _ h
  | _ => rfl

theorem valueOver_distributeIn {d : Bool} {e e' : Expr α} (hmark : e.MarkerFree)
    (hshown : e.ShowsExponents d) (h : e.distributeIn d = .ok e') : e'.valueOver F = e.valueOver F := by
  induction e generalizing d e' with
  | num v => cases h; rfl
  | var x => cases h; rfl
  | bin op l r ihl ihr =>
    obtain ⟨l', r', hdl, hdr, rfl⟩ := distributeIn_bin h
    obtain ⟨hop, hsl, hsr⟩ := hshown
    have hl : l'.valueOver F = l.valueOver F := ihl hmark.1 hsl hdl
    have hr : r'.valueOver F = r.valueOver F := ihr hmark.2 hsr hdr
    have hnode : (distributeNode d op l' r').valueOver F = (bin op l' r').valueOver F := by
      refine (ringValue_valueOver F).distributeNode fun e k hk => ?_
      obtain ⟨⟨hpos, hmax⟩, heq⟩ := Scalar.smallPower?_eq_some hk
      exact hF.small _ hpos hmax heq
    rw [hnode]
    cases op with
    | pow =>
      rw [show (d || decide (Operator.pow = .div)) = d by simp] at hdr
      by_cases hsmall : r.IsSmallInteger
      · obtain ⟨v, -, rfl, -⟩ := hsmall
        cases hdr
        rw [valueOver, valueOver, hl]
      · have hsmall' : ¬r'.IsSmallInteger := fun h =>
          hsmall (isSmallInteger_of_distributeIn hdr (hop rfl) h)
        rw [valueOver_pow hF hsmall, valueOver_pow hF hsmall', hl, hr]
    | _ => simp only [valueOver, hl, hr]
  | pending t => exact hmark.elim
  | hole => cases h

end Value

/-- A tree without holes and markers can be multiplied out. If outside of divisors no exponent hides a literal
from one to ten, the tree keeps its value in every ring, commutative or not, whatever quotients and all powers
but those with a literal exponent from one to ten stand for. -/
theorem exists_distribute_valueOver_eq [Scalar α] (n : Expr α) (hwhole : n.isWhole = true)
    (hmark : n.MarkerFree) :
    ∃ e, n.distribute = .ok e ∧ (n.ShowsExponents false →
      ∀ (R : Type u) [Ring R] (F : RingReading α R), F.RepeatsProducts →
        e.valueOver F = n.valueOver F) := by
  obtain ⟨e, he⟩ := exists_distributeIn hwhole false
  exact ⟨e, he, fun hshown R _ F hF => valueOver_distributeIn hF hmark hshown he⟩

section Rational

open scoped Rational

/-- Matrices over the integers modulo three, in which the literals `3` and `0` have the same value. A power
with any other exponent than a literal from one to ten is the product of its exponent and its base. -/
def matricesModuloThree : RingReading ℚ (Matrix (Fin 2) (Fin 2) (ZMod 3)) :=
  RingReading.repeating
    { number := fun q => (q : ZMod 3) • 1
      named := fun x => if x = "x" then !![0, 1; 0, 0] else !![0, 0; 1, 0]
      literalPower := fun b _ => b
      power := fun b v => v * b
      unknown := fun _ a _ => a
      marked := fun _ => 0
      divide := fun a b => a + b }

/-- The matrices of `x` and `y` do not commute: both squares are zero, and yet the product of the sum and the
difference is not. In the divisor stands a power that is not written out, its exponent being no literal. -/
theorem exists_distribute_valueOver_eq_matrices :
    let divided : Expr ℚ := div (num 3) (bin .pow (var "y") (pow (num 2) 1))
    let n : Expr ℚ := sub (mul (pow (add (var "x") (var "y")) 2) (sub (var "x") (var "y"))) divided
    let product (a b : String) : Expr ℚ :=
      sub (mul (mul (var a) (var b)) (var "x")) (mul (mul (var a) (var b)) (var "y"))
    let e : Expr ℚ := sub (add (add (product "x" "x") (product "x" "y"))
      (add (product "y" "x") (product "y" "y"))) divided
    (n.isWhole = true ∧ n.MarkerFree ∧ n.ShowsExponents false ∧ matricesModuloThree.RepeatsProducts) ∧
      n.distribute = .ok e ∧ e.valueOver matricesModuloThree = n.valueOver matricesModuloThree ∧
      n.valueOver matricesModuloThree = !![0, 1; 0, 0] := by
  intro divided n product e
  have hmark : n.MarkerFree := by simp [n, divided]
  have hshown : n.ShowsExponents false := by
    simp [n, divided, ShowsExponents, HidesSmallInteger]
  have hF : matricesModuloThree.RepeatsProducts := RingReading.repeatsProducts_repeating _
  have hdistribute : n.distribute = .ok e := by decide +kernel
  obtain ⟨e', he', hvalue⟩ := exists_distribute_valueOver_eq n rfl hmark
  cases hdistribute.symm.trans he'
  exact ⟨⟨rfl, hmark, hshown, hF⟩, hdistribute, hvalue hshown _ _ hF, by decide +kernel⟩

/-- An exponent that turns into the literal `2` makes a product of a power that need not be one. -/
theorem valueOver_ne_of_hidden_exponent :
    let n : Expr ℚ := bin .pow (var "x") (pow (num 2) 1)
    let F : RingReading ℚ ℤ := RingReading.repeating
      { number := fun q => q.num, named := fun _ => 1, literalPower := fun b _ => b, power := fun _ _ => 5,
        unknown := fun _ a _ => a, marked := fun _ => 0, divide := fun a _ => a }
    (n.isWhole = true ∧ n.MarkerFree ∧ F.RepeatsProducts) ∧
      n.distribute = .ok (mul (var "x") (var "x")) ∧
      (mul (var "x") (var "x") : Expr ℚ).valueOver F = 1 ∧ n.valueOver F = 5 := by
  intro n F
  exact ⟨⟨rfl, by simp [n], RingReading.repeatsProducts_repeating _⟩, by decide +kernel, rfl, rfl⟩

end Rational

end Expr

end Fluxion
