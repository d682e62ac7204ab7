import Fluxion.Proofs.Division
import Fluxion.Proofs.Rational

/-!
# Quotients and inverse powers in every field

All that quotients need of powers is that an opposite exponent stands for the inverse and the exponent one
for the base itself. Whatever else powers may be, removing quotients from a tree and restoring them keeps
its value, in every field. The inverse of zero is zero as usual, so nothing has to be excluded.
-/

namespace Fluxion

variable {α : Type} {K : Type*}

/-- Literal powers in a field: the opposite exponent gives the inverse, the exponent one the base. -/
structure FieldReading.Reciprocal [Scalar α] [Field K] (F : FieldReading α K) : Prop where
  number_one : F.number 1 = 1
  power_one (b : K) : F.literalPower b 1 = b
  power_neg (b : K) (e : α) : F.literalPower b (-e) = (F.literalPower b e)⁻¹
  /-- Exponents that compare equal to minus one are minus one. -/
  power_of_beq (b : K) {e : α} : (e == -1) = true → F.literalPower b e = F.literalPower b (-1)

theorem FieldReading.Reciprocal.inverts [Scalar α] [Field K] {F : FieldReading α K}
    (hF : F.Reciprocal) : F.Inverts where
  number_one := hF.number_one
  power_minus_one b := by rw [hF.power_neg, hF.power_one]
  power_of_beq b _ he := by rw [hF.power_of_beq b he, hF.power_neg, hF.power_one]
  power_of_negative b _ _ := by rw [hF.power_neg, inv_inv]

namespace Expr

/-- There is no quotient in the tree. -/
def QuotientFree (e : Expr α) : Prop := e.EveryNode fun op _ _ => op ≠ .div

/-- Without markers and missing operands every quotient can be removed. -/
theorem exists_removeDivision [Scalar α] {e : Expr α} (hwhole : e.isWhole = true)
    (hmarker : e.MarkerFree) : ∃ e', e.removeDivision = .ok e' ∧ e'.QuotientFree := by
  induction e with
  | num v => exact ⟨_, rfl, trivial⟩
  | var x => exact ⟨_, rfl, trivial⟩
  | bin op l r ihl ihr =>
    obtain ⟨hwl, hwr⟩ := (hereditary_isWhole.bin op l r).mp hwhole
    obtain ⟨l', hl, hql⟩ := ihl hwl hmarker.1
    obtain ⟨r', hr, hqr⟩ := ihr hwr hmarker.2
    refine ⟨_, by rw [removeDivision, hl, hr]; rfl, ?_⟩
    split_ifs with hop
    · exact ⟨nofun, hql, nofun, hqr, trivial⟩
    · exact ⟨hop, hql, hqr⟩
  | pending t ih => exact hmarker.elim
  | hole => cases hwhole

/-- In every field, a tree without markers and missing operands can be freed of its quotients and keeps its
value, and every tree keeps its value when quotients are restored, its markers being read as anything. -/
theorem valueIn_division_pair [Scalar α] [Field K] (F : FieldReading α K) (hF : F.Reciprocal) :
    (∀ n : Expr α, n.isWhole = true → n.MarkerFree →
      ∃ m, n.removeDivision = .ok m ∧ m.QuotientFree ∧ m.valueIn F = n.valueIn F) ∧
    ∀ n : Expr α, n.restoreDivision.valueIn F = n.valueIn F := by
  refine ⟨fun n hwhole hmarker => ?_, valueIn_restoreDivision hF.inverts⟩
  obtain ⟨m, hm, hquotient⟩ := exists_removeDivision hwhole hmarker
  exact ⟨m, hm, hquotient, valueIn_removeDivision hF.inverts hm⟩

end Expr

section Rational

open scoped Rational

/-- Integer powers in the field of three elements, where the exponents three and zero are different although
the numbers are not. -/
def FieldReading.moduloThree : FieldReading ℚ (ZMod 3) where
  number q := q
  named x := if x = "x" then 2 else 0
  literalPower b e := b ^ e.num
  power b v := b * v
  unknown _ a _ := a
  marked _ := 2

theorem FieldReading.reciprocal_moduloThree : FieldReading.moduloThree.Reciprocal where
  number_one := Rat.cast_one
  power_one b := zpow_one b
  power_neg b e := by
    show b ^ (-e).num = (b ^ e.num)⁻¹
    rw [Rat.num_neg_eq_neg_num, zpow_neg]
  power_of_beq b e he := by rw [beq_iff_eq.mp he]

/-- A quotient by a power whose exponent is not a literal, and a product with a marker and a power of a
power below the line. -/
theorem Expr.valueIn_division_pair_moduloThree :
    let F := FieldReading.moduloThree
    let divided : Expr ℚ := div (var "y") (bin .pow (var "x") (div (num 1) (var "y")))
    let product : Expr ℚ := mul (mul (num 2) (pow (pow (var "x") (-1)) (-3))) (pending (var "y"))
    let restored : Expr ℚ := div (mul (num 2) (pending (var "y"))) (pow (div (num 1) (var "x")) 3)
    F.Reciprocal ∧
    (divided.isWhole = true ∧ divided.MarkerFree ∧
      ∃ m, divided.removeDivision = .ok m ∧ m.QuotientFree ∧ m.valueIn F = divided.valueIn F) ∧
    product.restoreDivision = restored ∧ restored.valueIn F = product.valueIn F := by
  intro F divided product restored
  have hF : F.Reciprocal := FieldReading.reciprocal_moduloThree
  have hwhole : divided.isWhole = true := rfl
  have hmarker : divided.MarkerFree := by simp [divided]
  have hrestored : product.restoreDivision = restored := by decide +kernel
  obtain ⟨hremove, hrestore⟩ := Expr.valueIn_division_pair F hF
  refine ⟨hF, ⟨hwhole, hmarker, hremove divided hwhole hmarker⟩, hrestored, ?_⟩
  rw [← hrestored]
  exact hrestore product

end Rational

end Fluxion
