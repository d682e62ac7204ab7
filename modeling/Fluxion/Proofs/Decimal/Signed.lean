import Fluxion.Proofs.Decimal.Floating

/-!
# Numbers behind their signs

What the text of a number says about its value: the value of the numeral, taken negatively behind a minus
sign. For floating point numbers the value of a numeral is that of the number to which it is rounded.
-/

namespace Fluxion

/-- Scalars that are rational numbers. A finite one is written as a plain numeral that stands for its
absolute value, behind a minus sign if it is negative. -/
class RationalScalar (α : Type) extends Scalar α where
  /-- The rational number that a scalar is. -/
  value : α → ℚ
  /-- The rational number that a plain numeral stands for. -/
  numeral : String → ℚ
  text_eq (v : α) : Scalar.isFinite v = true →
    ∃ body, Numeral.IsPlain body ∧ numeral body = |value v| ∧
      Scalar.text v = (if value v < 0 then "-" else "") ++ body
  value_minus_one : value (-1) = -1
  minus_one_beq : ((-1 : α) == -1) = true
  value_of_beq {v : α} : Scalar.isFinite v = true → (v == -1) = true → value v = -1

namespace RationalScalar

variable {α : Type} [RationalScalar α] {v w : α}

theorem text_of_nonneg (hv : Scalar.isFinite v = true) (h : 0 ≤ value v) :
    Numeral.IsPlain (Scalar.text v) ∧ numeral α (Scalar.text v) = value v := by
  obtain ⟨body, hbody, hvalue, htext⟩ := text_eq v hv
  rw [if_neg (not_lt.mpr h), String.empty_append] at htext
  rw [htext]
  exact ⟨hbody, hvalue.trans (abs_of_nonneg h)⟩

theorem text_of_neg (hv : Scalar.isFinite v = true) (h : value v < 0) :
    ∃ body, Numeral.IsPlain body ∧ numeral α body = -value v ∧ Scalar.text v = "-" ++ body := by
  obtain ⟨body, hbody, hvalue, htext⟩ := text_eq v hv
  rw [if_pos h] at htext
  exact ⟨body, hbody, hvalue.trans (abs_of_neg h), htext⟩

/-- A minus sign in front of the text of a number belongs to the opposite number. -/
theorem value_of_text_eq_minus (hv : Scalar.isFinite v = true) (hw : Scalar.isFinite w = true)
    (h : Scalar.text v = "-" ++ Scalar.text w) : value v < 0 ∧ value v = -value w := by
  have hneg : value v < 0 := by
    by_contra hnonneg
    have hplain := (text_of_nonneg hv (not_lt.mp hnonneg)).1
    exact hplain.ne_minus_append _ h
  obtain ⟨body, hbody, hvalue, htext⟩ := text_of_neg hv hneg
  obtain rfl : body = Scalar.text w := by
    have hsame : (if true then "-" else "") ++ body = (if true then "-" else "") ++ Scalar.text w :=
      htext.symm.trans h
    simpa using hsame
  refine ⟨hneg, ?_⟩
  have hnonneg : 0 ≤ value w := by
    by_contra hwneg
    obtain ⟨body', -, -, htext'⟩ := text_of_neg hw (not_le.mp hwneg)
    exact hbody.ne_minus_append _ htext'
  rw [(text_of_nonneg hw hnonneg).2] at hvalue
  rw [hvalue, neg_neg]

end RationalScalar

namespace Floating

open FloatText (unsignedBits isSigned)

/-- The rational number that a finite number is. -/
def value (x : Float) : ℚ :=
  (if isSigned x then -1 else 1) * (Binary64.ofBits (unsignedBits x)).value

open Classical in
/-- The number of the format to which a numeral is rounded. -/
noncomputable def rounded (s : String) : ℚ :=
  if h : ∃ bits, bits < Binary64.infinityBits ∧ (Binary64.ofBits bits).Owns (Numeral.rational s) then
    (Binary64.ofBits h.choose).value
  else 0

theorem rounded_eq {s : String} {bits : ℕ} (hbits : bits < Binary64.infinityBits)
    (h : (Binary64.ofBits bits).Owns (Numeral.rational s)) :
    rounded s = (Binary64.ofBits bits).value := by
  have hexists : ∃ bits, bits < Binary64.infinityBits ∧
      (Binary64.ofBits bits).Owns (Numeral.rational s) := ⟨bits, hbits, h⟩
  obtain ⟨hlt, howns⟩ := hexists.choose_spec
  rw [rounded, dif_pos hexists, howns.unique hlt hbits h]

theorem value_ofBits_nonneg (bits : ℕ) : 0 ≤ (Binary64.ofBits bits).value := by
  rw [Binary64.value]
  positivity

theorem value_ofBits_pos {x : Float} (hx : x.isFinite = true) (hzero : (x == 0) = false) :
    0 < (Binary64.ofBits (unsignedBits x)).value := by
  have hbits : unsignedBits x ≠ 0 := fun h => by
    rw [(beq_zero_iff_unsignedBits x).mpr h] at hzero
    cases hzero
  have hmantissa := Binary64.mantissa_ofBits_pos (Nat.pos_of_ne_zero hbits) (unsignedBits_lt hx)
  rw [Binary64.value]
  positivity

theorem abs_value (x : Float) : |value x| = (Binary64.ofBits (unsignedBits x)).value := by
  have hnonneg := value_ofBits_nonneg (unsignedBits x)
  rw [value, abs_mul, abs_of_nonneg hnonneg]
  split <;> simp

/-- A minus sign is written in front of the numbers below zero. -/
theorem minus_iff {x : Float} (hx : x.isFinite = true) : minus x = true ↔ value x < 0 := by
  rw [minus, Bool.and_eq_true, Bool.not_eq_true', value]
  cases hzero : x == 0 with
  | true =>
    have hvalue : (Binary64.ofBits (unsignedBits x)).value = 0 := by
      rw [(beq_zero_iff_unsignedBits x).mp hzero, Binary64.ofBits_eq]
      simp [Binary64.value]
    simp [hvalue]
  | false =>
    have hpos := value_ofBits_pos hx hzero
    cases isSigned x
    · simp [hpos.le]
    · simp [hpos]

end Floating

noncomputable instance : RationalScalar Float where
  value := Floating.value
  numeral := Floating.rounded
  text_eq x hx := by
    obtain ⟨body, hplain, howns, htext⟩ := Floating.plain_eq hx
    refine ⟨body, hplain, ?_, ?_⟩
    · rw [Floating.rounded_eq (Floating.unsignedBits_lt hx) howns, Floating.abs_value]
    · simp only [Floating.minus_iff hx] at htext
      exact htext
  value_minus_one := by decide +kernel
  minus_one_beq := by decide +kernel
  value_of_beq {x} hx h := by
    rcases (Floating.beq_iff hx).mp h with rfl | ⟨-, hzero⟩
    · decide +kernel
    · exact absurd hzero (by decide +kernel)

end Fluxion
