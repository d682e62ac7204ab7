import Fluxion.Scalar
import Mathlib

/-!
# Exact scalars

The definitions of this library are read here over scalars that are rational numbers: every scalar has
a `value`, and every operation computes with these values without rounding. Powers are exact at
integer exponents wherever the power exists, and the text of a scalar tells apart exactly the scalars
that differ. Nothing is said about which results count as finite, nor about what a decimal literal
denotes.
-/

namespace Fluxion

namespace Scalar

variable {α : Type} [Scalar α] {e : α} {k : ℕ}

/-- An exponent that is written out equals an integer from one to ten. -/
theorem smallPower?_eq_some (h : smallPower? e = some k) :
    (1 ≤ k ∧ k ≤ maxWrittenPower) ∧ (e == (k : α)) = true := by
  have heq := List.find?_some h
  obtain ⟨i, hi, rfl⟩ := List.mem_map.mp (List.mem_of_find?_eq_some h)
  rw [List.mem_range] at hi
  exact ⟨⟨by omega, by omega⟩, heq⟩

theorem smallPower?_eq_none (h : smallPower? e = none) (hpos : 1 ≤ k) (hmax : k ≤ maxWrittenPower) :
    (e == (k : α)) = false := by
  have hmem : k ∈ (List.range maxWrittenPower).map (· + 1) :=
    List.mem_map.mpr ⟨k - 1, List.mem_range.mpr (by omega), by omega⟩
  exact Bool.eq_false_iff.mpr (List.find?_eq_none.mp h k hmem)

end Scalar

/-- The characters that structure a signature; no name of a variable and no number contains one. -/
def separators : List Char := ['(', ')', '*', '+', '^']

/-- Scalars that compute with rational numbers and write them down unambiguously. -/
class ExactScalar (α : Type) extends Scalar α where
  /-- The rational number that a scalar is. -/
  value : α → ℚ
  value_zero : value 0 = 0
  value_one : value 1 = 1
  value_natCast (n : ℕ) : value (n : α) = n
  value_add (a b : α) : value (a + b) = value a + value b
  value_sub (a b : α) : value (a - b) = value a - value b
  value_mul (a b : α) : value (a * b) = value a * value b
  value_neg (a : α) : value (-a) = -value a
  /-- Quotients are exact; the quotient by zero may be anything. -/
  value_div (a b : α) : value b ≠ 0 → value (a / b) = value a / value b
  /-- Integer powers are exact; a negative power of zero may be anything. -/
  value_pow (a e : α) (k : ℤ) :
    value e = k → (k < 0 → value a ≠ 0) → value (Scalar.pow a e) = value a ^ k
  beq_iff (a b : α) : (a == b) = true ↔ value a = value b
  less_iff (a b : α) : Scalar.less a b = true ↔ value a < value b
  /-- The text of a scalar depends on its value and determines it. -/
  text_eq_iff (a b : α) : Scalar.text a = Scalar.text b ↔ value a = value b
  text_plain (a : α) : ∀ c ∈ (Scalar.text a).toList, c ∉ separators

namespace ExactScalar

variable {α : Type} [ExactScalar α]

attribute [simp] value_zero value_one value_natCast value_add value_sub value_mul value_neg

@[simp] theorem value_two : value (Scalar.two : α) = 2 := by
  rw [Scalar.two, value_natCast]
  rfl

@[simp] theorem beq_zero_iff (a : α) : (a == 0) = true ↔ value a = 0 := by
  rw [beq_iff, value_zero]

@[simp] theorem beq_one_iff (a : α) : (a == 1) = true ↔ value a = 1 := by
  rw [beq_iff, value_one]

@[simp] theorem beq_neg_one_iff (a : α) : (a == -1) = true ↔ value a = -1 := by
  rw [beq_iff, value_neg, value_one]

@[simp] theorem isPositive_iff (a : α) : Scalar.isPositive a = true ↔ 0 < value a := by
  rw [Scalar.isPositive, less_iff, value_zero]

@[simp] theorem isNegative_iff (a : α) : Scalar.isNegative a = true ↔ value a < 0 := by
  rw [Scalar.isNegative, less_iff, value_zero]

/-- The scalar is an integer. -/
def IsInteger (a : α) : Prop := ∃ k : ℤ, value a = k

theorem isInteger_iff (a : α) : IsInteger a ↔ (value a).den = 1 := by
  constructor
  · rintro ⟨k, hk⟩
    rw [hk, Rat.den_intCast]
  · intro h
    exact ⟨(value a).num, ((Rat.den_eq_one_iff _).mp h).symm⟩

instance (a : α) : Decidable (IsInteger a) := decidable_of_iff _ (isInteger_iff a).symm

/-- The integer that an integer scalar is. -/
def integer (a : α) : ℤ := (value a).num

theorem IsInteger.value_eq {a : α} (h : IsInteger a) : value a = integer a := by
  obtain ⟨k, hk⟩ := h
  rw [integer, hk, Rat.num_intCast]

theorem integer_of_value_eq {a : α} {k : ℤ} (h : value a = k) : integer a = k := by
  rw [integer, h, Rat.num_intCast]

theorem integer_neg_iff (a : α) : integer a < 0 ↔ value a < 0 := Rat.num_neg

theorem isInteger_one : IsInteger (1 : α) := ⟨1, by simp⟩

theorem isInteger_two : IsInteger (Scalar.two : α) := ⟨2, by simp⟩

theorem IsInteger.neg {a : α} (h : IsInteger a) : IsInteger (-a) := by
  obtain ⟨k, hk⟩ := h
  exact ⟨-k, by simp [hk]⟩

theorem IsInteger.add {a b : α} (ha : IsInteger a) (hb : IsInteger b) : IsInteger (a + b) := by
  obtain ⟨k, hk⟩ := ha
  obtain ⟨l, hl⟩ := hb
  exact ⟨k + l, by simp [hk, hl]⟩

theorem IsInteger.sub {a b : α} (ha : IsInteger a) (hb : IsInteger b) : IsInteger (a - b) := by
  obtain ⟨k, hk⟩ := ha
  obtain ⟨l, hl⟩ := hb
  exact ⟨k - l, by simp [hk, hl]⟩

theorem IsInteger.mul {a b : α} (ha : IsInteger a) (hb : IsInteger b) : IsInteger (a * b) := by
  obtain ⟨k, hk⟩ := ha
  obtain ⟨l, hl⟩ := hb
  exact ⟨k * l, by simp [hk, hl]⟩

theorem IsInteger.integer_add {a b : α} (ha : IsInteger a) (hb : IsInteger b) :
    integer (a + b) = integer a + integer b :=
  integer_of_value_eq (by simp [ha.value_eq, hb.value_eq])

theorem IsInteger.integer_mul {a b : α} (ha : IsInteger a) (hb : IsInteger b) :
    integer (a * b) = integer a * integer b :=
  integer_of_value_eq (by simp [ha.value_eq, hb.value_eq])

theorem IsInteger.integer_sub {a b : α} (ha : IsInteger a) (hb : IsInteger b) :
    integer (a - b) = integer a - integer b :=
  integer_of_value_eq (by simp [ha.value_eq, hb.value_eq])

theorem smallPower?_sound {e : α} {k : ℕ} (h : Scalar.smallPower? e = some k) :
    (1 ≤ k ∧ k ≤ Scalar.maxWrittenPower) ∧ value e = k := by
  obtain ⟨hbounds, heq⟩ := Scalar.smallPower?_eq_some h
  rw [beq_iff, value_natCast] at heq
  exact ⟨hbounds, heq⟩

/-- An exponent is written out as a repeated product exactly when it is one of `1, ..., 10`. -/
theorem smallPower?_eq_some_iff (e : α) (k : ℕ) :
    Scalar.smallPower? e = some k ↔ (1 ≤ k ∧ k ≤ Scalar.maxWrittenPower) ∧ value e = k := by
  refine ⟨smallPower?_sound, fun ⟨⟨h1, h2⟩, hk⟩ => ?_⟩
  cases hfind : Scalar.smallPower? e with
  | none =>
    have hne := Scalar.smallPower?_eq_none hfind h1 h2
    rw [Bool.eq_false_iff, Ne, beq_iff, value_natCast] at hne
    exact absurd hk hne
  | some l =>
    have hl : value e = l := (smallPower?_sound hfind).2
    rw [hk, Nat.cast_inj] at hl
    rw [hl]

end ExactScalar

end Fluxion
