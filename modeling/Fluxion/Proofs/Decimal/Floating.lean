import Fluxion.Proofs.Decimal.Shortest
import Fluxion.Proofs.Definite

/-!
# Texts of floating point numbers

A finite floating point number is written as the positional text of its shortest decimal, behind a minus
sign for a negative one. The two zeros are written alike, and no other two numbers are.
-/

namespace Fluxion

namespace Floating

open Float.Model (UnpackedFloat)
open FloatText (unsignedBits isSigned)

/-! ## Bits -/

theorem eq_of_toBits {x y : Float} (h : x.toBits = y.toBits) : x = y := by
  obtain ⟨⟨bits, hbits⟩⟩ := x
  obtain ⟨⟨bits', hbits'⟩⟩ := y
  cases h
  rfl

theorem eq_of_unsignedBits {x y : Float} (hsign : isSigned x = isSigned y)
    (hbits : unsignedBits x = unsignedBits y) : x = y := by
  refine eq_of_toBits (UInt64.toNat_inj.mp ?_)
  have hx := x.toBits.toNat_lt
  have hy := y.toBits.toNat_lt
  change x.toBits.toNat % 2 ^ 63 = y.toBits.toNat % 2 ^ 63 at hbits
  change decide (2 ^ 63 ≤ x.toBits.toNat) = decide (2 ^ 63 ≤ y.toBits.toNat) at hsign
  rw [decide_eq_decide] at hsign
  omega

theorem unsignedBits_lt {x : Float} (h : x.isFinite = true) : unsignedBits x < Binary64.infinityBits := by
  have hexp := (isFinite_unpack_iff _).mp h
  have hbits := x.toBits.toNat_lt
  rw [Ne, unpackExponent_eq_reserved_iff] at hexp
  change ¬x.toBits.toNat / 2 ^ 52 % 2 ^ 11 = 2 ^ 11 - 1 at hexp
  change x.toBits.toNat % 2 ^ 63 < 0x7FF * 2 ^ 52
  omega

theorem beq_eq_true_iff (x y : Float) : (x == y) = true ↔
    x.toModel.unpack ≠ .notANumber ∧ y.toModel.unpack ≠ .notANumber ∧
      (x.toModel.unpack = y.toModel.unpack ∨
        ∃ s s', x.toModel.unpack = .zero s ∧ y.toModel.unpack = .zero s') := by
  refine (UnpackedFloat.beq_iff_ne_notANumber_and_eq _ _).trans ?_
  refine and_congr_right fun _ => and_congr_right fun _ => ⟨?_, ?_⟩
  · rintro (h | h | h)
    · exact Or.inl h
    · exact Or.inr ⟨_, _, h⟩
    · exact Or.inr ⟨_, _, h⟩
  · rintro (h | ⟨s, s', h, h'⟩)
    · exact Or.inl h
    · rw [h, h']
      cases s <;> cases s' <;> simp

theorem beq_zero_iff (x : Float) : (x == 0) = true ↔ ∃ s, x.toModel.unpack = .zero s := by
  have hzero : (0 : Float).toModel.unpack = .zero .positive := rfl
  rw [beq_eq_true_iff, hzero]
  constructor
  · rintro ⟨-, -, h | ⟨s, s', h, -⟩⟩
    · exact ⟨_, h⟩
    · exact ⟨s, h⟩
  · rintro ⟨s, h⟩
    rw [h]
    exact ⟨nofun, nofun, Or.inr ⟨s, _, rfl, rfl⟩⟩

theorem isFinite_of_beq_zero {x : Float} (h : (x == 0) = true) : x.isFinite = true := by
  obtain ⟨s, hs⟩ := (beq_zero_iff x).mp h
  show x.toModel.unpack.isFinite = true
  rw [hs]
  rfl

theorem pack_unpack (x : Float) : UnpackedFloat.pack .binary64 x.toModel.unpack = x.toBits.toBitVec :=
  UnpackedFloat.pack_unpack_of_valid x.toModel.valid

/-- Only the two zeros have no bits but the sign. -/
theorem beq_zero_iff_unsignedBits (x : Float) : (x == 0) = true ↔ unsignedBits x = 0 := by
  constructor
  · intro h
    obtain ⟨s, hs⟩ := (beq_zero_iff x).mp h
    have hbits := pack_unpack x
    rw [hs] at hbits
    change x.toBits.toBitVec.toNat % 2 ^ 63 = 0
    rw [← hbits]
    cases s <;> decide +kernel
  · intro h
    have hzero : x = 0 ∨ x = -0 := by
      cases hsign : isSigned x with
      | false =>
        refine Or.inl (eq_of_unsignedBits (hsign.trans ?_) (h.trans ?_)) <;> decide +kernel
      | true =>
        refine Or.inr (eq_of_unsignedBits (hsign.trans ?_) (h.trans ?_)) <;> decide +kernel
    rcases hzero with rfl | rfl <;> decide +kernel

/-- Numbers that compare equal are the same, or both are zeros. -/
theorem eq_or_zero_of_beq {x y : Float} (h : (x == y) = true) :
    x = y ∨ (x == 0) = true ∧ (y == 0) = true := by
  obtain ⟨-, -, h | ⟨s, s', hx, hy⟩⟩ := (beq_eq_true_iff x y).mp h
  · have hbits := congrArg (UnpackedFloat.pack .binary64) h
    rw [pack_unpack, pack_unpack] at hbits
    exact Or.inl (eq_of_toBits (UInt64.toBitVec_inj.mp hbits))
  · exact Or.inr ⟨(beq_zero_iff x).mpr ⟨s, hx⟩, (beq_zero_iff y).mpr ⟨s', hy⟩⟩

/-- Finite numbers compare equal when they are the same or both are zeros. -/
theorem beq_iff {x y : Float} (hx : x.isFinite = true) :
    (x == y) = true ↔ x = y ∨ (x == 0) = true ∧ (y == 0) = true := by
  refine ⟨eq_or_zero_of_beq, ?_⟩
  rintro (rfl | ⟨hx0, hy0⟩)
  · exact (isDefined_iff x).mpr (ne_notANumber_of_isFinite hx)
  · obtain ⟨s, hs⟩ := (beq_zero_iff x).mp hx0
    obtain ⟨s', hs'⟩ := (beq_zero_iff y).mp hy0
    rw [beq_eq_true_iff, hs, hs']
    exact ⟨nofun, nofun, Or.inr ⟨s, s', rfl, rfl⟩⟩

/-! ## Texts -/

/-- A minus sign is written in front of negative numbers, and not in front of a zero. -/
def minus (x : Float) : Bool := isSigned x && !(x == 0)

/-- The text of a finite number is a plain numeral that is rounded to the number, behind its sign. -/
theorem plain_eq {x : Float} (hx : x.isFinite = true) :
    ∃ digits, Numeral.IsPlain digits ∧
      (Binary64.ofBits (unsignedBits x)).Owns (Numeral.rational digits) ∧
      FloatText.plain x = (if minus x then "-" else "") ++ digits := by
  cases hzero : x == 0 with
  | true =>
    refine ⟨"0", plain_repr 0, ?_, ?_⟩
    · have hvalue : (Binary64.ofBits 0).value = Numeral.rational "0" := by
        have hread : Numeral.read "0" = (0, 0) := read_repr 0
        rw [Numeral.rational, hread, Binary64.ofBits_eq]
        simp [Binary64.value]
      rw [(beq_zero_iff_unsignedBits x).mp hzero, ← hvalue]
      exact (Binary64.ofBits 0).owns_value
    · rw [FloatText.plain, minus, hzero]
      simp
  | false =>
    refine ⟨(FloatText.magnitude x).positional, Decimal.isPlain_positional _, ?_, ?_⟩
    · have hbits : unsignedBits x ≠ 0 := fun h => by
        rw [(beq_zero_iff_unsignedBits x).mpr h] at hzero
        cases hzero
      rw [Decimal.rational_positional]
      exact Binary64.owns_shortest
        (Binary64.mantissa_ofBits_pos (Nat.pos_of_ne_zero hbits) (unsignedBits_lt hx))
    · rw [FloatText.plain, minus, hzero, hx]
      simp

theorem plain_of_not_isFinite {x : Float} (hx : x.isFinite = false) :
    FloatText.plain x ∈ ["NaN", "-Inf", "+Inf"] := by
  have hzero : (x == 0) = false := by
    refine Bool.eq_false_iff.mpr fun hzero => ?_
    rw [isFinite_of_beq_zero hzero] at hx
    cases hx
  rw [FloatText.plain, hzero, hx, FloatText.special]
  split_ifs <;> simp_all

/-- The texts of two finite numbers are the same exactly when the numbers compare equal. -/
theorem plain_eq_iff {x y : Float} (hx : x.isFinite = true) (hy : y.isFinite = true) :
    FloatText.plain x = FloatText.plain y ↔ (x == y) = true := by
  rw [beq_iff hx]
  constructor
  · intro h
    obtain ⟨digits, hplain, hown, htext⟩ := plain_eq hx
    obtain ⟨digits', hplain', hown', htext'⟩ := plain_eq hy
    rw [htext, htext'] at h
    obtain ⟨hminus, rfl⟩ := hplain.sign_append_inj hplain' h
    have hbits := hown.unique (unsignedBits_lt hx) (unsignedBits_lt hy) hown'
    have hzero : (x == 0) = (y == 0) := by
      rw [Bool.eq_iff_iff, beq_zero_iff_unsignedBits, beq_zero_iff_unsignedBits, hbits]
    cases hx0 : x == 0 with
    | true => exact Or.inr ⟨rfl, hzero ▸ hx0⟩
    | false =>
      rw [minus, minus, ← hzero, hx0] at hminus
      exact Or.inl (eq_of_unsignedBits (by simpa using hminus) hbits)
  · rintro (rfl | ⟨hx0, hy0⟩)
    · rfl
    · rw [FloatText.plain, FloatText.plain, if_pos hx0, if_pos hy0]

end Floating

instance : NumeralScalar Float where
  text_numeral x hx := by
    obtain ⟨digits, hplain, -, htext⟩ := Floating.plain_eq hx
    refine ⟨digits, hplain, ?_⟩
    cases hminus : Floating.minus x with
    | false =>
      rw [hminus] at htext
      exact Or.inl (htext.trans String.empty_append)
    | true =>
      rw [hminus] at htext
      exact Or.inr htext
  text_eq_iff _ _ := Floating.plain_eq_iff

end Fluxion
