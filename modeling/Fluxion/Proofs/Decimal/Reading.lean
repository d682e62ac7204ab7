import Fluxion.Proofs.Decimal.Floating
import Fluxion.Proofs.Decimal.Nearest

/-!
# Floating point numbers that are read again

The text of a finite number that is not negative is read as the number that owns it, which is the number
itself, except that zero is read without its sign. Taking the opposite changes nothing but the sign bit, and
the minus sign in the text with it.
-/

namespace Fluxion

namespace Floating

open Float.Model (Format UnpackedFloat)
open Float.Model.UnpackedFloat (Sign packComponents)
open FloatText (unsignedBits isSigned)

/-! ## The sign bit -/

/-- A number, possibly zero or infinite, that has a minus sign. -/
def HasMinus : UnpackedFloat → Prop
  | .notANumber => False
  | .infinity s | .zero s | .finite s _ _ _ => s = .negative

theorem hasMinus_neg {u : UnpackedFloat} (hu : u ≠ .notANumber) : HasMinus u.neg ↔ ¬HasMinus u := by
  have hsign (s : Sign) : -s = .negative ↔ ¬s = .negative := by
    cases s with
    | negative => exact iff_of_false nofun (not_not.mpr rfl)
    | positive => exact iff_of_true rfl nofun
  cases u with
  | notANumber => exact absurd rfl hu
  | infinity s | zero s | finite s _ _ _ => exact hsign s

theorem neg_ne_notANumber {u : UnpackedFloat} (hu : u ≠ .notANumber) : u.neg ≠ .notANumber := by
  cases u with
  | notANumber => exact absurd rfl hu
  | infinity s | zero s | finite s _ _ _ => nofun

theorem toNat_packComponents (s : Sign) (e : BitVec Format.binary64.exponentBits)
    (m : BitVec Format.binary64.mantissaBitsWithoutImplicit) :
    (packComponents .binary64 s e m).toNat = s.toBitVec.toNat * 2 ^ 63 + (e ++ m).toNat := by
  have hbound : (e ++ m).toNat < 2 ^ 63 := (e ++ m).isLt
  have happend : packComponents .binary64 s e m = s.toBitVec ++ (e ++ m) := BitVec.append_assoc
  rw [happend, BitVec.toNat_append, Nat.shiftLeft_eq]
  change s.toBitVec.toNat * 2 ^ 63 ||| (e ++ m).toNat = _
  rw [Nat.mul_comm, ← Nat.two_pow_add_eq_or_of_lt hbound]

theorem toNat_packComponents_mod (s : Sign) (e : BitVec Format.binary64.exponentBits)
    (m : BitVec Format.binary64.mantissaBitsWithoutImplicit) :
    (packComponents .binary64 s e m).toNat % 2 ^ 63 = (e ++ m).toNat := by
  have hbound : (e ++ m).toNat < 2 ^ 63 := (e ++ m).isLt
  rw [toNat_packComponents, Nat.mul_comm, Nat.mul_add_mod_self_left, Nat.mod_eq_of_lt hbound]

theorem signBit_packComponents {s : Sign} {e : BitVec Format.binary64.exponentBits}
    {m : BitVec Format.binary64.mantissaBitsWithoutImplicit} :
    2 ^ 63 ≤ (packComponents .binary64 s e m).toNat ↔ s = .negative := by
  have hbound : (e ++ m).toNat < 2 ^ 63 := (e ++ m).isLt
  rw [toNat_packComponents]
  cases s with
  | negative => exact iff_of_true (Nat.le_add_right _ _) rfl
  | positive =>
    refine iff_of_false ?_ nofun
    change ¬2 ^ 63 ≤ 0 * 2 ^ 63 + (e ++ m).toNat
    omega

theorem signBit_pack {u : UnpackedFloat} (hu : u ≠ .notANumber) :
    2 ^ 63 ≤ (UnpackedFloat.pack .binary64 u).toNat ↔ HasMinus u := by
  cases u with
  | notANumber => exact absurd rfl hu
  | infinity s | zero s => exact signBit_packComponents
  | finite s m e hm =>
    simp only [UnpackedFloat.pack, UnpackedFloat.packedInfinity]
    split_ifs <;> exact signBit_packComponents

theorem isSigned_iff {x : Float} (hx : x.toModel.unpack ≠ .notANumber) :
    isSigned x = true ↔ HasMinus x.toModel.unpack := by
  rw [← signBit_pack hx, pack_unpack]
  exact decide_eq_true_iff

/-- The opposite of a number has the other sign. -/
theorem isSigned_neg {x : Float} (hx : x.toModel.unpack ≠ .notANumber) :
    isSigned (-x) = !isSigned x := by
  have hneg : isSigned (-x) = true ↔ 2 ^ 63 ≤ (UnpackedFloat.pack .binary64 x.toModel.unpack.neg).toNat :=
    decide_eq_true_iff
  rw [Bool.eq_iff_iff, hneg, signBit_pack (neg_ne_notANumber hx), hasMinus_neg hx, Bool.not_eq_true',
    ← Bool.not_eq_true, isSigned_iff hx]

/-- What does not depend on the sign bit is the same for a number and its opposite. -/
theorem pack_neg_congr {β : Type} {g : BitVec 64 → β}
    (hg : ∀ s s' e m, g (packComponents .binary64 s e m) = g (packComponents .binary64 s' e m))
    (u : UnpackedFloat) :
    g (UnpackedFloat.pack .binary64 u.neg) = g (UnpackedFloat.pack .binary64 u) := by
  cases u with
  | notANumber => rfl
  | infinity s => exact hg _ _ _ _
  | zero s => exact hg _ _ _ _
  | finite s m e hm =>
    simp only [UnpackedFloat.neg, UnpackedFloat.pack, UnpackedFloat.packedInfinity]
    split_ifs
    · exact hg _ _ _ _
    · exact hg _ _ _ _
    · exact hg _ _ _ _

theorem isFinite_neg {x : Float} (h : x.isFinite = true) : (-x).isFinite = true := by
  show (UnpackedFloat.unpack .binary64
    (UnpackedFloat.pack .binary64 x.toModel.unpack.neg)).isFinite = true
  have hexponent : UnpackedFloat.unpackExponent
      (UnpackedFloat.pack .binary64 x.toModel.unpack.neg) = UnpackedFloat.unpackExponent
        (UnpackedFloat.pack .binary64 x.toModel.unpack) :=
    pack_neg_congr (fun s s' e m => by simp only [UnpackedFloat.unpackExponent_packComponents]) _
  rw [isFinite_unpack_iff, hexponent, pack_unpack]
  exact (isFinite_unpack_iff _).mp h

/-- Changing the sign keeps all bits but the sign. -/
theorem unsignedBits_neg (x : Float) : unsignedBits (-x) = unsignedBits x := by
  show (UnpackedFloat.pack .binary64 x.toModel.unpack.neg).toNat % 2 ^ 63 = x.toBits.toNat % 2 ^ 63
  have hpack : (UnpackedFloat.pack .binary64 x.toModel.unpack).toNat = x.toBits.toNat := by
    rw [pack_unpack]
    rfl
  rw [← hpack]
  exact pack_neg_congr (g := fun b => b.toNat % 2 ^ 63)
    (fun s s' e m => by rw [toNat_packComponents_mod, toNat_packComponents_mod]) _

theorem neg_beq_zero (x : Float) : (-x == 0) = (x == 0) := by
  rw [Bool.eq_iff_iff, beq_zero_iff_unsignedBits, beq_zero_iff_unsignedBits, unsignedBits_neg]

theorem unpack_neg_ne_notANumber {x : Float} (hx : x.toModel.unpack ≠ .notANumber) :
    (-x).toModel.unpack ≠ .notANumber :=
  unpack_pack_ne_notANumber (neg_ne_notANumber hx)

theorem neg_neg {x : Float} (hx : x.toModel.unpack ≠ .notANumber) : -(-x) = x := by
  refine eq_of_unsignedBits ?_ ?_
  · rw [isSigned_neg (unpack_neg_ne_notANumber hx), isSigned_neg hx, Bool.not_not]
  · rw [unsignedBits_neg, unsignedBits_neg]

/-! ## Negative numbers -/

theorem lt_iff (x y : Float) : x < y ↔ x.toModel.unpack.lt y.toModel.unpack = true := by
  show Float.lt x y = true ↔ _
  unfold Float.lt
  rw [decide_eq_true_iff]
  rfl

/-- The negative numbers are those that are written with a minus sign. -/
theorem isNegative_eq_minus {x : Float} (hx : x.toModel.unpack ≠ .notANumber) :
    Scalar.isNegative x = minus x := by
  have hzero : (0 : Float).toModel.unpack = .zero .positive := rfl
  show decide (x < 0) = _
  rw [Bool.eq_iff_iff, decide_eq_true_iff, lt_iff, hzero, minus, Bool.and_eq_true, isSigned_iff hx,
    Bool.not_eq_true', ← Bool.not_eq_true, beq_zero_iff]
  cases hu : x.toModel.unpack with
  | notANumber => exact absurd hu hx
  | zero s => exact iff_of_false Bool.false_ne_true fun h => h.2 ⟨s, rfl⟩
  | infinity s | finite s m e hm =>
    cases s with
    | negative => exact iff_of_true rfl ⟨rfl, by simp⟩
    | positive => exact iff_of_false Bool.false_ne_true fun h => absurd h.1 (by simp [HasMinus])

theorem isNegative_of_notANumber {x : Float} (hx : x.toModel.unpack = .notANumber) :
    Scalar.isNegative x = false := by
  refine decide_eq_false fun hlt => ?_
  rw [lt_iff, hx] at hlt
  cases hlt

/-- The opposite of a negative number is not negative. -/
theorem isNegative_neg {x : Float} (h : Scalar.isNegative x = true) :
    Scalar.isNegative (-x) = false := by
  have hx : x.toModel.unpack ≠ .notANumber := fun hnan => by
    rw [isNegative_of_notANumber hnan] at h
    cases h
  rw [isNegative_eq_minus hx, minus, Bool.and_eq_true] at h
  rw [isNegative_eq_minus (unpack_neg_ne_notANumber hx), minus, isSigned_neg hx, h.1]
  rfl

/-! ## Comparison -/

theorem beq_of_zero {x y : Float} (hx : (x == 0) = true) (hy : (y == 0) = true) : (x == y) = true :=
  (beq_iff (isFinite_of_beq_zero hx)).mpr (Or.inr ⟨hx, hy⟩)

theorem isNegative_of_zero {x : Float} (hx : (x == 0) = true) : Scalar.isNegative x = false := by
  rw [isNegative_eq_minus (ne_notANumber_of_isFinite (isFinite_of_beq_zero hx)), minus, hx, Bool.not_true,
    Bool.and_false]

theorem neg_beq {x y : Float} (h : (y == -x) = true) : (-y == x) = true := by
  obtain ⟨-, hnan, -⟩ := (beq_eq_true_iff y (-x)).mp h
  have hx : x.toModel.unpack ≠ .notANumber := fun hx => by
    refine hnan ?_
    show UnpackedFloat.unpack .binary64 (UnpackedFloat.pack .binary64 x.toModel.unpack.neg) = _
    rw [hx]
    rfl
  obtain rfl | ⟨hy, hzero⟩ := eq_or_zero_of_beq h
  · rw [neg_neg hx]
    exact (isDefined_iff x).mpr hx
  · rw [neg_beq_zero] at hzero
    exact beq_of_zero ((neg_beq_zero y).trans hy) hzero

/-! ## Literals -/

theorem toBits_ofBits {bits : ℕ} (h : bits < Binary64.infinityBits) :
    (Float.ofBits (UInt64.ofNat bits)).toBits.toNat = bits := by
  have hmax : Binary64.infinityBits < 2 ^ 64 := by decide
  have hnat : (UInt64.ofNat bits).toBitVec.toNat = bits := by
    rw [UInt64.toNat_toBitVec, UInt64.toNat_ofNat']
    omega
  have hexp := unpackExponent_ne_of_lt (b := (UInt64.ofNat bits).toBitVec) (by rwa [hnat])
  show (UnpackedFloat.pack .binary64 (UnpackedFloat.unpack .binary64 (UInt64.ofNat bits).toBitVec)).toNat =
    bits
  rw [UnpackedFloat.pack_unpack, if_neg (by simpa [UnpackedFloat.isNaNBits] using fun h => absurd h hexp)]
  exact hnat

/-- A literal in range has the bits that it is rounded to, without a sign. -/
theorem ofDecimal_spec {digits places : ℕ} {v : Float} (h : Scalar.ofDecimal? digits places = some v) :
    Binary64.ofDecimal? ⟨digits, -(places : ℤ)⟩ = some (unsignedBits v) ∧ isSigned v = false := by
  obtain ⟨bits, hbits, rfl⟩ := Option.map_eq_some_iff.mp h
  have hlt := ofDecimal?_lt hbits
  have hmax : Binary64.infinityBits < 2 ^ 63 := by decide
  rw [if_neg Bool.false_ne_true, Nat.add_zero, unsignedBits, isSigned, toBits_ofBits hlt]
  refine ⟨?_, decide_eq_false ?_⟩
  · rw [Nat.pow_eq, Nat.mod_eq_of_lt (hlt.trans hmax)]
    exact hbits
  · rw [Nat.pow_eq]
    omega

/-- The text of a number that is not negative is read as a number that compares equal. -/
theorem value_plain {x : Float} (hx : x.isFinite = true) (hneg : Scalar.isNegative x = false) :
    Numeral.IsPlain (FloatText.plain x) ∧
      ∃ y, Numeral.value? (FloatText.plain x) = some y ∧ (y == x) = true := by
  obtain ⟨digits, hplain, howns, htext⟩ := plain_eq hx
  rw [isNegative_eq_minus (ne_notANumber_of_isFinite hx)] at hneg
  rw [hneg, if_neg Bool.false_ne_true, String.empty_append] at htext
  have hread : Binary64.ofDecimal? ⟨(Numeral.read digits).1, -((Numeral.read digits).2 : ℤ)⟩ =
      some (unsignedBits x) := by
    refine Binary64.Owns.ofDecimal?_eq (unsignedBits_lt hx) ?_
    have hvalue : (⟨(Numeral.read digits).1, -((Numeral.read digits).2 : ℤ)⟩ : Decimal).value =
        Numeral.rational digits := by
      rw [Decimal.value, Numeral.rational, zpow_neg, zpow_natCast, div_eq_mul_inv]
    rwa [hvalue]
  obtain ⟨y, hy⟩ : ∃ y : Float, Numeral.value? digits = some y :=
    ⟨_, congrArg (Option.map _) hread⟩
  obtain ⟨hbits, hsign⟩ := ofDecimal_spec hy
  have hsame : unsignedBits y = unsignedBits x := Option.some.inj (hbits.symm.trans hread)
  rw [htext]
  refine ⟨hplain, y, hy, ?_⟩
  rw [minus, Bool.and_eq_false_iff, Bool.not_eq_false'] at hneg
  rcases hneg with hpos | hzero
  · obtain rfl := eq_of_unsignedBits (hsign.trans hpos.symm) hsame
    exact (isDefined_iff y).mpr (ne_notANumber_of_isFinite hx)
  · refine beq_of_zero ?_ hzero
    rw [beq_zero_iff_unsignedBits] at hzero ⊢
    rw [hsame, hzero]

/-- A negative number is written as its opposite behind a minus sign. -/
theorem plain_of_isNegative {x : Float} (hx : x.isFinite = true) (hneg : Scalar.isNegative x = true) :
    FloatText.plain x = "-" ++ FloatText.plain (-x) := by
  have hnan := ne_notANumber_of_isFinite hx
  rw [isNegative_eq_minus hnan, minus, Bool.and_eq_true, Bool.not_eq_true'] at hneg
  obtain ⟨hsign, hzero⟩ := hneg
  have hmagnitude : FloatText.magnitude (-x) = FloatText.magnitude x := by
    rw [FloatText.magnitude, unsignedBits_neg, FloatText.magnitude]
  have hopposite : isSigned (-x) = false := by rw [isSigned_neg hnan, hsign, Bool.not_true]
  rw [FloatText.plain, FloatText.plain, neg_beq_zero, hzero, hx, isFinite_neg hx, hsign, hopposite,
    hmagnitude]
  simp

end Floating

instance : DecimalScalar Float where
  text_plain _ hx hneg := (Floating.value_plain hx hneg).1
  value_text _ hx hneg := (Floating.value_plain hx hneg).2
  text_neg _ := Floating.plain_of_isNegative
  isFinite_neg _ := Floating.isFinite_neg
  isNegative_neg _ := Floating.isNegative_neg
  isNegative_minus_one := by decide +kernel
  neg_beq _ _ := Floating.neg_beq
  beq_isFinite x y h := by
    obtain rfl | ⟨hx, hy⟩ := Floating.eq_or_zero_of_beq h
    · rfl
    · exact (Floating.isFinite_of_beq_zero hx).trans (Floating.isFinite_of_beq_zero hy).symm
  beq_isNegative x y h := by
    obtain rfl | ⟨hx, hy⟩ := Floating.eq_or_zero_of_beq h
    · rfl
    · rw [Floating.isNegative_of_zero hx, Floating.isNegative_of_zero hy]
  ofDecimal_finite digits places v h := by
    have hfinite : v.isFinite = true := Floating.isFinite_of_ofDecimal h
    refine ⟨hfinite, ?_⟩
    rw [Floating.isNegative_eq_minus (Floating.ne_notANumber_of_isFinite hfinite), Floating.minus,
      (Floating.ofDecimal_spec h).2, Bool.false_and]

end Fluxion
