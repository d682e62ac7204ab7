import Fluxion.Scalar.Float
import Mathlib

/-!
# Numbers that equal themselves

Trees are compared number by number, and a floating point number may differ from itself. A scalar that
does not is *defined*. Literals are defined, and so is every exponent that the rules of differentiation
compute from them; that is all that comparing derivatives relies on, and it is what `DefiniteScalar`
lists. Floating point numbers have these laws although they round and overflow: a difference with one is
undefined only where the minuend is.
-/

namespace Fluxion

/-- The scalar equals itself, as everything does but an undefined number. -/
def Scalar.IsDefined {α : Type} [Scalar α] (v : α) : Prop := (v == v) = true

instance {α : Type} [Scalar α] (v : α) : Decidable (Scalar.IsDefined v) :=
  inferInstanceAs (Decidable ((v == v) = true))

/-- Scalars for which literals, and the exponents that the rules of differentiation compute from them,
are defined. -/
class DefiniteScalar (α : Type) extends Scalar α where
  isDefined_ofDecimal {digits places : ℕ} {v : α} :
    Scalar.ofDecimal? digits places = some v → Scalar.IsDefined v
  isDefined_two : Scalar.IsDefined (Scalar.two : α)
  isDefined_neg {v : α} : Scalar.IsDefined v → Scalar.IsDefined (-v)
  isDefined_sub_one {v : α} : Scalar.IsDefined v → Scalar.IsDefined (v - 1)

/-! ## Floating point numbers -/

namespace Floating

open Float.Model (Format UnpackedFloat)
open Float.Model.UnpackedFloat (Sign packComponents)

/-- A floating point number differs from itself exactly when it is no number. -/
theorem isDefined_iff (x : Float) : Scalar.IsDefined x ↔ x.toModel.unpack ≠ .notANumber := by
  show x.toModel.unpack.beq x.toModel.unpack = true ↔ _
  simp [UnpackedFloat.beq_iff_ne_notANumber_and_eq]

/-! ### Bits -/

/-- The exponent field that is reserved for infinities and for what is no number. -/
theorem toNat_reserved : (-BitVec.ofNat Format.binary64.exponentBits 1).toNat = 2 ^ 11 - 1 := by
  decide

theorem unpack_packComponents_ne_notANumber {s : Sign} {e : BitVec Format.binary64.exponentBits}
    {m : BitVec Format.binary64.mantissaBitsWithoutImplicit} (h : e = -1#_ → m = 0#_) :
    UnpackedFloat.unpack .binary64 (packComponents .binary64 s e m) ≠ .notANumber := by
  unfold UnpackedFloat.unpack
  simp only [UnpackedFloat.unpackExponent_packComponents,
    UnpackedFloat.unpackMantissa_packComponents]
  split_ifs <;> simp_all

/-- Packing, which may round to an infinity, does not make a number undefined. -/
theorem unpack_pack_ne_notANumber {u : UnpackedFloat} (h : u ≠ .notANumber) :
    UnpackedFloat.unpack .binary64 (UnpackedFloat.pack .binary64 u) ≠ .notANumber := by
  fun_cases UnpackedFloat.pack with
  | case1 => exact absurd rfl h
  | case2 s => exact unpack_packComponents_ne_notANumber fun _ => rfl
  | case3 s => exact unpack_packComponents_ne_notANumber fun _ => rfl
  | case4 s m e hm biased hover => exact unpack_packComponents_ne_notANumber fun _ => rfl
  | case5 s m e hm bits biased hover hbits =>
    -- a normal number: its exponent field is below the reserved one
    refine unpack_packComponents_ne_notANumber fun heq => ?_
    have hfield := congrArg BitVec.toNat heq
    have hwidth : Format.binary64.exponentBits = 11 := rfl
    rw [toNat_reserved, BitVec.toNat_ofNat, hwidth] at hfield
    rw [hwidth] at hover
    rw [Nat.mod_eq_of_lt (by omega)] at hfield
    omega
  | case6 s m e hm bits biased hover hbits =>
    exact unpack_packComponents_ne_notANumber fun heq => absurd heq (by decide)

theorem unpackExponent_eq_reserved_iff (b : BitVec 64) :
    @UnpackedFloat.unpackExponent .binary64 b = -1#_ ↔ b.toNat / 2 ^ 52 % 2 ^ 11 = 2 ^ 11 - 1 := by
  rw [← BitVec.toNat_inj, UnpackedFloat.unpackExponent_def, BitVec.extractLsb'_toNat, toNat_reserved,
    Nat.shiftRight_eq_div_pow]

/-- A pattern below that of infinity does not use the reserved exponent. -/
theorem unpackExponent_ne_of_lt {b : BitVec 64} (h : b.toNat < Binary64.infinityBits) :
    @UnpackedFloat.unpackExponent .binary64 b ≠ -1#_ := by
  change b.toNat < 0x7FF * 2 ^ 52 at h
  rw [Ne, unpackExponent_eq_reserved_iff]
  omega

theorem isFinite_unpack_iff (b : BitVec 64) : (UnpackedFloat.unpack .binary64 b).isFinite = true ↔
    @UnpackedFloat.unpackExponent .binary64 b ≠ -1#_ := by
  unfold UnpackedFloat.unpack
  dsimp only
  split_ifs <;> simp_all [UnpackedFloat.isFinite]

theorem ne_notANumber_of_isFinite {u : UnpackedFloat} (h : u.isFinite = true) : u ≠ .notANumber := by
  rintro rfl
  cases h

/-! ### Literals -/

theorem nearestBits?_lt {n d bits : ℕ} (h : Binary64.nearestBits? n d = some bits) :
    bits < Binary64.infinityBits := by
  simp only [Binary64.nearestBits?] at h
  split_ifs at h with hzero hlt
  · cases h
    decide
  · cases h
    exact hlt

theorem ofDecimal?_lt {d : Decimal} {bits : ℕ} (h : Binary64.ofDecimal? d = some bits) :
    bits < Binary64.infinityBits := by
  unfold Binary64.ofDecimal? at h
  split_ifs at h
  · cases h
    decide
  · cases h
    decide
  · exact nearestBits?_lt h

/-- A literal in range is finite. -/
theorem isFinite_of_ofDecimal {digits places : ℕ} {v : Float}
    (h : Scalar.ofDecimal? digits places = some v) : v.isFinite = true := by
  obtain ⟨bits, hbits, rfl⟩ := Option.map_eq_some_iff.mp h
  have hlt := ofDecimal?_lt hbits
  have hmax : Binary64.infinityBits < 2 ^ 64 := by decide
  have hexp := unpackExponent_ne_of_lt (b := (UInt64.ofNat (bits + 0)).toBitVec) (by
    rw [Nat.add_zero, UInt64.toNat_toBitVec, UInt64.toNat_ofNat']
    omega)
  show (UnpackedFloat.unpack .binary64
    (UnpackedFloat.pack .binary64 (UnpackedFloat.unpack .binary64 _))).isFinite = true
  rw [UnpackedFloat.pack_unpack, if_neg (by simpa [UnpackedFloat.isNaNBits] using fun h => absurd h hexp),
    isFinite_unpack_iff]
  exact hexp

/-! ### Differences -/

theorem round_ne_notANumber (s : Sign) (m : ℕ) (e : ℤ) :
    UnpackedFloat.round .binary64 s m e ≠ .notANumber := by
  unfold UnpackedFloat.round UnpackedFloat.roundWithAccuracy
  dsimp only
  split <;> simp

theorem normalize_ne_notANumber (m e : ℤ) (s : Sign) :
    UnpackedFloat.normalize .binary64 m e s ≠ .notANumber := by
  unfold UnpackedFloat.normalize
  split
  · exact round_ne_notANumber _ _ _
  · simp
  · exact round_ne_notANumber _ _ _

/-- Only a difference of two infinities is undefined without one of its operands being so. -/
theorem sub_ne_notANumber {u v : UnpackedFloat} (hu : u ≠ .notANumber) (hv : v ≠ .notANumber)
    (hinf : v.isInf = false) : UnpackedFloat.sub .binary64 u v ≠ .notANumber := by
  fun_cases UnpackedFloat.sub <;> simp_all [normalize_ne_notANumber, UnpackedFloat.isInf]

end Floating

instance : DefiniteScalar Float where
  isDefined_ofDecimal h :=
    (Floating.isDefined_iff _).mpr
      (Floating.ne_notANumber_of_isFinite (Floating.isFinite_of_ofDecimal h))
  isDefined_two := by decide +kernel
  isDefined_neg {v} h := by
    refine (Floating.isDefined_iff _).mpr (Floating.unpack_pack_ne_notANumber ?_)
    have hv := (Floating.isDefined_iff v).mp h
    revert hv
    cases v.toModel.unpack <;> simp [Float.Model.UnpackedFloat.neg]
  isDefined_sub_one {v} h :=
    (Floating.isDefined_iff _).mpr <| Floating.unpack_pack_ne_notANumber <|
      Floating.sub_ne_notANumber ((Floating.isDefined_iff v).mp h)
        ((Floating.isDefined_iff 1).mp (by decide +kernel)) (by decide +kernel)

end Fluxion
