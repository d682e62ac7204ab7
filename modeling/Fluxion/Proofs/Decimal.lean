import Fluxion.Expr.Parse
import Fluxion.Proofs.Rational
import Fluxion.Proofs.Token.Lexer

/-!
# Scalars with a decimal text

What the text of a number has to be so that the number can be read again, or at least told from others: a
plain numeral, behind a minus sign for a negative number.
-/

namespace Fluxion

/-- Scalars that survive being written down and read again. A number that is not negative is written as
a plain numeral, and a negative one as the numeral of its opposite behind a minus sign. -/
class DecimalScalar (α : Type) extends Scalar α where
  text_plain (v : α) : Scalar.isFinite v = true → Scalar.isNegative v = false →
    Numeral.IsPlain (Scalar.text v)
  /-- Reading the text of a number gives the number back. -/
  value_text (v : α) : Scalar.isFinite v = true → Scalar.isNegative v = false →
    ∃ w, Numeral.value? (Scalar.text v) = some w ∧ (w == v) = true
  text_neg (v : α) : Scalar.isFinite v = true → Scalar.isNegative v = true →
    Scalar.text v = "-" ++ Scalar.text (-v)
  isFinite_neg (v : α) : Scalar.isFinite v = true → Scalar.isFinite (-v) = true
  isNegative_neg (v : α) : Scalar.isNegative v = true → Scalar.isNegative (-v) = false
  isNegative_minus_one : Scalar.isNegative (-1 : α) = true
  neg_beq (v w : α) : (w == -v) = true → (-w == v) = true
  beq_isFinite (v w : α) : (v == w) = true → Scalar.isFinite v = Scalar.isFinite w
  beq_isNegative (v w : α) : (v == w) = true → Scalar.isNegative v = Scalar.isNegative w
  /-- A literal is never infinite, undefined or negative. -/
  ofDecimal_finite (digits places : ℕ) (v : α) : Scalar.ofDecimal? digits places = some v →
    Scalar.isFinite v = true ∧ Scalar.isNegative v = false

/-- Scalars whose finite numbers are written in decimal and can be told apart by their texts, up to what
the comparison of scalars takes for equal. -/
class NumeralScalar (α : Type) extends Scalar α where
  /-- Digits, perhaps with a point among them, perhaps behind a minus sign. -/
  text_numeral (v : α) : Scalar.isFinite v = true →
    ∃ body, Numeral.IsPlain body ∧ (Scalar.text v = body ∨ Scalar.text v = "-" ++ body)
  text_eq_iff (v w : α) : Scalar.isFinite v = true → Scalar.isFinite w = true →
    (Scalar.text v = Scalar.text w ↔ (v == w) = true)

/-- A finite number is written as a plain numeral, possibly behind a minus sign. -/
theorem DecimalScalar.exists_numeral {α : Type} [DecimalScalar α] (v : α) (hv : Scalar.isFinite v = true) :
    ∃ body, Numeral.IsPlain body ∧ (Scalar.text v = body ∨ Scalar.text v = "-" ++ body) := by
  cases hneg : Scalar.isNegative v with
  | false => exact ⟨_, text_plain v hv hneg, Or.inl rfl⟩
  | true => exact ⟨_, text_plain (-v) (isFinite_neg v hv) (isNegative_neg v hneg), Or.inr (text_neg v hv hneg)⟩

/-! ## Numerals -/

theorem isDigit_of_mem_bytes {s : String} (hs : ∀ c ∈ s.toList, c.isDigit = true) {b : UInt8}
    (hb : b ∈ Utf8.bytes s) : isDigit b = true := by
  rw [Utf8.bytes_eq, List.mem_flatMap] at hb
  obtain ⟨c, hc, hb⟩ := hb
  have hdigit : 48 ≤ c.val.toNat ∧ c.val.toNat ≤ 57 := by
    have h := hs c hc
    unfold Char.isDigit at h
    rw [Bool.and_eq_true, decide_eq_true_eq, decide_eq_true_eq] at h
    exact ⟨UInt32.le_iff_toNat_le.mp h.1, UInt32.le_iff_toNat_le.mp h.2⟩
  have hascii : c.toNat < 128 := Nat.lt_of_le_of_lt hdigit.2 (by decide)
  rw [Utf8.utf8EncodeChar_of_lt hascii, List.mem_singleton] at hb
  have hbyte : b.toNat = c.val.toNat := by
    rw [hb, UInt32.toNat_toUInt8]
    exact Nat.mod_eq_of_lt (by omega)
  unfold isDigit
  rw [Bool.and_eq_true, decide_eq_true_eq, decide_eq_true_eq, UInt8.le_iff_toNat_le,
    UInt8.le_iff_toNat_le, hbyte]
  exact hdigit

namespace Numeral

section Digits

variable {whole fraction : List Char}

theorem bytes_ofList_ne_nil (hne : whole ≠ []) : Utf8.bytes (String.ofList whole) ≠ [] := by
  intro hnil
  have hempty : String.ofList whole = "" := Utf8.bytes_injective (hnil.trans (by decide +kernel))
  exact hne (by simpa using congrArg String.toList hempty)

theorem isPlain_ofList (hne : whole ≠ []) (hwhole : ∀ c ∈ whole, c.isDigit = true) :
    IsPlain (String.ofList whole) := by
  refine ⟨Utf8.bytes (String.ofList whole), [], bytes_ofList_ne_nil hne,
    fun b => isDigit_of_mem_bytes ?_, ?_, Or.inl rfl⟩
  · simpa using hwhole
  · exact fun b hb => absurd hb List.not_mem_nil

theorem isPlain_append_point (hne : whole ≠ []) (hwhole : ∀ c ∈ whole, c.isDigit = true)
    (hfraction : ∀ c ∈ fraction, c.isDigit = true) :
    IsPlain (String.ofList whole ++ "." ++ String.ofList fraction) := by
  have hpoint : Utf8.bytes "." = [pointByte] := by decide +kernel
  refine ⟨Utf8.bytes (String.ofList whole), Utf8.bytes (String.ofList fraction), bytes_ofList_ne_nil hne,
    fun b => isDigit_of_mem_bytes ?_, fun b => isDigit_of_mem_bytes ?_, Or.inr ?_⟩
  · simpa using hwhole
  · simpa using hfraction
  · rw [Utf8.bytes_append, Utf8.bytes_append, hpoint, List.append_assoc, List.singleton_append]

/-- A plain numeral has no sign. -/
theorem IsPlain.ne_minus_append {s : String} (h : IsPlain s) (t : String) : s ≠ "-" ++ t := by
  rintro rfl
  have hminus : Utf8.bytes "-" = [45] := by decide +kernel
  obtain ⟨digits, fraction, hne, hdigits, -, hbytes⟩ := h
  rw [Utf8.bytes_append, hminus, List.singleton_append] at hbytes
  cases digits with
  | nil => exact hne rfl
  | cons b more =>
    have hdigit := hdigits b (List.mem_cons_self ..)
    have hhead : (45 : UInt8) = b := by
      rcases hbytes with h | h
      · exact (List.cons.inj h).1
      · exact (List.cons.inj h).1
    rw [← hhead] at hdigit
    exact absurd hdigit (by decide)

/-- The sign in front of a plain numeral can be told from it. -/
theorem IsPlain.sign_append_inj {p q : String} (hp : IsPlain p) (hq : IsPlain q) {a b : Bool}
    (h : (if a then "-" else "") ++ p = (if b then "-" else "") ++ q) : a = b ∧ p = q := by
  cases a <;> cases b
  · exact ⟨rfl, by simpa using h⟩
  · exact absurd (by simpa using h) (hp.ne_minus_append q)
  · exact absurd (by simpa using h.symm) (hq.ne_minus_append p)
  · exact ⟨rfl, by simpa using h⟩

theorem ne_point_of_isDigit {c : Char} (h : c.isDigit = true) : (c != '.') = true := by
  rw [bne_iff_ne]
  rintro rfl
  exact absurd h (by decide)

/-- Digits have no point and are read as one number. -/
theorem read_ofList (hwhole : ∀ c ∈ whole, c.isDigit = true) :
    read (String.ofList whole) = (Nat.ofDigitChars 10 whole 0, 0) := by
  have hpoint : ∀ c ∈ whole, (c != '.') = true := fun c hc => ne_point_of_isDigit (hwhole c hc)
  unfold read
  rw [String.toList_ofList, List.filter_eq_self.mpr hpoint, List.dropWhile_eq_nil_iff.mpr hpoint]
  rfl

/-- The digits after the point count as places. -/
theorem read_append_point (hwhole : ∀ c ∈ whole, c.isDigit = true)
    (hfraction : ∀ c ∈ fraction, c.isDigit = true) :
    read (String.ofList whole ++ "." ++ String.ofList fraction) =
      (Nat.ofDigitChars 10 (whole ++ fraction) 0, fraction.length) := by
  have hpoint : ∀ c ∈ whole, (c != '.') = true := fun c hc => ne_point_of_isDigit (hwhole c hc)
  have hpoint' : ∀ c ∈ fraction, (c != '.') = true :=
    fun c hc => ne_point_of_isDigit (hfraction c hc)
  have hlist : (String.ofList whole ++ "." ++ String.ofList fraction).toList =
      whole ++ '.' :: fraction := by simp
  have hdrop : List.dropWhile (· != '.') ('.' :: fraction) = '.' :: fraction := rfl
  unfold read
  rw [hlist, List.filter_append, List.filter_cons_of_neg (by decide), List.filter_eq_self.mpr hpoint,
    List.filter_eq_self.mpr hpoint', List.dropWhile_append_of_pos hpoint, hdrop]
  rfl

end Digits

end Numeral

theorem isDigit_of_mem_toDigits {n : ℕ} : ∀ c ∈ Nat.toDigits 10 n, c.isDigit = true := fun _ h =>
  Nat.isDigit_of_mem_toDigits (by decide) (by decide) h

/-! ## Natural numbers -/

theorem plain_repr (n : ℕ) : Numeral.IsPlain n.repr :=
  Numeral.isPlain_ofList Nat.toDigits_ne_nil isDigit_of_mem_toDigits

theorem read_repr (n : ℕ) : Numeral.read n.repr = (n, 0) := by
  rw [Nat.repr, Numeral.read_ofList isDigit_of_mem_toDigits, Nat.ofDigitChars_ten_toDigits]

end Fluxion
