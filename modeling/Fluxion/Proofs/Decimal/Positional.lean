import Fluxion.Decimal
import Fluxion.Proofs.Decimal

/-!
# Positional texts

The positional text of a decimal number is a plain numeral, and what is read from it is the number again.
-/

namespace Fluxion

/-- The number that a literal stands for. -/
def Numeral.rational (literal : String) : ℚ := (read literal).1 / 10 ^ (read literal).2

namespace Decimal

/-- The number `digits * 10 ^ exponent`. -/
def value (d : Decimal) : ℚ := d.digits * 10 ^ d.exponent

theorem value_of_nonneg {d : Decimal} (h : 0 ≤ d.exponent) :
    d.value = d.digits * 10 ^ d.exponent.toNat := by
  rw [value, ← zpow_natCast, Int.toNat_of_nonneg h]

theorem value_of_neg {d : Decimal} (h : d.exponent < 0) :
    d.value = d.digits / 10 ^ (-d.exponent).toNat := by
  rw [value, ← zpow_natCast, Int.toNat_of_nonneg (by omega), zpow_neg, div_inv_eq_mul]

/-- Dropping zeros at the end of the digits keeps the number. -/
theorem value_trim (fuel : ℕ) (d : Decimal) : (trim fuel d).value = d.value := by
  induction fuel generalizing d with
  | zero => rfl
  | succ fuel ih =>
    rw [trim]
    split
    · rename_i h
      rw [Bool.and_eq_true, beq_iff_eq] at h
      have hdigits : ((d.digits / 10 : ℕ) : ℚ) * 10 = d.digits := by
        exact_mod_cast Nat.div_mul_cancel (Nat.dvd_of_mod_eq_zero h.2)
      rw [ih, value, value, zpow_add_one₀ (by norm_num), ← hdigits]
      ring
    · rfl

theorem isDigit_of_mem_zeros {n : ℕ} : ∀ c ∈ List.replicate n '0', c.isDigit = true := by
  intro c hc
  rw [List.eq_of_mem_replicate hc]
  rfl

/-- Without places, the text is the digits and zeros; with places, there are as many digits after the
point. -/
theorem positional_cases (d : Decimal) :
    (0 ≤ d.exponent ∧
      d.positional = String.ofList (Nat.toDigits 10 d.digits ++ List.replicate d.exponent.toNat '0')) ∨
    ∃ whole fraction : List Char, d.exponent < 0 ∧ fraction.length = (-d.exponent).toNat ∧
      whole ≠ [] ∧ (∀ c ∈ whole, c.isDigit = true) ∧ (∀ c ∈ fraction, c.isDigit = true) ∧
      Nat.ofDigitChars 10 (whole ++ fraction) 0 = d.digits ∧
      d.positional = String.ofList whole ++ "." ++ String.ofList fraction := by
  have hdigits := @isDigit_of_mem_toDigits d.digits
  by_cases h : 0 ≤ d.exponent
  · refine Or.inl ⟨h, ?_⟩
    rw [positional, if_pos h, digitString, zeros, ← String.ofList_append]
  · rw [positional, if_neg h]
    dsimp only
    generalize hds : Nat.toDigits 10 d.digits = digits at hdigits ⊢
    generalize hn : (-d.exponent).toNat = places
    have hread : Nat.ofDigitChars 10 digits 0 = d.digits := hds ▸ Nat.ofDigitChars_ten_toDigits
    split
    · refine Or.inr ⟨_, _, by omega, ?_, ?_, fun c hc => hdigits c (List.mem_of_mem_take hc),
        fun c hc => hdigits c (List.mem_of_mem_drop hc), ?_, rfl⟩
      · rw [List.length_drop]
        omega
      · rw [← List.length_pos_iff, List.length_take]
        omega
      · rw [List.take_append_drop, hread]
    · refine Or.inr ⟨['0'], List.replicate (places - digits.length) '0' ++ digits, by omega, ?_,
        List.cons_ne_nil _ _, by simp,
        List.forall_mem_append.mpr ⟨isDigit_of_mem_zeros, hdigits⟩, ?_, ?_⟩
      · rw [List.length_append, List.length_replicate]
        omega
      · rw [← List.append_assoc, ← List.replicate_one, List.replicate_append_replicate,
          Nat.ofDigitChars_append, Nat.ofDigitChars_replicate_zero, Nat.mul_zero, hread]
      · rw [String.ofList_append, ← String.append_assoc]
        rfl

theorem isPlain_positional (d : Decimal) : Numeral.IsPlain d.positional := by
  rcases d.positional_cases with ⟨-, htext⟩ | ⟨whole, fraction, -, -, hne, hwhole, hfraction, -, htext⟩
  · rw [htext]
    refine Numeral.isPlain_ofList ?_
      (List.forall_mem_append.mpr ⟨isDigit_of_mem_toDigits, isDigit_of_mem_zeros⟩)
    exact List.append_ne_nil_of_left_ne_nil Nat.toDigits_ne_nil _
  · rw [htext]
    exact Numeral.isPlain_append_point hne hwhole hfraction

/-- The positional text of a number is read as that number. -/
theorem rational_positional (d : Decimal) : Numeral.rational d.positional = d.value := by
  rcases d.positional_cases with
    ⟨h, htext⟩ | ⟨whole, fraction, h, hplaces, -, hwhole, hfraction, hread, htext⟩
  · rw [Numeral.rational, htext, Numeral.read_ofList
        (List.forall_mem_append.mpr ⟨isDigit_of_mem_toDigits, isDigit_of_mem_zeros⟩),
      Nat.ofDigitChars_append, Nat.ofDigitChars_ten_toDigits, Nat.ofDigitChars_replicate_zero,
      value_of_nonneg h]
    push_cast
    ring
  · rw [Numeral.rational, htext, Numeral.read_append_point hwhole hfraction, hread, hplaces,
      value_of_neg h]

end Decimal

end Fluxion
