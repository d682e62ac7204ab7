import Fluxion.Proofs.Decimal.Shortest

/-!
# The nearest number

Rounding a fraction finds the number of the format that owns it. The leading bit of the fraction decides
about the exponent, and the quotient on the grid of that exponent is rounded to the mantissa. Only just
below a power of two the grid is finer than that of the owner: there the mantissa is rounded up to the next
power of two, and its carry ends up in the exponent.
-/

namespace Fluxion

namespace Binary64

/-! ## Quotients -/

/-- Only the quotient and its successor are at a distance of at most a half. -/
theorem eq_div_or_succ {q r d m : ℕ} (hr : r < d) (hlow : 2 * (m * d) ≤ 2 * (d * q + r) + d)
    (hhigh : 2 * (d * q + r) ≤ 2 * (m * d) + d) : m = q ∨ m = q + 1 := by
  have hge : q ≤ m := by
    by_contra hlt
    have hmul : (m + 1) * d ≤ q * d := Nat.mul_le_mul_right d (by omega)
    rw [add_mul, one_mul, mul_comm q] at hmul
    omega
  have hle : m ≤ q + 1 := by
    by_contra hlt
    have hmul : (q + 2) * d ≤ m * d := Nat.mul_le_mul_right d (by omega)
    rw [add_mul, mul_comm q] at hmul
    omega
  omega

theorem roundQuotient_eq_of_le {n d m : ℕ} (hd : 0 < d) (hlow : 2 * (m * d) ≤ 2 * n + d)
    (hhigh : 2 * n ≤ 2 * (m * d) + d)
    (heven : 2 * n + d = 2 * (m * d) ∨ 2 * n = 2 * (m * d) + d → m % 2 = 0) : roundQuotient n d = m := by
  have hn : d * (n / d) + n % d = n := Nat.div_add_mod n d
  have hr : n % d < d := Nat.mod_lt n hd
  simp only [roundQuotient, beq_iff_eq]
  generalize n / d = q at *
  generalize n % d = r at *
  subst hn
  obtain rfl | rfl := eq_div_or_succ hr hlow hhigh
  · rw [mul_comm m] at *
    split_ifs <;> omega
  · rw [add_mul, one_mul, mul_comm q] at *
    split_ifs <;> omega

/-- A natural number at a distance of at most a half is what the quotient is rounded to, if it is even where
the distance is a half. -/
theorem roundQuotient_eq {n d m : ℕ} (hd : 0 < d) (hlow : (m : ℚ) - 1 / 2 ≤ n / d)
    (hhigh : (n : ℚ) / d ≤ m + 1 / 2)
    (heven : (n : ℚ) / d = m - 1 / 2 ∨ (n : ℚ) / d = m + 1 / 2 → m % 2 = 0) :
    roundQuotient n d = m := by
  have hpos : (0 : ℚ) < d := Nat.cast_pos.mpr hd
  have hlow' : 2 * (m * d) ≤ 2 * n + d := by
    rw [le_div_iff₀ hpos] at hlow
    exact_mod_cast (by linarith : 2 * ((m : ℚ) * d) ≤ 2 * n + d)
  have hhigh' : 2 * n ≤ 2 * (m * d) + d := by
    rw [div_le_iff₀ hpos] at hhigh
    exact_mod_cast (by linarith : 2 * (n : ℚ) ≤ 2 * (m * d) + d)
  refine roundQuotient_eq_of_le hd hlow' hhigh' fun h => heven (h.imp (fun h => ?_) fun h => ?_)
  · have hcast : 2 * (n : ℚ) + d = 2 * (m * d) := by exact_mod_cast h
    rw [div_eq_iff hpos.ne']
    linarith only [hcast]
  · have hcast : 2 * (n : ℚ) = 2 * (m * d) + d := by exact_mod_cast h
    rw [div_eq_iff hpos.ne']
    linarith only [hcast]

theorem quotient_scaled (n d : ℕ) (e : ℤ) :
    ((n * Nat.pow 2 (-e).toNat : ℕ) : ℚ) / (d * Nat.pow 2 e.toNat : ℕ) = n / d / 2 ^ e := by
  have hscale := zpow_mul_pow_toNat_neg (q := 2) (by norm_num) e
  have hpos : (2 : ℚ) ^ (-e).toNat ≠ 0 := by positivity
  simp only [Nat.pow_eq]
  push_cast
  rw [← hscale, ← mul_assoc, mul_div_mul_right _ _ hpos, div_div]

/-- The leading bits of numerator and denominator determine the fraction up to a factor of two on either
side. -/
theorem log2_quotient_bounds {n d : ℕ} (hn : 0 < n) (hd : 0 < d) :
    (2 : ℚ) ^ ((n.log2 : ℤ) - d.log2 - 1) ≤ n / d ∧ (n : ℚ) / d < 2 ^ ((n.log2 : ℤ) - d.log2 + 1) := by
  have hpos : (0 : ℚ) < d := Nat.cast_pos.mpr hd
  have hnlow : (2 : ℚ) ^ n.log2 ≤ n := by exact_mod_cast Nat.log2_self_le hn.ne'
  have hnhigh : (n : ℚ) < 2 ^ (n.log2 + 1) := by exact_mod_cast Nat.lt_log2_self
  have hdlow : (2 : ℚ) ^ d.log2 ≤ d := by exact_mod_cast Nat.log2_self_le hd.ne'
  have hdhigh : (d : ℚ) < 2 ^ (d.log2 + 1) := by exact_mod_cast Nat.lt_log2_self
  constructor
  · rw [le_div_iff₀ hpos]
    calc (2 : ℚ) ^ ((n.log2 : ℤ) - d.log2 - 1) * d
        ≤ 2 ^ ((n.log2 : ℤ) - d.log2 - 1) * 2 ^ (d.log2 + 1) := by gcongr
      _ = 2 ^ n.log2 := by
        rw [← zpow_natCast, ← zpow_natCast, ← zpow_add₀ two_ne_zero]
        congr 1
        push_cast
        omega
      _ ≤ n := hnlow
  · rw [div_lt_iff₀ hpos]
    calc (n : ℚ) < 2 ^ (n.log2 + 1) := hnhigh
      _ = 2 ^ ((n.log2 : ℤ) - d.log2 + 1) * 2 ^ d.log2 := by
        rw [← zpow_natCast, ← zpow_natCast, ← zpow_add₀ two_ne_zero]
        congr 1
        push_cast
        omega
      _ ≤ 2 ^ ((n.log2 : ℤ) - d.log2 + 1) * d := by gcongr

/-- Comparing the scaled numbers compares the fraction with the power of two. -/
theorem scaled_lt_iff {n d : ℕ} (hd : 0 < d) (e : ℤ) :
    n * Nat.pow 2 (-e).toNat < d * Nat.pow 2 e.toNat ↔ (n : ℚ) / d < 2 ^ e := by
  have hscaled : (0 : ℚ) < (d * Nat.pow 2 e.toNat : ℕ) := by
    simp only [Nat.pow_eq]
    positivity
  rw [← div_lt_one (by positivity : (0 : ℚ) < 2 ^ e), ← quotient_scaled, div_lt_one hscaled, Nat.cast_lt]

/-- The leading bit of a positive fraction. -/
theorem binaryMagnitude_spec {n d : ℕ} (hn : 0 < n) (hd : 0 < d) :
    (2 : ℚ) ^ binaryMagnitude n d ≤ n / d ∧ (n : ℚ) / d < 2 ^ (binaryMagnitude n d + 1) := by
  obtain ⟨hlow, hhigh⟩ := log2_quotient_bounds hn hd
  rw [binaryMagnitude]
  split_ifs with h
  · exact ⟨hlow, by rwa [sub_add_cancel, ← scaled_lt_iff hd]⟩
  · exact ⟨not_lt.mp ((scaled_lt_iff hd _).not.mp h), hhigh⟩

/-- The power of two below a number is the only one with that number below the next power. -/
theorem binaryMagnitude_eq {n d : ℕ} (hn : 0 < n) (hd : 0 < d) {k : ℤ} (hlow : (2 : ℚ) ^ k ≤ n / d)
    (hhigh : (n : ℚ) / d < 2 ^ (k + 1)) : binaryMagnitude n d = k := by
  obtain ⟨hlow', hhigh'⟩ := binaryMagnitude_spec hn hd
  have hle := (zpow_lt_zpow_iff_right₀ one_lt_two).mp (hlow.trans_lt hhigh')
  have hge := (zpow_lt_zpow_iff_right₀ one_lt_two).mp (hlow'.trans_lt hhigh)
  omega

/-! ## The owner -/

/-- Exponent and mantissa of a finite number make up its pattern. The mantissa has a leading bit except at
the lowest exponent, and it is only at the powers of two above that exponent that the number below is close. -/
structure Encodes (bits : ℕ) (x : Binary64) : Prop where
  bits_eq : bits = (x.exponent + 1074).toNat * 2 ^ 52 + x.mantissa
  exponent_ge : -1074 ≤ x.exponent
  mantissa_lt : x.mantissa < 2 ^ 53
  leading : -1074 < x.exponent → 2 ^ 52 ≤ x.mantissa
  narrow_iff : x.narrowBelow = true ↔ -1074 < x.exponent ∧ x.mantissa = 2 ^ 52

theorem encodes_ofBits {bits : ℕ} (h : bits < infinityBits) : Encodes bits (ofBits bits) := by
  change bits < 0x7FF * 2 ^ 52 at h
  rw [ofBits_eq, Nat.mod_eq_of_lt (show bits / 2 ^ 52 < 2 ^ 11 by omega)]
  split_ifs with hbiased
  · constructor <;> dsimp only <;> first | omega | simp
  · constructor <;> simp only [Bool.and_eq_true, beq_iff_eq, bne_iff_ne, ne_eq] <;> omega

section Owner

variable {x : Binary64} {v : ℚ}

/-- The mantissa is at most half away from what is rounded to a number, on the grid of its exponent. -/
theorem Owns.scaled (h : x.Owns v) :
    (x.mantissa : ℚ) - (if x.narrowBelow then 1 / 4 else 1 / 2) ≤ v / 2 ^ x.exponent ∧
      v / 2 ^ x.exponent ≤ x.mantissa + 1 / 2 ∧
      (v / 2 ^ x.exponent = x.mantissa - 1 / 2 ∨ v / 2 ^ x.exponent = x.mantissa + 1 / 2 →
        x.mantissa % 2 = 0) := by
  have hpos : (0 : ℚ) < 2 ^ x.exponent := by positivity
  have hquarter : (2 : ℚ) ^ (x.exponent - 2) = 2 ^ x.exponent / 4 := by
    rw [zpow_sub₀ two_ne_zero]
    norm_num
  have hlow : x.low = (x.mantissa - (if x.narrowBelow then 1 / 4 else 1 / 2)) * 2 ^ x.exponent := by
    rw [low, hquarter]
    split <;> ring
  have hhigh : x.high = (x.mantissa + 1 / 2) * 2 ^ x.exponent := by
    rw [high, hquarter]
    ring
  have hle : (x.mantissa : ℚ) - (if x.narrowBelow then 1 / 4 else 1 / 2) ≤ v / 2 ^ x.exponent := by
    rw [le_div_iff₀ hpos, ← hlow]
    exact h.low_le
  refine ⟨hle, ?_, ?_⟩
  · rw [div_le_iff₀ hpos, ← hhigh]
    exact h.le_high
  · rintro (heq | heq)
    · cases hnarrow : x.narrowBelow with
      | true =>
        rw [heq, hnarrow, if_pos rfl] at hle
        linarith
      | false =>
        rw [hnarrow] at hlow
        exact h.even (Or.inl ((div_eq_iff hpos.ne').mp heq |>.trans hlow.symm))
    · exact h.even (Or.inr ((div_eq_iff hpos.ne').mp heq |>.trans hhigh.symm))

variable {n d bits : ℕ}

/-- What a number owns is rounded to its mantissa on the grid of its exponent. -/
theorem Owns.roundQuotient_eq (hd : 0 < d) (h : x.Owns (n / d)) :
    roundQuotient (n * Nat.pow 2 (-x.exponent).toNat) (d * Nat.pow 2 x.exponent.toNat) = x.mantissa := by
  obtain ⟨hlow, hhigh, heven⟩ := h.scaled
  have hscaled : 0 < d * Nat.pow 2 x.exponent.toNat := Nat.mul_pos hd (Nat.two_pow_pos _)
  have hhalf : (if x.narrowBelow then 1 / 4 else 1 / 2 : ℚ) ≤ 1 / 2 := by
    split <;> norm_num
  refine Binary64.roundQuotient_eq hscaled ?_ ?_ ?_ <;> rw [quotient_scaled]
  · linarith
  · exact hhigh
  · exact heven

/-- Below a power of two the grid is twice as fine, and the mantissa is rounded up to the next power. -/
theorem Owns.roundQuotient_eq_of_narrow (hd : 0 < d) (h : x.Owns (n / d)) (hx : x.narrowBelow = true)
    (hmantissa : x.mantissa = 2 ^ 52) (hlt : (n : ℚ) / d < 2 ^ 52 * 2 ^ x.exponent) :
    roundQuotient (n * Nat.pow 2 (-(x.exponent - 1)).toNat) (d * Nat.pow 2 (x.exponent - 1).toNat) =
      2 ^ 53 := by
  obtain ⟨hlow, -, -⟩ := h.scaled
  have hscaled : 0 < d * Nat.pow 2 (x.exponent - 1).toNat := Nat.mul_pos hd (Nat.two_pow_pos _)
  have hpos : (0 : ℚ) < 2 ^ x.exponent := by positivity
  have hhalf : (n : ℚ) / d / 2 ^ (x.exponent - 1) = 2 * (n / d / 2 ^ x.exponent) := by
    rw [zpow_sub_one₀ two_ne_zero]
    field_simp
  rw [← div_lt_iff₀ hpos] at hlt
  rw [hx, if_pos rfl, hmantissa] at hlow
  push_cast at hlow
  refine Binary64.roundQuotient_eq hscaled ?_ ?_ (fun _ => by decide) <;>
    rw [quotient_scaled, hhalf] <;> push_cast <;> linarith

/-- Zero is rounded to zero only. -/
theorem Owns.eq_zero (hx : Encodes bits x) (h : x.Owns 0) : bits = 0 := by
  obtain ⟨hlow, -, -⟩ := h.scaled
  have hmantissa : x.mantissa = 0 := by
    by_contra hne
    have hone : (1 : ℚ) ≤ x.mantissa := by exact_mod_cast Nat.one_le_iff_ne_zero.mpr hne
    rw [zero_div] at hlow
    split at hlow <;> linarith
  have hexponent : x.exponent = -1074 := by
    by_contra hne
    have := hx.leading (lt_of_le_of_ne hx.exponent_ge (Ne.symm hne))
    omega
  rw [hx.bits_eq, hmantissa, hexponent]
  rfl

/-! ### The leading bit of what a number owns -/

theorem two_zpow_add (e : ℤ) (k : ℕ) : (2 : ℚ) ^ (e + k) = 2 ^ k * 2 ^ e := by
  rw [zpow_add₀ two_ne_zero, zpow_natCast, mul_comm]

theorem Owns.binaryMagnitude_of_narrow (hn : 0 < n) (hd : 0 < d) (h : x.Owns (n / d))
    (hx : x.narrowBelow = true) (hmantissa : x.mantissa = 2 ^ 52)
    (hlt : (n : ℚ) / d < 2 ^ 52 * 2 ^ x.exponent) : binaryMagnitude n d = x.exponent + (51 : ℕ) := by
  obtain ⟨hlow, -, -⟩ := h.scaled
  refine binaryMagnitude_eq hn hd ?_ ?_
  · rw [two_zpow_add, ← le_div_iff₀ (by positivity)]
    rw [hx, if_pos rfl, hmantissa] at hlow
    refine le_trans ?_ hlow
    norm_num
  · rw [show x.exponent + (51 : ℕ) + 1 = x.exponent + (52 : ℕ) by push_cast; ring, two_zpow_add]
    exact hlt

theorem Owns.binaryMagnitude_le (hx : Encodes bits x) (hn : 0 < n) (hd : 0 < d) (h : x.Owns (n / d)) :
    binaryMagnitude n d ≤ x.exponent + 52 := by
  obtain ⟨-, hhigh, -⟩ := h.scaled
  have hlt : (n : ℚ) / d < 2 ^ (x.exponent + (53 : ℕ)) := by
    have hmantissa : (x.mantissa : ℚ) + 1 ≤ 2 ^ 53 := by exact_mod_cast hx.mantissa_lt
    rw [two_zpow_add, ← div_lt_iff₀ (by positivity)]
    linarith
  have hexponent := (zpow_lt_zpow_iff_right₀ one_lt_two).mp
    ((binaryMagnitude_spec hn hd).1.trans_lt hlt)
  push_cast at hexponent
  omega

theorem Owns.le_binaryMagnitude (hx : Encodes bits x) (hn : 0 < n) (hd : 0 < d) (h : x.Owns (n / d))
    (hnormal : -1074 < x.exponent)
    (hcoarse : x.narrowBelow = true → 2 ^ 52 * 2 ^ x.exponent ≤ (n : ℚ) / d) :
    x.exponent + 52 ≤ binaryMagnitude n d := by
  obtain ⟨hlow, -, -⟩ := h.scaled
  have hle : (2 : ℚ) ^ (x.exponent + (52 : ℕ)) ≤ n / d := by
    rw [two_zpow_add]
    cases hnarrow : x.narrowBelow with
    | true => exact hcoarse hnarrow
    | false =>
      have hne : x.mantissa ≠ 2 ^ 52 := fun heq => by
        simp [hx.narrow_iff.mpr ⟨hnormal, heq⟩] at hnarrow
      have hmantissa : (2 : ℚ) ^ 52 + 1 ≤ x.mantissa := by
        exact_mod_cast lt_of_le_of_ne (hx.leading hnormal) hne.symm
      rw [← le_div_iff₀ (by positivity)]
      rw [hnarrow, if_neg Bool.false_ne_true] at hlow
      linarith
  have hexponent := (zpow_lt_zpow_iff_right₀ one_lt_two).mp
    (hle.trans_lt (binaryMagnitude_spec hn hd).2)
  push_cast at hexponent
  omega

/-! ### Rounding -/

theorem nearestBits?_eq (hn : 0 < n) {e : ℤ} {m : ℕ} (he : max (binaryMagnitude n d - 52) (-1074) = e)
    (hm : Fluxion.roundQuotient (n * Nat.pow 2 (-e).toNat) (d * Nat.pow 2 e.toNat) = m)
    (hbits : bits = (e + 1074).toNat * 2 ^ 52 + m) (hlt : bits < infinityBits) :
    nearestBits? n d = some bits := by
  have hzero : ¬(n == 0) = true := by simpa using hn.ne'
  simp only [nearestBits?]
  rw [if_neg hzero, he, hm, Nat.pow_eq, ← hbits, if_pos hlt]

/-- Rounding finds the owner of a fraction. -/
theorem Owns.nearestBits?_eq (hd : 0 < d) (hbits : bits < infinityBits)
    (h : (ofBits bits).Owns (n / d)) : nearestBits? n d = some bits := by
  have hx := encodes_ofBits hbits
  generalize ofBits bits = x at *
  obtain rfl | hn := Nat.eq_zero_or_pos n
  · rw [Nat.cast_zero, zero_div] at h
    rw [h.eq_zero hx]
    rfl
  · by_cases hfine : x.narrowBelow = true ∧ (n : ℚ) / d < 2 ^ 52 * 2 ^ x.exponent
    · obtain ⟨hnarrow, hlt⟩ := hfine
      obtain ⟨hnormal, hmantissa⟩ := hx.narrow_iff.mp hnarrow
      have hmagnitude := h.binaryMagnitude_of_narrow hn hd hnarrow hmantissa hlt
      have hround := h.roundQuotient_eq_of_narrow hd hnarrow hmantissa hlt
      have he : max (binaryMagnitude n d - 52) (-1074) = x.exponent - 1 := by omega
      have hpattern : bits = (x.exponent - 1 + 1074).toNat * 2 ^ 52 + 2 ^ 53 := by
        rw [hx.bits_eq, hmantissa]
        omega
      exact Binary64.nearestBits?_eq hn he hround hpattern hbits
    · have hle := h.binaryMagnitude_le hx hn hd
      have hge := fun hnormal => h.le_binaryMagnitude hx hn hd hnormal fun hnarrow =>
        le_of_not_gt fun hlt => hfine ⟨hnarrow, hlt⟩
      have he : max (binaryMagnitude n d - 52) (-1074) = x.exponent := by
        have := hx.exponent_ge
        omega
      exact Binary64.nearestBits?_eq hn he (h.roundQuotient_eq hd) hx.bits_eq hbits

end Owner

end Binary64

/-! ## Decimals -/

/-- The leading digit of a positive decimal. -/
theorem Decimal.magnitude_spec {d : Decimal} (h : 0 < d.digits) :
    (10 : ℚ) ^ d.magnitude ≤ d.value ∧ d.value < 10 ^ (d.magnitude + 1) := by
  have hwidth : 0 < d.width := Nat.length_toDigits_pos
  have hhigh : d.digits < 10 ^ d.width := (Nat.length_toDigits_le_iff (by decide) hwidth).mp le_rfl
  have hlow : 10 ^ (d.width - 1) ≤ d.digits := by
    obtain hone | hmore := Nat.eq_zero_or_pos (d.width - 1)
    · rw [hone]
      exact h
    · refine Nat.not_lt.mp fun hlt => ?_
      have hle : d.width ≤ d.width - 1 := (Nat.length_toDigits_le_iff (by decide) hmore).mpr hlt
      omega
  have hfirst : d.magnitude = d.exponent + (d.width - 1 : ℕ) := by
    rw [magnitude]
    omega
  have hnext : d.magnitude + 1 = d.exponent + d.width := by
    rw [magnitude]
    omega
  rw [value, hnext, hfirst, zpow_add₀ (by norm_num), zpow_add₀ (by norm_num), zpow_natCast, zpow_natCast,
    mul_comm]
  refine ⟨?_, ?_⟩
  · gcongr
    exact_mod_cast hlow
  · rw [mul_comm ((10 : ℚ) ^ d.exponent)]
    gcongr
    exact_mod_cast hhigh

namespace Binary64

section Decimals

variable {x : Binary64} {bits : ℕ} {v : ℚ}

/-- A finite number owns nothing beyond the range of the format. -/
theorem Owns.lt_of_encodes (hx : Encodes bits x) (hbits : bits < infinityBits) (h : x.Owns v) :
    v < 2 ^ (1024 : ℤ) := by
  change bits < 0x7FF * 2 ^ 52 at hbits
  have hexponent : x.exponent ≤ 971 := by
    have := hx.bits_eq
    have := hx.leading
    omega
  have hmantissa : (x.mantissa : ℚ) + 1 ≤ 2 ^ 53 := by exact_mod_cast hx.mantissa_lt
  have hpower : (2 : ℚ) ^ (1024 : ℤ) = 2 ^ 53 * 2 ^ (971 : ℤ) := two_zpow_add 971 53
  obtain ⟨-, hhigh, -⟩ := h.scaled
  have hlt : v / 2 ^ x.exponent < 2 ^ 53 := by linarith
  rw [hpower]
  calc v < 2 ^ 53 * 2 ^ x.exponent := (div_lt_iff₀ (by positivity)).mp hlt
    _ ≤ 2 ^ 53 * 2 ^ (971 : ℤ) := by
      gcongr
      norm_num

/-- What is rounded to another number than zero is not far below the smallest one. -/
theorem Owns.ge_of_encodes (hx : Encodes bits x) (hbits : bits ≠ 0) (h : x.Owns v) :
    2 ^ (-1075 : ℤ) ≤ v := by
  have hmantissa : (1 : ℚ) ≤ x.mantissa := by
    have := hx.bits_eq
    have := hx.leading
    have hne : x.mantissa ≠ 0 := by omega
    exact_mod_cast Nat.one_le_iff_ne_zero.mpr hne
  obtain ⟨hlow, -, -⟩ := h.scaled
  have hhalf : 1 / 2 ≤ v / 2 ^ x.exponent := by
    split at hlow <;> linarith
  calc (2 : ℚ) ^ (-1075 : ℤ) = 1 / 2 * 2 ^ (-1074 : ℤ) := by
        rw [show (-1075 : ℤ) = -1074 - 1 by norm_num, zpow_sub_one₀ two_ne_zero, mul_comm, one_div]
    _ ≤ 1 / 2 * 2 ^ x.exponent := by
      gcongr
      · norm_num
      · exact hx.exponent_ge
    _ ≤ v := (le_div_iff₀ (by positivity)).mp hhalf

theorem two_zpow_le_ten_zpow (m k : ℕ) (h : (2 : ℚ) ^ m ≤ 10 ^ k) :
    (2 : ℚ) ^ (1023 + m : ℤ) ≤ 10 ^ (308 + k : ℤ) := by
  have hblock : (2 : ℚ) ^ 93 ≤ 10 ^ 28 := by norm_num
  calc (2 : ℚ) ^ (1023 + m : ℤ) = (2 ^ 93) ^ 11 * 2 ^ m := by
        rw [← pow_mul, ← pow_add, ← zpow_natCast]
        rfl
    _ ≤ (10 ^ 28) ^ 11 * 10 ^ k := by gcongr
    _ = 10 ^ (308 + k : ℤ) := by
      rw [← pow_mul, ← pow_add, ← zpow_natCast]
      rfl

variable {d : Decimal}

theorem Owns.magnitude_le (hx : Encodes bits x) (hbits : bits < infinityBits) (h : x.Owns d.value)
    (hd : 0 < d.digits) : d.magnitude ≤ 310 := by
  by_contra hlarge
  have hlt : (10 : ℚ) ^ (311 : ℤ) < 2 ^ (1024 : ℤ) :=
    calc (10 : ℚ) ^ (311 : ℤ) ≤ 10 ^ d.magnitude := zpow_le_zpow_right₀ (by norm_num) (by omega)
      _ ≤ d.value := (Decimal.magnitude_spec hd).1
      _ < 2 ^ (1024 : ℤ) := h.lt_of_encodes hx hbits
  exact absurd hlt (two_zpow_le_ten_zpow 1 3 (by norm_num)).not_gt

theorem Owns.le_magnitude (hx : Encodes bits x) (hbits : bits ≠ 0) (h : x.Owns d.value)
    (hd : 0 < d.digits) : -330 ≤ d.magnitude := by
  by_contra hsmall
  have hlt : (2 : ℚ) ^ (-1075 : ℤ) < 10 ^ (-330 : ℤ) :=
    calc (2 : ℚ) ^ (-1075 : ℤ) ≤ d.value := h.ge_of_encodes hx hbits
      _ < 10 ^ (d.magnitude + 1) := (Decimal.magnitude_spec hd).2
      _ ≤ 10 ^ (-330 : ℤ) := zpow_le_zpow_right₀ (by norm_num) (by omega)
  rw [zpow_neg, zpow_neg] at hlt
  exact absurd hlt (inv_anti₀ (by positivity) (two_zpow_le_ten_zpow 52 22 (by norm_num))).not_gt

/-- A decimal as the fraction that is rounded. -/
theorem value_eq_fraction (d : Decimal) :
    d.value = (d.digits * Nat.pow 10 d.exponent.toNat : ℕ) / (Nat.pow 10 (-d.exponent).toNat : ℕ) := by
  have hpos : (10 : ℚ) ^ (-d.exponent).toNat ≠ 0 := by positivity
  simp only [Nat.pow_eq]
  push_cast
  rw [eq_div_iff hpos, Decimal.value, mul_assoc, zpow_mul_pow_toNat_neg (by norm_num)]

/-- Reading a decimal finds its owner. -/
theorem Owns.ofDecimal?_eq (hbits : bits < infinityBits) (h : (ofBits bits).Owns d.value) :
    ofDecimal? d = some bits := by
  have hx := encodes_ofBits hbits
  rw [ofDecimal?]
  by_cases hzero : d.digits = 0
  · rw [Decimal.value, hzero, Nat.cast_zero, zero_mul] at h
    rw [if_pos (beq_iff_eq.mpr hzero), h.eq_zero hx]
  · have hd : 0 < d.digits := Nat.pos_of_ne_zero hzero
    rw [if_neg (by simpa using hzero), if_neg (h.magnitude_le hx hbits hd).not_gt]
    obtain rfl | hne := eq_or_ne bits 0
    · split_ifs with hsmall
      · rfl
      · rw [value_eq_fraction] at h
        exact h.nearestBits?_eq (Nat.pow_pos (by decide)) hbits
    · rw [if_neg (h.le_magnitude hx hne hd).not_gt]
      rw [value_eq_fraction] at h
      exact h.nearestBits?_eq (Nat.pow_pos (by decide)) hbits

end Decimals

end Binary64

end Fluxion
