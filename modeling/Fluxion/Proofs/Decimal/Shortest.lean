import Fluxion.Decimal.Binary64
import Fluxion.Proofs.Decimal.Positional

/-!
# The shortest decimal

A number of the format owns the rational numbers between the midpoints to its two neighbours, and the
midpoints themselves when its mantissa is even. The shortest decimal of a number is one that the number
owns, and no rational has two owners: where one interval ends the next one begins, and of two neighbours
only one is even. So numbers with the same shortest decimal are the same.
-/

namespace Fluxion.Binary64

/-! ## Rounding intervals -/

section Intervals

variable (x : Binary64)

/-- The number `mantissa * 2 ^ exponent`. -/
def value : ℚ := x.mantissa * 2 ^ x.exponent

/-- The midpoint to the number just below. -/
def low : ℚ := (4 * x.mantissa - if x.narrowBelow then 1 else 2) * 2 ^ (x.exponent - 2)

/-- The midpoint to the number just above. -/
def high : ℚ := (4 * x.mantissa + 2) * 2 ^ (x.exponent - 2)

/-- A rational number that is rounded to `x`. -/
structure Owns (v : ℚ) : Prop where
  low_le : x.low ≤ v
  le_high : v ≤ x.high
  even : v = x.low ∨ v = x.high → x.mantissa % 2 = 0

theorem value_eq : x.value = 4 * x.mantissa * 2 ^ (x.exponent - 2) := by
  have hexp : x.exponent = (x.exponent - 2) + 2 := by omega
  rw [value]
  nth_rewrite 1 [hexp]
  rw [zpow_add₀ (by norm_num)]
  ring

variable {x} in
theorem value_of_nonneg (h : 0 ≤ x.exponent) : x.value = x.mantissa * 2 ^ x.exponent.toNat := by
  rw [value, ← zpow_natCast, Int.toNat_of_nonneg h]

variable {x} in
theorem value_of_nonpos (h : x.exponent ≤ 0) : x.value = x.mantissa / 2 ^ (-x.exponent).toNat := by
  rw [value, ← zpow_natCast, Int.toNat_of_nonneg (by omega), zpow_neg, div_inv_eq_mul]

theorem low_lt_value : x.low < x.value := by
  rw [value_eq, low]
  refine mul_lt_mul_of_pos_right ?_ (by positivity)
  split <;> linarith

theorem value_lt_high : x.value < x.high := by
  rw [value_eq, high]
  refine mul_lt_mul_of_pos_right ?_ (by positivity)
  linarith

theorem low_lt_high : x.low < x.high := x.low_lt_value.trans x.value_lt_high

theorem owns_value : x.Owns x.value where
  low_le := x.low_lt_value.le
  le_high := x.value_lt_high.le
  even h := by
    rcases h with h | h
    · exact absurd h x.low_lt_value.ne'
    · exact absurd h x.value_lt_high.ne

end Intervals

/-! ## Exact comparison -/

theorem zpow_mul_pow_toNat_neg {q : ℚ} (hq : q ≠ 0) (i : ℤ) :
    q ^ i * q ^ (-i).toNat = q ^ i.toNat := by
  rw [← zpow_natCast, ← zpow_natCast, ← zpow_add₀ hq]
  congr 1
  omega

/-- The comparison of two scaled numbers is that of the numbers they stand for. -/
theorem compareScaled_eq (a b : ℕ) (i j : ℤ) :
    compareScaled a i b j = cmp ((a : ℚ) * 10 ^ i) (b * 2 ^ j) := by
  have hten := zpow_mul_pow_toNat_neg (q := 10) (by norm_num) i
  have htwo := zpow_mul_pow_toNat_neg (q := 2) (by norm_num) j
  have hscale : (0 : ℚ) < 10 ^ (-i).toNat * 2 ^ (-j).toNat := by positivity
  have hleft : (a : ℚ) * 10 ^ i * (10 ^ (-i).toNat * 2 ^ (-j).toNat) =
      (a * 10 ^ i.toNat * 2 ^ (-j).toNat : ℕ) := by
    push_cast
    rw [← hten]
    ring
  have hright : (b : ℚ) * 2 ^ j * (10 ^ (-i).toNat * 2 ^ (-j).toNat) =
      (b * 2 ^ j.toNat * 10 ^ (-i).toNat : ℕ) := by
    push_cast
    rw [← htwo]
    ring
  rw [← cmp_mul_pos_right hscale, hleft, hright, Nat.strictMono_cast.cmp_map_eq, cmp_eq_compare]
  rfl

theorem readsBack_iff {x : Binary64} (hx : 0 < x.mantissa) (d : Decimal) :
    x.readsBack d = true ↔ x.Owns d.value := by
  have hlow : x.low = ((if x.narrowBelow then 4 * x.mantissa - 1 else 4 * x.mantissa - 2 : ℕ) : ℚ) *
      2 ^ (x.exponent - 2) := by
    rw [low]
    split
    · rw [Nat.cast_sub (by omega)]
      push_cast
      rfl
    · rw [Nat.cast_sub (by omega)]
      push_cast
      rfl
  have hhigh : x.high = ((4 * x.mantissa + 2 : ℕ) : ℚ) * 2 ^ (x.exponent - 2) := by
    rw [high]
    push_cast
    rfl
  rw [readsBack]
  simp only [compareScaled_eq, ← hlow, ← hhigh, Bool.and_eq_true, Bool.or_eq_true, beq_iff_eq,
    cmp_eq_gt_iff, cmp_eq_lt_iff, cmp_eq_eq_iff]
  change (x.low < d.value ∨ x.mantissa % 2 = 0 ∧ d.value = x.low) ∧
    (d.value < x.high ∨ x.mantissa % 2 = 0 ∧ d.value = x.high) ↔ _
  constructor
  · rintro ⟨hlow, hhigh⟩
    refine ⟨?_, ?_, ?_⟩
    · exact hlow.elim le_of_lt fun h => h.2.ge
    · exact hhigh.elim le_of_lt fun h => h.2.le
    · rintro (h | h)
      · exact (hlow.resolve_left h.not_gt).1
      · exact (hhigh.resolve_left h.not_lt).1
  · intro h
    refine ⟨?_, ?_⟩
    · exact h.low_le.lt_or_eq.imp_right fun heq => ⟨h.even (Or.inl heq.symm), heq.symm⟩
    · exact h.le_high.lt_or_eq.imp_right fun heq => ⟨h.even (Or.inr heq), heq⟩

/-! ## Candidates -/

theorem roundQuotient_cases (n d : ℕ) : roundQuotient n d = n / d ∨ roundQuotient n d = n / d + 1 := by
  simp only [roundQuotient]
  split_ifs
  · exact Or.inr rfl
  · have := Nat.mod_two_eq_zero_or_one (n / d)
    omega
  · exact Or.inl rfl

theorem readsBack_of_onGrid? {x : Binary64} {power : ℤ} {d : Decimal} (h : x.onGrid? power = some d) :
    x.readsBack d = true := by
  rw [onGrid?] at h
  split at h
  · rename_i hlower hupper
    rw [Bool.and_eq_true] at hlower
    cases h
    generalize (scale x.mantissa x.exponent).1 * Nat.pow 10 (-power).toNat = n at *
    generalize (scale x.mantissa x.exponent).2 * Nat.pow 10 power.toNat = m at *
    rcases roundQuotient_cases n m with hround | hround <;> rw [hround]
    · exact hlower.2
    · exact hupper
  · rename_i hlower hupper
    rw [Bool.and_eq_true] at hlower
    cases h
    exact hlower.2
  · rename_i hlower hupper
    cases h
    exact hupper
  · cases h

theorem value_of_whole? {x : Binary64} {n : ℕ} (h : x.whole? = some n) :
    (⟨n, 0⟩ : Decimal).value = x.value := by
  simp only [whole?] at h
  split_ifs at h with hexp hunit
  cases h
  rw [beq_iff_eq] at hunit
  rw [Decimal.value_of_nonneg le_rfl, value_of_nonpos hexp]
  have hdvd : 2 ^ (-x.exponent).toNat ∣ x.mantissa := Nat.dvd_of_mod_eq_zero hunit
  change ((x.mantissa / 2 ^ (-x.exponent).toNat : ℕ) : ℚ) * 10 ^ 0 = _
  rw [Nat.cast_div hdvd (by positivity)]
  push_cast
  ring

/-- Powers of two below one are powers of five with the point moved. -/
theorem value_exact (x : Binary64) :
    (if 0 ≤ x.exponent then ⟨x.mantissa * Nat.pow 2 x.exponent.toNat, 0⟩
      else ⟨x.mantissa * Nat.pow 5 (-x.exponent).toNat, x.exponent⟩ : Decimal).value = x.value := by
  split
  · rename_i h
    rw [Decimal.value_of_nonneg le_rfl, value_of_nonneg h]
    change ((x.mantissa * 2 ^ x.exponent.toNat : ℕ) : ℚ) * 10 ^ 0 = _
    push_cast
    ring
  · rename_i h
    have hten : (10 : ℚ) ^ (-x.exponent).toNat = 5 ^ (-x.exponent).toNat * 2 ^ (-x.exponent).toNat := by
      rw [← mul_pow]
      norm_num
    rw [Decimal.value_of_neg (by simpa using h), value_of_nonpos (by omega)]
    change ((x.mantissa * 5 ^ (-x.exponent).toNat : ℕ) : ℚ) / 10 ^ (-x.exponent).toNat = _
    push_cast
    rw [hten]
    field_simp

theorem owns_search {x : Binary64} (hx : 0 < x.mantissa) : x.Owns x.search.value := by
  rw [search]
  cases hfound : (List.range 17).findSome? fun (i : ℕ) => x.onGrid? (x.decimalMagnitude - (i : ℤ)) with
  | some d =>
    obtain ⟨i, -, hgrid⟩ := List.exists_of_findSome?_eq_some hfound
    exact (readsBack_iff hx d).mp (readsBack_of_onGrid? hgrid)
  | none =>
    rw [Option.getD_none, value_exact]
    exact x.owns_value

/-- The shortest decimal of a number is rounded to the number. -/
theorem owns_shortest {x : Binary64} (hx : 0 < x.mantissa) : x.Owns x.shortest.value := by
  rw [shortest]
  split
  · rename_i n hn
    rw [Decimal.value_trim, value_of_whole? hn]
    exact x.owns_value
  · rw [Decimal.value_trim]
    exact owns_search hx

/-! ## One owner -/

/-- The fields of a pattern. -/
theorem ofBits_eq (bits : ℕ) :
    ofBits bits =
      if bits / 2 ^ 52 % 2 ^ 11 = 0 then ⟨bits % 2 ^ 52, -1074, false⟩
      else ⟨2 ^ 52 + bits % 2 ^ 52, (bits / 2 ^ 52 % 2 ^ 11 : ℕ) - 1075,
        bits % 2 ^ 52 == 0 && bits / 2 ^ 52 % 2 ^ 11 != 1⟩ := by
  simp only [ofBits, Nat.pow_eq, beq_iff_eq]

theorem mantissa_ofBits_mod_two (bits : ℕ) : (ofBits bits).mantissa % 2 = bits % 2 := by
  rw [ofBits_eq]
  split <;> dsimp only <;> omega

theorem mantissa_ofBits_pos {bits : ℕ} (hpos : 0 < bits) (h : bits < infinityBits) :
    0 < (ofBits bits).mantissa := by
  change bits < 0x7FF * 2 ^ 52 at h
  rw [ofBits_eq]
  split <;> dsimp only <;> omega

/-- The interval of a number begins where that of the number before it ends. -/
theorem low_ofBits_succ {bits : ℕ} (h : bits + 1 < infinityBits) :
    (ofBits (bits + 1)).low = (ofBits bits).high := by
  change bits + 1 < 0x7FF * 2 ^ 52 at h
  rw [ofBits_eq, ofBits_eq, Nat.mod_eq_of_lt (show (bits + 1) / 2 ^ 52 < 2 ^ 11 by omega),
    Nat.mod_eq_of_lt (show bits / 2 ^ 52 < 2 ^ 11 by omega)]
  by_cases hcarry : (bits + 1) % 2 ^ 52 = 0
  · -- the number above is the first one of the next power of two
    have hexp : (bits + 1) / 2 ^ 52 = bits / 2 ^ 52 + 1 := by omega
    have hfraction : bits % 2 ^ 52 = 2 ^ 52 - 1 := by omega
    rw [hexp, hcarry, hfraction, if_neg (Nat.succ_ne_zero _)]
    generalize bits / 2 ^ 52 = k
    rcases Nat.eq_zero_or_pos k with rfl | hk
    · have hsame : ((0 + 1 : ℕ) : ℤ) - 1075 - 2 = -1074 - 2 := rfl
      rw [if_pos rfl, low, high, if_neg (by simp), hsame,
        mul_left_inj' (zpow_ne_zero _ (by norm_num))]
      norm_num
    · have hwide : ((k + 1 : ℕ) : ℤ) - 1075 - 2 = (k : ℤ) - 1075 - 2 + 1 := by
        push_cast
        ring
      rw [if_neg hk.ne', low, high]
      dsimp only
      rw [hwide, zpow_add_one₀ (by norm_num), if_pos (by simp [hk.ne'])]
      norm_num
      ring
  · have hexp : (bits + 1) / 2 ^ 52 = bits / 2 ^ 52 := by omega
    have hfraction : (bits + 1) % 2 ^ 52 = bits % 2 ^ 52 + 1 := by omega
    rw [hexp, hfraction]
    split
    · rw [low, high, Nat.cast_add_one, mul_left_inj' (zpow_ne_zero _ (by norm_num)), if_neg (by simp)]
      ring
    · rw [low, high, if_neg (by simp)]
      push_cast
      ring

theorem high_ofBits_le_low {a b : ℕ} (hab : a < b) (hb : b < infinityBits) :
    (ofBits a).high ≤ (ofBits b).low := by
  induction b, hab using Nat.le_induction with
  | base => exact (low_ofBits_succ hb).ge
  | succ b hab ih =>
    calc (ofBits a).high ≤ (ofBits b).low := ih (by omega)
      _ ≤ (ofBits b).high := (ofBits b).low_lt_high.le
      _ = (ofBits (b + 1)).low := (low_ofBits_succ hb).symm

/-- A rational between two numbers would be the midpoint of neighbours that are both even. -/
theorem Owns.not_lt {a b : ℕ} (hb : b < infinityBits) {v : ℚ} (hva : (ofBits a).Owns v)
    (hvb : (ofBits b).Owns v) : ¬a < b := by
  intro hab
  have hle := high_ofBits_le_low hab hb
  have hhigh : v = (ofBits a).high := le_antisymm hva.le_high (hle.trans hvb.low_le)
  have hlow : v = (ofBits b).low := le_antisymm (hva.le_high.trans hle) hvb.low_le
  have ha := hva.even (Or.inr hhigh)
  have hb' := hvb.even (Or.inl hlow)
  rw [mantissa_ofBits_mod_two] at ha hb'
  have hgap := high_ofBits_le_low (show a + 1 < b by omega) hb
  have hstrict := (ofBits (a + 1)).low_lt_high
  rw [low_ofBits_succ (by omega), ← hhigh] at hstrict
  rw [← hlow] at hgap
  exact absurd hgap hstrict.not_ge

/-- No rational is rounded to two numbers. -/
theorem Owns.unique {a b : ℕ} (ha : a < infinityBits) (hb : b < infinityBits) {v : ℚ}
    (hva : (ofBits a).Owns v) (hvb : (ofBits b).Owns v) : a = b :=
  Nat.le_antisymm (Nat.not_lt.mp (hvb.not_lt ha hva)) (Nat.not_lt.mp (hva.not_lt hb hvb))

end Fluxion.Binary64
