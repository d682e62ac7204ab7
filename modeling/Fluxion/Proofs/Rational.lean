import Fluxion.Proofs.Exact
import Fluxion.Proofs.Text.Nesting

/-!
# Rational numbers as scalars

Rational numbers with their own arithmetic are exact scalars. An integer is written in decimal and any
other number as a fraction, and every power at an exponent that is not an integer counts as zero. The
instances are in force where `Rational` is open; elsewhere rational numbers are values only.
-/

namespace Fluxion

theorem isDigit_of_mem_repr {n : ℕ} {c : Char} (h : c ∈ n.repr.toList) : c.isDigit = true := by
  rw [Nat.toList_repr] at h
  exact Nat.isDigit_of_mem_toDigits (by decide) (by decide) h

theorem mem_toList_repr {z : ℤ} {c : Char} (h : c ∈ z.repr.toList) : c.isDigit = true ∨ c = '-' := by
  cases z with
  | ofNat n => exact Or.inl (isDigit_of_mem_repr h)
  | negSucc n =>
    rw [Int.repr, String.toList_append] at h
    rcases List.mem_append.mp h with h | h
    · exact Or.inr (List.mem_singleton.mp h)
    · exact Or.inl (isDigit_of_mem_repr h)

theorem closed_repr (z : ℤ) : Closed ['/'] z.repr := by
  refine Closed.of_forall fun c hc => ?_
  rcases mem_toList_repr hc with hd | rfl
  · refine ⟨?_, ?_, ?_⟩
    · rintro rfl
      exact absurd hd (by decide)
    · rintro rfl
      exact absurd hd (by decide)
    · intro hmem
      rw [List.mem_singleton.mp hmem] at hd
      exact absurd hd (by decide)
  · decide

namespace Rational

scoped instance : Scalar ℚ where
  pow a e := if e.den = 1 then a ^ e.num else 0
  less a b := decide (a < b)
  isFinite _ := true
  text q := if q.den = 1 then q.num.repr else q.num.repr ++ "/" ++ q.den.repr
  ofDecimal? digits places := some (digits / 10 ^ places)

theorem text_rat (q : ℚ) :
    Scalar.text q = if q.den = 1 then q.num.repr else q.num.repr ++ "/" ++ q.den.repr := rfl

/-- Numerator and denominator can be read off the text of a rational number. -/
theorem text_rat_injective {p q : ℚ} (h : Scalar.text p = Scalar.text q) : p = q := by
  rw [text_rat, text_rat] at h
  have hclosed : Separated '/' (Closed ['/']) := Closed.separated (by simp) (by decide) (by decide)
  have hsep : ∀ a b : ℤ, ∀ n : ℕ, a.repr ≠ b.repr ++ "/" ++ n.repr := fun a b n =>
    hclosed.ne_append rfl (closed_repr b) (closed_repr a)
  split at h
  · rename_i hp
    split at h
    · rename_i hq
      exact Rat.ext (Int.repr_inj.mp h) (hp.trans hq.symm)
    · exact absurd h (hsep _ _ _)
  · split at h
    · exact absurd h.symm (hsep _ _ _)
    · obtain ⟨hnum, hden⟩ := hclosed.append_inj rfl (closed_repr p.num) (closed_repr q.num) h
      exact Rat.ext (Int.repr_inj.mp hnum) (Nat.repr_inj.mp hden)

theorem text_rat_plain (q : ℚ) : ∀ c ∈ (Scalar.text q).toList, c ∉ separators := by
  have hclass : ∀ c ∈ (Scalar.text q).toList, c.isDigit = true ∨ c = '-' ∨ c = '/' := by
    intro c hc
    rw [text_rat] at hc
    split at hc
    · rcases mem_toList_repr hc with hd | rfl
      · exact Or.inl hd
      · exact Or.inr (Or.inl rfl)
    · rw [String.toList_append, String.toList_append] at hc
      rcases List.mem_append.mp hc with hc | hc
      · rcases List.mem_append.mp hc with hc | hc
        · rcases mem_toList_repr hc with hd | rfl
          · exact Or.inl hd
          · exact Or.inr (Or.inl rfl)
        · exact Or.inr (Or.inr (List.mem_singleton.mp hc))
      · exact Or.inl (isDigit_of_mem_repr hc)
  have hsep : ∀ c ∈ separators, c.isDigit = false ∧ c ≠ '-' ∧ c ≠ '/' := by simp [separators]
  intro c hc hmem
  obtain ⟨hdigit, hminus, hslash⟩ := hsep c hmem
  rcases hclass c hc with h | h | h
  · rw [hdigit] at h
    cases h
  · exact hminus h
  · exact hslash h

scoped instance : ExactScalar ℚ where
  value := id
  value_zero := rfl
  value_one := rfl
  value_natCast _ := rfl
  value_add _ _ := rfl
  value_sub _ _ := rfl
  value_mul _ _ := rfl
  value_neg _ := rfl
  value_div _ _ _ := rfl
  value_pow a e k hk _ := by
    have hk : e = k := hk
    show (if e.den = 1 then a ^ e.num else 0) = a ^ k
    rw [hk, if_pos (Rat.den_intCast k), Rat.num_intCast]
  beq_iff _ _ := beq_iff_eq
  less_iff _ _ := decide_eq_true_iff
  text_eq_iff _ _ := ⟨text_rat_injective, fun h => congrArg _ h⟩
  text_plain := text_rat_plain

end Rational

end Fluxion
