import Fluxion.Expr.Derive
import Fluxion.Proofs.Evaluate

/-!
# The rules of differentiation are right

At every depth, the tree that the rules produce has the derivative of the given tree as its value, when
a marker is read as the derivative of its target. What the tree does not define it keeps out of reach:
the only new power that may fail to exist comes from the power rule at exponent zero, and it stands to
the right of that zero.
-/

namespace Fluxion.Expr

open ExactScalar

variable {α : Type}

/-- What the rules do to an operator node: nothing but a marker when no depth is left, else the rule of
the operator. -/
theorem derive_bin [Scalar α] {d : ℤ} {op : Operator} {l r m : Expr α}
    (h : (bin op l r).derive d = .ok m) :
    m = pending (bin op l r) ∨
      (∃ e dl, op = .pow ∧ r = num e ∧ l.derive (d - 1) = .ok dl ∧ m = powerRule l e dl) ∨
      ∃ dl dr, l.derive (d - 1) = .ok dl ∧ r.derive (d - 1) = .ok dr ∧
        ((op = .add ∧ m = add dl dr) ∨ (op = .sub ∧ m = sub dl dr) ∨
          (op = .mul ∧ m = productRule l r dl dr) ∨ (op = .div ∧ m = quotientRule l r dl dr)) := by
  rw [derive] at h
  split at h
  · exact Or.inl (Except.ok.inj h).symm
  · right
    obtain ⟨dl, hl, h⟩ := bind_eq_ok.mp h
    split at h
    · exact Or.inl ⟨_, dl, rfl, rfl, hl, (Except.ok.inj h).symm⟩
    · cases h
    · right
      obtain ⟨dr, hr, h⟩ := bind_eq_ok.mp h
      refine ⟨dl, dr, hl, hr, ?_⟩
      cases op with
      | add => exact Or.inl ⟨rfl, (Except.ok.inj h).symm⟩
      | sub => exact Or.inr (Or.inl ⟨rfl, (Except.ok.inj h).symm⟩)
      | mul => exact Or.inr (Or.inr (Or.inl ⟨rfl, (Except.ok.inj h).symm⟩))
      | div => exact Or.inr (Or.inr (Or.inr ⟨rfl, (Except.ok.inj h).symm⟩))
      | pow => cases h
      | other c => cases h

section Exact

variable [ExactScalar α] {ρ : String → ℚ} {x : String}

/-- The power rule, from a tree `d` that stands for the derivative of the base. -/
theorem powerRule_sound {b d : Expr α} {e : α} (hm : b.MarkerFree) (hb : b.IntegerPowers)
    (hp : b.PoleFree ρ) (he : IsInteger e) (hpole : value e < 0 → b.valueAt ρ ≠ 0)
    (hd : d.denote (resolvedAt ρ x) = b.derivativeAt ρ x) (hdg : d.Guarded ρ x)
    (hdi : d.IntegerPowers) :
    (powerRule b e d).denote (resolvedAt ρ x) = (pow b e).derivativeAt ρ x ∧
      (powerRule b e d).Guarded ρ x ∧ (powerRule b e d).IntegerPowers := by
  have hbv : b.denote (resolvedAt ρ x) = b.valueAt ρ := denote_resolvedAt hm ρ x
  refine ⟨?_, ?_, ?_⟩
  · rw [derivativeAt_pow ρ x b e fun hn => hpole ((integer_neg_iff e).mp hn), powerRule, denote, hd]
    show value e * b.denote (resolvedAt ρ x) ^ integer (e - 1) * _ = _
    rw [hbv, he.integer_sub isInteger_one, he.value_eq,
      show integer (1 : α) = 1 from integer_of_value_eq (by simp)]
  · refine Or.inr ⟨by simp, ?_, hdg⟩
    by_cases hz : value e = 0
    · exact Or.inl ⟨rfl, (beq_zero_iff e).mpr hz⟩
    · refine Or.inr ⟨by simp, trivial, Or.inr ⟨⟨by simp, fun _ hn => ?_⟩, hp.guarded hm, trivial⟩⟩
      rw [hbv]
      apply hpole
      -- an integer below one that is not zero is negative
      have hlt : value e - 1 < 0 := by
        have : value (e - 1) < 0 := hn
        simpa using this
      rw [he.value_eq] at hlt hz ⊢
      norm_cast at hlt hz ⊢
      omega
  · exact ⟨by simp, ⟨by simp, trivial, fun _ => ⟨_, rfl, he.sub isInteger_one⟩, hb, trivial⟩, hdi⟩

/-- At every depth the rules produce a tree whose value is the derivative, markers being read as
derivatives. -/
theorem derive_sound {d : ℤ} {n m : Expr α} (hm : n.MarkerFree) (hint : n.IntegerPowers)
    (hp : n.PoleFree ρ) (h : n.derive d = .ok m) :
    m.denote (resolvedAt ρ x) = n.derivativeAt ρ x ∧ m.Guarded ρ x ∧ m.IntegerPowers := by
  induction n generalizing d m with
  | num v => cases h; exact ⟨rfl, trivial, trivial⟩
  | var y => cases h; exact ⟨rfl, trivial, trivial⟩
  | bin op l r ihl ihr =>
    have hlv : l.denote (resolvedAt ρ x) = l.valueAt ρ := denote_resolvedAt hm.1 ρ x
    have hrv : r.denote (resolvedAt ρ x) = r.valueAt ρ := denote_resolvedAt hm.2 ρ x
    have hlg : l.Guarded ρ x := PoleFree.guarded hp.2.1 hm.1
    have hrg : r.Guarded ρ x := PoleFree.guarded hp.2.2 hm.2
    rcases derive_bin h with rfl | ⟨e, dl, rfl, rfl, hl, rfl⟩ | ⟨dl, dr, hl, hr, hcase⟩
    · exact ⟨rfl, trivial, hint⟩
    · obtain ⟨hvl, hgl, hil⟩ := ihl hm.1 hint.2.1 hp.2.1 hl
      obtain ⟨k, hk, hki⟩ := hint.1 rfl
      cases hk
      exact powerRule_sound hm.1 hint.2.1 hp.2.1 hki (hp.1.2 rfl) hvl hgl hil
    · obtain ⟨hvl, hgl, hil⟩ := ihl hm.1 hint.2.1 hp.2.1 hl
      obtain ⟨hvr, hgr, hir⟩ := ihr hm.2 hint.2.2 hp.2.2 hr
      have hmul (a b : Expr α) (ha : a.Guarded ρ x) (hb : b.Guarded ρ x) : (mul a b).Guarded ρ x :=
        Or.inr ⟨by simp, ha, hb⟩
      rcases hcase with ⟨rfl, rfl⟩ | ⟨rfl, rfl⟩ | ⟨rfl, rfl⟩ | ⟨rfl, rfl⟩
      · refine ⟨by simp [hvl, hvr], Or.inr ⟨by simp, hgl, hgr⟩, by simp, hil, hir⟩
      · refine ⟨by simp [hvl, hvr], Or.inr ⟨by simp, hgl, hgr⟩, by simp, hil, hir⟩
      · refine ⟨?_, Or.inr ⟨by simp, hmul _ _ hgl hrg, hmul _ _ hlg hgr⟩, by simp,
          ⟨by simp, hil, hint.2.2⟩, by simp, hint.2.1, hir⟩
        rw [productRule, denote, denote, denote, hvl, hvr, hlv, hrv, derivativeAt_mul]
      · have hr0 : r.valueAt ρ ≠ 0 := hp.1.1 rfl
        have hsq : (pow r Scalar.two).denote (resolvedAt ρ x) = r.valueAt ρ ^ 2 := by
          show r.denote (resolvedAt ρ x) ^ integer (Scalar.two : α) = _
          rw [hrv, integer_of_value_eq (k := 2) (by simp)]
          rfl
        have hsqg : (pow r Scalar.two).Guarded ρ x := by
          refine Or.inr ⟨⟨by simp, fun _ _ => ?_⟩, hrg, trivial⟩
          rw [hrv]
          exact hr0
        refine ⟨?_, Or.inr ⟨⟨fun _ => ?_, by simp⟩,
          Or.inr ⟨by simp, hmul _ _ hgl hrg, hmul _ _ hlg hgr⟩, hsqg⟩,
          by simp, ⟨by simp, ⟨by simp, hil, hint.2.2⟩, by simp, hint.2.1, hir⟩,
          fun _ => ⟨_, rfl, isInteger_two⟩, hint.2.2, trivial⟩
        · rw [derivativeAt_div ρ x l r hr0, quotientRule, denote, hsq, denote, denote, denote, hvl, hvr,
            hlv, hrv]
          rfl
        · rw [hsq]
          exact pow_ne_zero 2 hr0
  | pending t ih => exact hm.elim
  | hole =>
    rw [derive] at h
    split at h
    · cases h; exact ⟨rfl, trivial, trivial⟩
    · cases h

end Exact

/-- The rules bring in no new variable. -/
theorem names_derive_subset [Scalar α] {d : ℤ} {n m : Expr α} (h : n.derive d = .ok m) :
    m.names ⊆ n.names := by
  induction n generalizing d m with
  | num v => cases h; exact List.Subset.refl _
  | var y => cases h; exact List.Subset.refl _
  | bin op l r ihl ihr =>
    rcases derive_bin h with rfl | ⟨e, dl, rfl, rfl, hl, rfl⟩ | ⟨dl, dr, hl, hr, hcase⟩
    · exact List.Subset.refl _
    · have hdl := ihl hl
      grind [names, powerRule]
    · have hdl := ihl hl
      have hdr := ihr hr
      grind [names, productRule, quotientRule]
  | pending t ih =>
    rw [derive] at h
    split at h <;> cases h
    exact List.Subset.refl _
  | hole =>
    rw [derive] at h
    split at h <;> cases h
    exact List.Subset.refl _

end Fluxion.Expr
