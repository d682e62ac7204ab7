import Fluxion.Term.Decompose
import Fluxion.Proofs.Text.Ascii
import Fluxion.Proofs.Term.Grouping

/-!
# Decomposition keeps the value

Sums, products and powers of terms are what they should be at every point where the powers inside
exist, and so the terms of an expression add up to its value.
-/

namespace Fluxion

open ExactScalar

variable {α : Type} [ExactScalar α] {ρ : String → ℚ}

/-! ## Products and differences -/

theorem Term.sound_mul {t u : Term α} (ht : Factors.Sound ρ t.factors)
    (hu : Factors.Sound ρ u.factors) :
    Factors.Sound ρ (t.mul u).factors ∧ Factors.valueAt ρ (t.mul u).factors =
      Factors.valueAt ρ t.factors * Factors.valueAt ρ u.factors := by
  rw [Factors.sound_iff] at ht hu ⊢
  exact Factors.insertAll_sound (K := Key.Sound ρ) (fun _ _ hk hk' => hk.valueAt_eq hk') ht hu

theorem Terms.Sound.append {ts us : List (Term α)} (hts : Terms.Sound ρ ts)
    (hus : Terms.Sound ρ us) : Terms.Sound ρ (ts ++ us) := Terms.every_append.mpr ⟨hts, hus⟩

theorem Terms.Sound.map_neg {ts : List (Term α)} (h : Terms.Sound ρ ts) :
    Terms.Sound ρ (ts.map Term.neg) := by
  refine Terms.sound_iff.mpr fun u hu => ?_
  obtain ⟨t, ht, rfl⟩ := List.mem_map.mp hu
  exact Terms.sound_iff.mp h t ht

theorem Terms.valueAt_map_neg (ts : List (Term α)) :
    Terms.valueAt ρ (ts.map Term.neg) = -Terms.valueAt ρ ts := by
  induction ts with
  | nil => simp
  | cons t ts ih =>
    rw [List.map_cons, Terms.valueAt_cons, Terms.valueAt_cons, ih, Term.neg, value_neg]
    ring

theorem Terms.Sound.mul {ts us : List (Term α)} (hts : Terms.Sound ρ ts)
    (hus : Terms.Sound ρ us) : Terms.Sound ρ (Terms.mul ts us) := by
  refine Terms.sound_iff.mpr fun v hv => ?_
  obtain ⟨t, ht, hv⟩ := List.mem_flatMap.mp hv
  obtain ⟨u, hu, rfl⟩ := List.mem_map.mp hv
  exact (Term.sound_mul (Terms.sound_iff.mp hts t ht) (Terms.sound_iff.mp hus u hu)).1

theorem Terms.valueAt_map_mul {t : Term α} (ht : Factors.Sound ρ t.factors) {us : List (Term α)}
    (hus : Terms.Sound ρ us) :
    Terms.valueAt ρ (us.map fun u => t.mul u) =
      value t.coefficient * Factors.valueAt ρ t.factors * Terms.valueAt ρ us := by
  induction us with
  | nil => simp
  | cons u us ih =>
    obtain ⟨hu, hus⟩ := Terms.sound_cons.mp hus
    rw [List.map_cons, Terms.valueAt_cons, Terms.valueAt_cons, ih hus,
      (Term.sound_mul ht hu).2, Term.mul, value_mul]
    ring

theorem Terms.valueAt_mul {ts us : List (Term α)} (hts : Terms.Sound ρ ts)
    (hus : Terms.Sound ρ us) :
    Terms.valueAt ρ (Terms.mul ts us) = Terms.valueAt ρ ts * Terms.valueAt ρ us := by
  induction ts with
  | nil => simp [Terms.mul]
  | cons t ts ih =>
    obtain ⟨ht, hts⟩ := Terms.sound_cons.mp hts
    have ih := ih hts
    rw [Terms.mul] at ih ⊢
    rw [List.flatMap_cons, Terms.valueAt_append, ih, Terms.valueAt_map_mul ht hus,
      Terms.valueAt_cons]
    ring

/-! ## Powers -/

/-- Multiplying all exponents raises a product to a power. -/
theorem Factors.valueAt_map_exponent {e : α} (he : IsInteger e) {fs : List (Factor α)}
    (hfs : Factors.Sound ρ fs) :
    Factors.valueAt ρ (fs.map fun f => ⟨f.key, f.exponent * e⟩) =
      Factors.valueAt ρ fs ^ integer e := by
  induction fs with
  | nil => simp
  | cons f fs ih =>
    obtain ⟨⟨-, hint, -⟩, hfs⟩ := Factors.sound_cons.mp hfs
    rw [List.map_cons, Factors.valueAt_cons, Factors.valueAt_cons, ih hfs, hint.integer_mul he,
      mul_zpow, zpow_mul]

/-- A factor of a product that is not zero is not zero. -/
theorem Factors.valueAt_ne_zero {fs : List (Factor α)} (h : Factors.valueAt ρ fs ≠ 0) :
    ∀ f ∈ fs, f.key.valueAt ρ ^ integer f.exponent ≠ 0 := by
  induction fs with
  | nil => simp
  | cons f fs ih =>
    rw [Factors.valueAt_cons] at h
    exact List.forall_mem_cons.mpr ⟨left_ne_zero_of_mul h, ih (right_ne_zero_of_mul h)⟩

theorem Factors.Sound.map_exponent {e : α} (he : IsInteger e) {fs : List (Factor α)}
    (hfs : Factors.Sound ρ fs) (hpole : value e < 0 → Factors.valueAt ρ fs ≠ 0) :
    Factors.Sound ρ (fs.map fun f => ⟨f.key, f.exponent * e⟩) := by
  refine Factors.sound_iff.mpr fun g hg => ?_
  obtain ⟨f, hf, rfl⟩ := List.mem_map.mp hg
  obtain ⟨hkey, hint, hbase⟩ := Factors.sound_iff.mp hfs f hf
  refine ⟨hkey, hint.mul he, fun hneg => ?_⟩
  rw [value_mul] at hneg
  rcases lt_trichotomy (value f.exponent) 0 with hlt | heq | hgt
  · exact hbase hlt
  · rw [heq, zero_mul] at hneg
    exact absurd hneg (lt_irrefl 0)
  -- the exponent was positive, so `e` is negative and the whole product is not zero
  · intro hzero
    have hneg' : value e < 0 := by
      by_contra hge
      exact absurd hneg (not_lt.mpr (mul_nonneg hgt.le (not_lt.mp hge)))
    refine Factors.valueAt_ne_zero (hpole hneg') f hf ?_
    rw [hzero]
    refine zero_zpow _ fun hexp => ?_
    rw [hint.value_eq, hexp] at hgt
    simp at hgt

/-- A power that exists has the power of the coefficient, and all its exponents are scaled. -/
theorem Term.eq_of_pow {α : Type} [Scalar α] {t u : Term α} {e : α} (h : t.pow e = .ok u) :
    u = ⟨Scalar.pow t.coefficient e, t.factors.map fun f => ⟨f.key, f.exponent * e⟩⟩ := by
  rw [Term.pow] at h
  split at h
  · exact (Except.ok.inj h).symm
  · cases h

theorem Term.pow_sound {t u : Term α} {e : α} (ht : Factors.Sound ρ t.factors) (he : IsInteger e)
    (hpole : value e < 0 → value t.coefficient * Factors.valueAt ρ t.factors ≠ 0)
    (h : t.pow e = .ok u) :
    Factors.Sound ρ u.factors ∧ value u.coefficient * Factors.valueAt ρ u.factors =
      (value t.coefficient * Factors.valueAt ρ t.factors) ^ integer e := by
  obtain rfl := Term.eq_of_pow h
  have hcoef : value (Scalar.pow t.coefficient e) = value t.coefficient ^ integer e :=
    value_pow _ _ _ he.value_eq fun hneg =>
      left_ne_zero_of_mul (hpole ((integer_neg_iff e).mp hneg))
  refine ⟨ht.map_exponent he fun hneg => right_ne_zero_of_mul (hpole hneg), ?_⟩
  rw [hcoef, Factors.valueAt_map_exponent he ht, mul_zpow]

/-- A power of a sum, whichever way it is represented. -/
theorem Terms.pow_sound {ts us : List (Term α)} {e : α} (hts : Terms.Sound ρ ts) (he : IsInteger e)
    (hpole : value e < 0 → Terms.valueAt ρ ts ≠ 0) (h : Terms.pow ts e = .ok us) :
    Terms.Sound ρ us ∧ Terms.valueAt ρ us = Terms.valueAt ρ ts ^ integer e := by
  have hgroup := hts.group
  rw [← hts.valueAt_group] at hpole ⊢
  rw [Terms.pow] at h
  split at h
  · rename_i hnil
    rw [hnil]
    split at h
    · rename_i hpos
      cases h
      have hne : integer e ≠ 0 := by
        intro hzero
        rw [isPositive_iff, he.value_eq, hzero] at hpos
        simp at hpos
      exact ⟨trivial, by rw [Terms.valueAt_nil, zero_zpow _ hne]⟩
    · cases h
  · rename_i t hone
    rw [hone] at hgroup hpole ⊢
    simp only [Terms.valueAt_cons, Terms.valueAt_nil, add_zero] at hpole ⊢
    obtain ⟨u, hu, rfl⟩ := map_eq_ok.mp h
    obtain ⟨hsound, hvalue⟩ := Term.pow_sound (Terms.sound_cons.mp hgroup).1 he hpole hu
    exact ⟨Terms.sound_cons.mpr ⟨hsound, trivial⟩, by simpa using hvalue⟩
  · cases h
    have hfactor : ∀ g ∈ [(⟨.composite (Terms.group ts), e⟩ : Factor α)],
        g.key.Sound ρ ∧ g.key.HasPower ρ g.exponent := by
      intro g hg
      rw [List.mem_singleton.mp hg]
      exact ⟨hgroup, he, hpole⟩
    have hnone : ∀ g ∈ ([] : List (Factor α)), g.key.Sound ρ ∧ g.key.HasPower ρ g.exponent := by
      simp
    obtain ⟨hsound, hvalue⟩ := Factors.insertAll_sound (K := Key.Sound ρ)
      (fun _ _ hk hk' => hk.valueAt_eq hk') hnone hfactor
    refine ⟨Terms.sound_iff.mpr fun u hu => ?_, ?_⟩
    · rw [List.mem_singleton.mp hu]
      exact Factors.sound_iff.mpr hsound
    · rw [Terms.valueAt_cons, Terms.valueAt_nil, Term.ofFactors, hvalue, value_one,
        Factors.valueAt_nil, Factors.valueAt_cons, Factors.valueAt_nil, one_mul, one_mul, mul_one,
        add_zero]
      rfl

/-! ## Expressions -/

/-- No ASCII letter structures a signature. -/
theorem unstructured_of_letters {x : String} (h : (Utf8.bytes x).all isLetter = true) :
    Unstructured x := by
  intro c hc hsep
  have hascii : separators.all (fun c => decide (c.toNat < 128) && !isLetter c.val.toUInt8) = true := by
    decide
  have hchar := List.all_eq_true.mp hascii c hsep
  rw [Bool.and_eq_true, decide_eq_true_iff, Bool.not_eq_true'] at hchar
  have hletter := List.all_eq_true.mp h _ (Utf8.mem_bytes_of_mem hc hchar.1)
  rw [hchar.2] at hletter
  cases hletter

namespace Expr

/-- How an operator node decomposes, if it does. -/
theorem decompose_bin {α : Type} [Scalar α] {op : Operator} {l r : Expr α} {ts : List (Term α)}
    (h : (bin op l r).decompose = .ok ts) :
    ∃ us, l.decompose = .ok us ∧
      ((op = .pow ∧ ∃ e, r = num e ∧ Terms.pow us e = .ok ts) ∨
        ∃ vs, r.decompose = .ok vs ∧ ((op = .add ∧ ts = us ++ vs) ∨
          (op = .sub ∧ ts = us ++ vs.map Term.neg) ∨ (op = .mul ∧ ts = Terms.mul us vs))) := by
  unfold decompose at h
  obtain ⟨us, hus, h⟩ := bind_eq_ok.mp h
  refine ⟨us, hus, ?_⟩
  cases op with
  | add =>
    obtain ⟨vs, hvs, h⟩ := bind_eq_ok.mp h
    cases h
    exact Or.inr ⟨vs, hvs, Or.inl ⟨rfl, rfl⟩⟩
  | sub =>
    obtain ⟨vs, hvs, h⟩ := bind_eq_ok.mp h
    cases h
    exact Or.inr ⟨vs, hvs, Or.inr (Or.inl ⟨rfl, rfl⟩)⟩
  | mul =>
    obtain ⟨vs, hvs, h⟩ := bind_eq_ok.mp h
    cases h
    exact Or.inr ⟨vs, hvs, Or.inr (Or.inr ⟨rfl, rfl⟩)⟩
  | div =>
    obtain ⟨vs, -, h⟩ := bind_eq_ok.mp h
    cases h
  | pow =>
    cases r with
    | num e => exact Or.inl ⟨rfl, e, rfl, h⟩
    | _ => cases h
  | other c =>
    obtain ⟨vs, -, h⟩ := bind_eq_ok.mp h
    cases h

/-- The terms of an expression add up to its value. -/
theorem decompose_sound {e : Expr α} {ts : List (Term α)} (he : e.Regular ρ) (hx : e.Lettered)
    (h : e.decompose = .ok ts) : Terms.Sound ρ ts ∧ Terms.valueAt ρ ts = e.valueAt ρ := by
  induction e generalizing ts with
  | num v =>
    cases h
    exact ⟨Terms.sound_cons.mpr ⟨trivial, trivial⟩, by simp [Term.constant]⟩
  | var x =>
    cases h
    have hne : ((1 : α) == 0) = false := by
      rw [Bool.eq_false_iff]
      simp
    have hfactors : Factors.insertAll Key.canonical [] [(⟨.atom x, 1⟩ : Factor α)] = [⟨.atom x, 1⟩] := by
      simp [Factors.insertAll, Factors.insert, Factors.insertNamed, Factor.keep, hne]
    have hplain : Unstructured x := unstructured_of_letters (hx x (by simp [names]))
    rw [Term.ofFactors, hfactors]
    refine ⟨Terms.sound_cons.mpr ⟨Factors.sound_cons.mpr ⟨⟨hplain, isInteger_one, ?_⟩, trivial⟩,
      trivial⟩, ?_⟩
    · simp
    · have hone : integer (1 : α) = 1 := integer_of_value_eq (by simp)
      simp [hone]
      rfl
  | bin op l r ihl ihr =>
    obtain ⟨⟨hpow, -, hpole⟩, hl, hr⟩ := regular_bin_iff.mp he
    obtain ⟨hxl, hxr⟩ := lettered_bin.mp hx
    obtain ⟨us, hus, ⟨rfl, e, rfl, hts⟩ | ⟨vs, hvs, hop⟩⟩ := decompose_bin h
    · obtain ⟨hsus, hvus⟩ := ihl hl hxl hus
      obtain ⟨k, hk, hint⟩ := hpow rfl
      cases hk
      rw [valueAt_pow, ← hvus]
      rw [← hvus] at hpole
      exact Terms.pow_sound hsus hint (hpole rfl) hts
    · obtain ⟨hsus, hvus⟩ := ihl hl hxl hus
      obtain ⟨hsvs, hvvs⟩ := ihr hr hxr hvs
      rcases hop with ⟨rfl, rfl⟩ | ⟨rfl, rfl⟩ | ⟨rfl, rfl⟩
      · exact ⟨hsus.append hsvs, by rw [Terms.valueAt_append, hvus, hvvs, valueAt_add]⟩
      · refine ⟨hsus.append hsvs.map_neg, ?_⟩
        rw [Terms.valueAt_append, Terms.valueAt_map_neg, hvus, hvvs, valueAt_sub, sub_eq_add_neg]
      · exact ⟨hsus.mul hsvs, by rw [Terms.valueAt_mul hsus hsvs, hvus, hvvs, valueAt_mul]⟩
  | pending t ih => cases h
  | hole => cases h

end Expr

end Fluxion
