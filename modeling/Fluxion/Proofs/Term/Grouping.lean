import Fluxion.Proofs.Term.Grouped
import Fluxion.Proofs.Term.Value

/-!
# Grouping keeps values

Keys with the same canonical name have the same value, and grouping keeps the sum. Neither can be had
alone: names are made of grouped terms, and grouping merges by name. Both are shown together, one nesting
level after the other, for whatever condition on terms makes one step of grouping keep the sum. At a point
the condition is that every power inside the terms exists.
-/

namespace Fluxion

open ExactScalar

variable {α R : Type} [ExactScalar α]

/-! ## Level by level -/

/-- The key is a variable with a plain name, or the terms inside it satisfy `S`. -/
def Key.Over (S : List (Term α) → Prop) : Key α → Prop
  | .atom x => Unstructured x
  | .composite ts => S ts

section Levels

variable [CommRing R] {I : Interpretation α R}
  (hI : ∀ a b : α, value a = value b → I.number a = I.number b)

include hI

/-- Grouping adds up the terms with regrouped keys and merged factors, if names can be trusted on the keys
of these. -/
theorem Terms.denote_group_eq_sum (hadd : ∀ a b : α, I.number (a + b) = I.number a + I.number b)
    (hzero : ∀ a : α, value a = 0 → I.number a = 0) {K : Key α → Prop} (hplain : ∀ k, K k → k.Plain)
    (hname : ∀ k k', K k → K k' → k.canonical = k'.canonical → k.denote I = k'.denote I)
    {ts : List (Term α)} (hkey : ∀ t ∈ ts, ∀ f ∈ t.factors, K (f.key.regroup Terms.group)) :
    Terms.denote I (Terms.group ts) = (ts.map fun t => t.regroup.denote I).sum := by
  have hmerged : ∀ t ∈ ts, ∀ g ∈ t.regroup.factors, K g.key := by
    intro t ht g hg
    obtain ⟨f, hf, hgf⟩ := Term.key_of_mem_canonicalWith hg
    rw [hgf]
    exact hkey t ht f hf
  rw [Terms.group_eq]
  refine Terms.denote_groupWith hadd hzero fun t ht u hu hsig => ?_
  refine Term.denote_factors_eq_of_signature_eq hI (fun f hf => ?_) (fun f hf => ?_)
    (fun f hf g hg => ?_) hsig
  · exact hplain _ (hmerged t ht f hf)
  · exact hplain _ (hmerged u hu f hf)
  · exact hname _ _ (hmerged t ht f hf) (hmerged u hu g hg)

variable {S : List (Term α) → Prop} (hplain : ∀ ts, S ts → Terms.Plain ts)
  (hover : ∀ ts, S ts → ∀ t ∈ ts, ∀ f ∈ t.factors, f.key.Over S)
  (hstep : ∀ (K : Key α → Prop) (ts : List (Term α)), (∀ k, K k → k.Over S) →
    (∀ k k', K k → K k' → k.canonical = k'.canonical → k.denote I = k'.denote I) → S ts →
    (∀ t ∈ ts, ∀ f ∈ t.factors, K (f.key.regroup Terms.group) ∧
      (f.key.regroup Terms.group).denote I = f.key.denote I) →
    S (Terms.group ts) ∧ Terms.denote I (Terms.group ts) = Terms.denote I ts)

include hplain hover hstep

/-- What names promise about the value of keys nested at most `n` deep, and what grouping keeps of terms
nested at most `n` deep. -/
theorem group_sound_upto (n : ℕ) :
    (∀ k k' : Key α, (k.Over S ∧ k.depth ≤ n) → (k'.Over S ∧ k'.depth ≤ n) →
      k.canonical = k'.canonical → k.denote I = k'.denote I) ∧
    ∀ ts : List (Term α), S ts → Terms.depth ts ≤ n →
      S (Terms.group ts) ∧ Terms.denote I (Terms.group ts) = Terms.denote I ts := by
  induction n using Nat.strong_induction_on with
  | _ n ih =>
    have hpk : ∀ k : Key α, k.Over S → k.Plain := by
      intro k hk
      cases k with
      | atom x => exact hk
      | composite ts => exact hplain ts hk
    have hkeys : ∀ k k' : Key α, (k.Over S ∧ k.depth ≤ n) → (k'.Over S ∧ k'.depth ≤ n) →
        k.canonical = k'.canonical → k.denote I = k'.denote I := by
      rintro k k' ⟨hk, hkn⟩ ⟨hk', hkn'⟩ hcanon
      -- the terms inside a key are nested less deeply than the key
      have hlt : ∀ ts, k = .composite ts ∨ k' = .composite ts → S ts ∧ Terms.depth ts < n := by
        rintro ts (rfl | rfl)
        · exact ⟨hk, hkn⟩
        · exact ⟨hk', hkn'⟩
      refine Key.denote_eq_of_canonical_eq hI (hpk k hk) (hpk k' hk') (fun ts hts => ?_)
        (fun ts us hts hus t ht u hu f hf g hg => ?_) hcanon
      · obtain ⟨hsound, hdepth⟩ := hlt ts hts
        exact ((ih _ hdepth).2 ts hsound (le_refl _)).2
      · obtain ⟨hsts, hdts⟩ := hlt ts (Or.inl hts)
        obtain ⟨hsus, hdus⟩ := hlt us (Or.inr hus)
        have hfd := Terms.depth_le_iff.mp (Terms.depth_group_le ts) t ht f hf
        have hgd := Terms.depth_le_iff.mp (Terms.depth_group_le us) u hu g hg
        have hgts := ((ih _ hdts).2 ts hsts (le_refl _)).1
        have hgus := ((ih _ hdus).2 us hsus (le_refl _)).1
        exact (ih (max (Terms.depth ts) (Terms.depth us)) (by omega)).1 _ _
          ⟨hover _ hgts t ht f hf, by omega⟩ ⟨hover _ hgus u hu g hg, by omega⟩
    refine ⟨hkeys, fun ts hts hdepth => ?_⟩
    refine hstep (fun k => k.Over S ∧ k.depth ≤ n) ts (fun _ hk => hk.1) hkeys hts
      fun t ht f hf => ?_
    have hkey := hover ts hts t ht f hf
    cases hk : f.key with
    | atom x => rw [hk] at hkey; exact ⟨⟨hkey, Nat.zero_le _⟩, rfl⟩
    | composite us =>
      rw [hk] at hkey
      have hlt : Terms.depth us < n := lt_of_lt_of_le (Terms.depth_lt_of_mem ht hf hk) hdepth
      obtain ⟨hsound, hvalue⟩ := (ih _ hlt).2 us hkey (le_refl _)
      refine ⟨⟨hsound, ?_⟩, hvalue⟩
      rw [Key.regroup, Key.depth_composite]
      exact lt_of_le_of_lt (Terms.depth_group_le us) hlt

theorem Key.Over.denote_eq {k k' : Key α} (hk : k.Over S) (hk' : k'.Over S)
    (h : k.canonical = k'.canonical) : k.denote I = k'.denote I :=
  (group_sound_upto hI hplain hover hstep (max k.depth k'.depth)).1 k k' ⟨hk, le_max_left ..⟩
    ⟨hk', le_max_right ..⟩ h

theorem Terms.group_sound {ts : List (Term α)} (h : S ts) :
    S (Terms.group ts) ∧ Terms.denote I (Terms.group ts) = Terms.denote I ts :=
  (group_sound_upto hI hplain hover hstep _).2 ts h (le_refl _)

end Levels

/-! ## At a point -/

variable {ρ : String → ℚ}

/-- Keys may be exchanged for keys of the same value. -/
theorem Factors.valueAt_map_key {φ : Key α → Key α} {fs : List (Factor α)}
    (h : ∀ f ∈ fs, (φ f.key).valueAt ρ = f.key.valueAt ρ) :
    Factors.valueAt ρ (fs.map fun f => ⟨φ f.key, f.exponent⟩) = Factors.valueAt ρ fs := by
  induction fs with
  | nil => rfl
  | cons f fs ih =>
    have ih := ih fun g hg => h g (List.mem_cons_of_mem _ hg)
    rw [List.map_cons, Factors.valueAt_cons, Factors.valueAt_cons, ih, h f (List.mem_cons_self ..)]

section Step

variable {K : Key α → Prop} (hsound : ∀ k, K k → k.Sound ρ)
  (hname : ∀ k k', K k → K k' → k.canonical = k'.canonical → k.valueAt ρ = k'.valueAt ρ)

include hname

/-- A canonical term has factors of the value of the term, if regrouping keeps the value of its keys. -/
theorem Term.canonicalWith_sound {t : Term α} (ht : Factors.Sound ρ t.factors)
    (hin : ∀ f ∈ t.factors, K (f.key.regroup Terms.group) ∧
      (f.key.regroup Terms.group).valueAt ρ = f.key.valueAt ρ) :
    (∀ g ∈ (t.canonicalWith Key.canonical Terms.group).factors,
      K g.key ∧ g.key.HasPower ρ g.exponent) ∧
      Factors.valueAt ρ (t.canonicalWith Key.canonical Terms.group).factors =
        Factors.valueAt ρ t.factors := by
  have hre : ∀ g ∈ t.factors.map fun f => (⟨f.key.regroup Terms.group, f.exponent⟩ : Factor α),
      K g.key ∧ g.key.HasPower ρ g.exponent := by
    intro g hg
    obtain ⟨f, hf, rfl⟩ := List.mem_map.mp hg
    obtain ⟨hint, hpole⟩ := (Factors.sound_iff.mp ht f hf).2
    refine ⟨(hin f hf).1, hint, fun hneg => ?_⟩
    rw [(hin f hf).2]
    exact hpole hneg
  have hnone : ∀ g ∈ ([] : List (Factor α)), K g.key ∧ g.key.HasPower ρ g.exponent := by simp
  obtain ⟨hfactors, hvalue⟩ := Factors.insertAll_sound hname hnone hre
  refine ⟨hfactors, hvalue.trans ?_⟩
  rw [Factors.valueAt_nil, one_mul]
  exact Factors.valueAt_map_key fun f hf => (hin f hf).2

include hsound

/-- Grouping keeps the sum, if names can be trusted on the regrouped keys and regrouping keeps their
values. -/
theorem Terms.group_sound_step {ts : List (Term α)} (h : Terms.Sound ρ ts)
    (hin : ∀ t ∈ ts, ∀ f ∈ t.factors, K (f.key.regroup Terms.group) ∧
      (f.key.regroup Terms.group).valueAt ρ = f.key.valueAt ρ) :
    Terms.Sound ρ (Terms.group ts) ∧ Terms.valueAt ρ (Terms.group ts) = Terms.valueAt ρ ts := by
  have hcanon := fun t ht =>
    Term.canonicalWith_sound hname (Terms.sound_iff.mp h t ht) (hin t ht)
  constructor
  · rw [Terms.group_eq]
    refine Terms.sound_iff.mpr fun u hu => ?_
    obtain ⟨t, ht, hu⟩ := Terms.factors_of_mem_groupWith hu
    rw [hu]
    exact Factors.sound_iff.mpr fun g hg =>
      ⟨hsound _ ((hcanon t ht).1 g hg).1, ((hcanon t ht).1 g hg).2⟩
  · have hsum : Terms.denote (atPoint ρ) (Terms.group ts) =
        (ts.map fun t => t.regroup.denote (atPoint ρ)).sum :=
      Terms.denote_group_eq_sum (fun _ _ hab => hab) (fun a b => value_add a b) (fun a ha => ha)
        (fun k hk => (hsound k hk).plain) hname fun t ht f hf => (hin t ht f hf).1
    rw [Terms.valueAt, hsum, Terms.valueAt, Terms.denote_eq_sum]
    refine congrArg List.sum (List.map_congr_left fun t ht => ?_)
    exact congrArg (value t.coefficient * ·) (hcanon t ht).2

end Step

theorem Key.sound_iff_over {k : Key α} : k.Sound ρ ↔ k.Over (Terms.Sound ρ) := by
  cases k with
  | atom x => rfl
  | composite ts => rfl

theorem Terms.Sound.over (ts : List (Term α)) (h : Terms.Sound ρ ts) :
    ∀ t ∈ ts, ∀ f ∈ t.factors, f.key.Over (Terms.Sound ρ) := fun _ ht _ hf =>
  Key.sound_iff_over.mp (h.key ht hf)

/-- Keys with the same canonical name have the same value. -/
theorem Key.Sound.valueAt_eq {k k' : Key α} (hk : k.Sound ρ) (hk' : k'.Sound ρ)
    (h : k.canonical = k'.canonical) : k.valueAt ρ = k'.valueAt ρ :=
  Key.Over.denote_eq (I := atPoint ρ) (fun _ _ hab => hab) (fun _ => Terms.Sound.plain)
    Terms.Sound.over (fun _ _ hK hname hts hin =>
      Terms.group_sound_step (fun k hk => Key.sound_iff_over.mpr (hK k hk)) hname hts hin)
    (Key.sound_iff_over.mp hk) (Key.sound_iff_over.mp hk') h

theorem Terms.Sound.group_and_valueAt {ts : List (Term α)} (h : Terms.Sound ρ ts) :
    Terms.Sound ρ (Terms.group ts) ∧ Terms.valueAt ρ (Terms.group ts) = Terms.valueAt ρ ts :=
  Terms.group_sound (I := atPoint ρ) (fun _ _ hab => hab) (fun _ => Terms.Sound.plain)
    Terms.Sound.over (fun _ _ hK hname hts hin =>
      Terms.group_sound_step (fun k hk => Key.sound_iff_over.mpr (hK k hk)) hname hts hin) h

theorem Terms.Sound.group {ts : List (Term α)} (h : Terms.Sound ρ ts) :
    Terms.Sound ρ (Terms.group ts) := h.group_and_valueAt.1

/-- Grouping keeps the value of a sum of terms. -/
theorem Terms.Sound.valueAt_group {ts : List (Term α)} (h : Terms.Sound ρ ts) :
    Terms.valueAt ρ (Terms.group ts) = Terms.valueAt ρ ts := h.group_and_valueAt.2

end Fluxion
