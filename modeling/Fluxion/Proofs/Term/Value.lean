import Fluxion.Proofs.Meaning
import Fluxion.Proofs.Term.Signature

/-!
# The value of terms

A list of terms denotes the sum of its terms, a term its coefficient times the product of its factors,
and a composite key the sum of the terms inside. Terms with the same signature have factors of the same
value, so merging by signature keeps the sum. At a point where the bases of negative exponents are
non-zero, merging factors by name keeps the product, and grouping keeps the value of a list of terms.
-/

namespace Fluxion

open ExactScalar

variable {α R : Type}

mutual

/-- The value of a key. -/
def Key.denote [Zero R] [One R] [Add R] [Mul R] (I : Interpretation α R) : Key α → R
  | .atom x => I.named x
  | .composite ts => Terms.denote I ts

/-- The product of some factors. -/
def Factors.denote [Zero R] [One R] [Add R] [Mul R] (I : Interpretation α R) :
    List (Factor α) → R
  | [] => 1
  | ⟨k, e⟩ :: fs => I.power (k.denote I) (I.number e) * Factors.denote I fs

/-- The sum of some terms. -/
def Terms.denote [Zero R] [One R] [Add R] [Mul R] (I : Interpretation α R) : List (Term α) → R
  | [] => 0
  | ⟨c, fs⟩ :: ts => I.number c * Factors.denote I fs + Terms.denote I ts

end

/-- The value of a single factor. -/
def Factor.denote [Zero R] [One R] [Add R] [Mul R] (I : Interpretation α R) (f : Factor α) : R :=
  I.power (f.key.denote I) (I.number f.exponent)

/-- The value of a single term. -/
def Term.denote [Zero R] [One R] [Add R] [Mul R] (I : Interpretation α R) (t : Term α) : R :=
  I.number t.coefficient * Factors.denote I t.factors

/-! ## Sums and products -/

section Ring

variable [CommRing R] (I : Interpretation α R)

theorem Factors.denote_eq_prod (fs : List (Factor α)) :
    Factors.denote I fs = (fs.map (Factor.denote I)).prod := by
  induction fs with
  | nil => simp [Factors.denote]
  | cons f fs ih =>
    obtain ⟨k, e⟩ := f
    simp [Factors.denote, Factor.denote, ih]

theorem Terms.denote_eq_sum (ts : List (Term α)) :
    Terms.denote I ts = (ts.map (Term.denote I)).sum := by
  induction ts with
  | nil => simp [Terms.denote]
  | cons t ts ih =>
    obtain ⟨c, fs⟩ := t
    simp [Terms.denote, Term.denote, ih]

theorem Factors.denote_append (fs gs : List (Factor α)) :
    Factors.denote I (fs ++ gs) = Factors.denote I fs * Factors.denote I gs := by
  simp [Factors.denote_eq_prod]

theorem Terms.denote_append (ts us : List (Term α)) :
    Terms.denote I (ts ++ us) = Terms.denote I ts + Terms.denote I us := by
  simp [Terms.denote_eq_sum]

end Ring

/-- Elements matched by equal labels, and of equal value wherever their labels are equal, have the same
values up to order. -/
theorem perm_map_of_perm_label {β γ δ : Type} {label : β → γ} {val : β → δ} {fs gs : List β}
    (h : (fs.map label).Perm (gs.map label))
    (hval : ∀ f ∈ fs, ∀ g ∈ gs, label f = label g → val f = val g) :
    (fs.map val).Perm (gs.map val) := by
  have hrel : Multiset.Rel (fun a b => label a = label b) (fs : Multiset β) (gs : Multiset β) := by
    rw [← Multiset.rel_map, Multiset.rel_eq, Multiset.map_coe, Multiset.map_coe]
    exact Multiset.coe_eq_coe.mpr h
  have hrel' : Multiset.Rel (fun a b => val a = val b) (fs : Multiset β) (gs : Multiset β) :=
    hrel.mono hval
  rw [← Multiset.rel_map, Multiset.rel_eq, Multiset.map_coe, Multiset.map_coe] at hrel'
  exact Multiset.coe_eq_coe.mp hrel'

/-! ## Merging by signature -/

section Signature

variable [ExactScalar α] [CommRing R] {I : Interpretation α R}
  (hI : ∀ a b : α, value a = value b → I.number a = I.number b)

include hI

/-- Equal signatures give equal products, once equal names give equal values. -/
theorem Term.denote_factors_eq_of_signature_eq {t u : Term α}
    (ht : ∀ f ∈ t.factors, f.key.Plain) (hu : ∀ f ∈ u.factors, f.key.Plain)
    (hname : ∀ f ∈ t.factors, ∀ g ∈ u.factors, f.key.canonical = g.key.canonical →
      f.key.denote I = g.key.denote I)
    (h : t.signature = u.signature) : Factors.denote I t.factors = Factors.denote I u.factors := by
  have hclosed {v : Term α} (hv : ∀ f ∈ v.factors, f.key.Plain) :
      ∀ f ∈ v.factors, Closed ['*'] (f.label Key.canonical) := fun f hf =>
    Factor.closed_label (hv f hf).closed_canonical (closed_text (by decide) _)
  rw [Term.signature_eq_iff (hclosed ht) (hclosed hu)] at h
  rw [Factors.denote_eq_prod, Factors.denote_eq_prod]
  refine (perm_map_of_perm_label h fun f hf g hg hlabel => ?_).prod_eq
  rw [Factor.label_eq_iff ((ht f hf).closed_canonical.mono (by simp))
    ((hu g hg).closed_canonical.mono (by simp))] at hlabel
  rw [Factor.denote, Factor.denote, hname f hf g hg hlabel.1,
    hI _ _ ((text_eq_iff _ _).mp hlabel.2)]

/-- Equal names give equal values, once this holds of the keys inside and grouping keeps values
there. -/
theorem Key.denote_eq_of_canonical_eq {k k' : Key α} (hk : k.Plain) (hk' : k'.Plain)
    (hgroup : ∀ ts, k = .composite ts ∨ k' = .composite ts →
      Terms.denote I (Terms.group ts) = Terms.denote I ts)
    (hname : ∀ ts us, k = .composite ts → k' = .composite us → ∀ t ∈ Terms.group ts,
      ∀ u ∈ Terms.group us, ∀ f ∈ t.factors, ∀ g ∈ u.factors, f.key.canonical = g.key.canonical →
        f.key.denote I = g.key.denote I)
    (h : k.canonical = k'.canonical) : k.denote I = k'.denote I := by
  cases k with
  | atom x =>
    cases k' with
    | atom y =>
      rw [Key.canonical_atom, Key.canonical_atom] at h
      rw [h]
    | composite us => exact absurd h (Key.canonical_atom_ne_composite hk us)
  | composite ts =>
    cases k' with
    | atom y => exact absurd h.symm (Key.canonical_atom_ne_composite hk' ts)
    | composite us =>
      have hts : Terms.Plain (Terms.group ts) := Terms.Plain.group hk
      have hus : Terms.Plain (Terms.group us) := Terms.Plain.group hk'
      have hsep : Separated '+' (Closed ['+']) := Closed.separated (by simp) (by decide) (by decide)
      rw [Key.canonical_composite_eq_iff hsep (fun t => hts.closed_label)
        fun t => hus.closed_label] at h
      rw [Key.denote, Key.denote, ← hgroup ts (Or.inl rfl), ← hgroup us (Or.inr rfl),
        Terms.denote_eq_sum, Terms.denote_eq_sum]
      refine (perm_map_of_perm_label h fun t ht u hu hlabel => ?_).sum_eq
      rw [Term.label_eq_iff (closed_text (by decide) _) (closed_text (by decide) _)] at hlabel
      have hfactors : Factors.denote I t.factors = Factors.denote I u.factors :=
        Term.denote_factors_eq_of_signature_eq hI (fun f hf => hts.key ht hf)
          (fun f hf => hus.key hu hf) (hname ts us rfl rfl t ht u hu) hlabel.2
      rw [Term.denote, Term.denote, hfactors, hI _ _ ((text_eq_iff _ _).mp hlabel.1)]

end Signature

section Merge

variable [ExactScalar α] [CommRing R] {I : Interpretation α R}
  (hadd : ∀ a b : α, I.number (a + b) = I.number a + I.number b)

include hadd

/-- A term that is merged into a term with factors of the same value adds its value to the sum. -/
theorem Terms.denote_insertSigned {s : String} {t : Term α} {acc : List (String × Term α)}
    (h : ∀ u, (s, u) ∈ acc → Factors.denote I u.factors = Factors.denote I t.factors) :
    ((Terms.insertSigned s t acc).map fun p => p.2.denote I).sum =
      (acc.map fun p => p.2.denote I).sum + t.denote I := by
  induction acc with
  | nil => simp [Terms.insertSigned]
  | cons p acc ih =>
    obtain ⟨a, u⟩ := p
    rw [Terms.insertSigned]
    split
    · rename_i hs
      obtain rfl := beq_iff_eq.mp hs
      have hu := h u (List.mem_cons_self ..)
      simp only [List.map_cons, List.sum_cons, Term.denote, hadd, hu]
      ring
    · have ih := ih fun v hv => h v (List.mem_cons_of_mem _ hv)
      simp only [List.map_cons, List.sum_cons, ih]
      ring

/-- Merging keeps the sum of the canonical terms, if like terms have factors of the same value. -/
theorem Terms.denote_mergeWith {name : Key α → String} {inner : List (Term α) → List (Term α)}
    {ts : List (Term α)}
    (h : ∀ t ∈ ts, ∀ u ∈ ts, (t.canonicalWith name inner).signatureWith name =
      (u.canonicalWith name inner).signatureWith name →
      Factors.denote I (t.canonicalWith name inner).factors =
        Factors.denote I (u.canonicalWith name inner).factors) :
    ((Terms.mergeWith name inner ts).map fun p => p.2.denote I).sum =
      (ts.map fun t => (t.canonicalWith name inner).denote I).sum := by
  -- the terms merged so far are a beginning of the list, so the list is taken apart from its end
  induction ts using List.reverseRecOn with
  | nil => rfl
  | append_singleton ts t ih =>
    have ih := ih fun a ha b hb => h a (by simp [ha]) b (by simp [hb])
    have hstep : Terms.mergeWith name inner (ts ++ [t]) =
        Terms.insertSigned ((t.canonicalWith name inner).signatureWith name)
          (t.canonicalWith name inner) (Terms.mergeWith name inner ts) := by
      simp [Terms.mergeWith]
    rw [hstep, Terms.denote_insertSigned hadd fun u hu => ?_, ih]
    · simp
    · obtain ⟨t', ht', hs, hf⟩ := Terms.factors_of_mem_mergeWith hu
      rw [hf]
      exact h t' (by simp [ht']) t (by simp) hs.symm

/-- Dropping terms with coefficient zero keeps the sum. -/
theorem Terms.denote_groupWith (hzero : ∀ a : α, value a = 0 → I.number a = 0)
    {name : Key α → String} {inner : List (Term α) → List (Term α)} {ts : List (Term α)}
    (h : ∀ t ∈ ts, ∀ u ∈ ts, (t.canonicalWith name inner).signatureWith name =
      (u.canonicalWith name inner).signatureWith name →
      Factors.denote I (t.canonicalWith name inner).factors =
        Factors.denote I (u.canonicalWith name inner).factors) :
    Terms.denote I (Terms.groupWith name inner ts) =
      (ts.map fun t => (t.canonicalWith name inner).denote I).sum := by
  rw [← Terms.denote_mergeWith hadd h, Terms.groupWith, Terms.denote_eq_sum]
  induction Terms.mergeWith name inner ts with
  | nil => rfl
  | cons p ps ih =>
    obtain ⟨s, t⟩ := p
    by_cases hc : (t.coefficient == 0) = true
    · have hdrop : t.denote I = 0 := by
        rw [Term.denote, hzero _ ((beq_zero_iff _).mp hc), zero_mul]
      simpa [hc, hdrop] using ih
    · simpa [hc] using ih

end Merge

/-! ## At a point -/

section Point

variable [ExactScalar α] {ρ : String → ℚ}

/-- The value of a key at a point. -/
def Key.valueAt (ρ : String → ℚ) (k : Key α) : ℚ := k.denote (atPoint ρ)

/-- The product of some factors at a point. -/
def Factors.valueAt (ρ : String → ℚ) (fs : List (Factor α)) : ℚ := Factors.denote (atPoint ρ) fs

/-- The sum of some terms at a point. -/
def Terms.valueAt (ρ : String → ℚ) (ts : List (Term α)) : ℚ := Terms.denote (atPoint ρ) ts

/-- An integer exponent, and not a negative one where the base is zero. -/
def Key.HasPower (ρ : String → ℚ) (k : Key α) (e : α) : Prop :=
  IsInteger e ∧ (value e < 0 → k.valueAt ρ ≠ 0)

/-- Plain names and powers that exist, at every depth of a key. -/
def Key.Sound (ρ : String → ℚ) (k : Key α) : Prop := k.Every Unstructured (Key.HasPower ρ)

/-- Plain names and powers that exist, at every depth of some factors. -/
def Factors.Sound (ρ : String → ℚ) (fs : List (Factor α)) : Prop :=
  Factors.Every Unstructured (Key.HasPower ρ) fs

/-- Plain names and powers that exist, at every depth of some terms. -/
def Terms.Sound (ρ : String → ℚ) (ts : List (Term α)) : Prop :=
  Terms.Every Unstructured (Key.HasPower ρ) ts

theorem Factors.sound_iff {fs : List (Factor α)} :
    Factors.Sound ρ fs ↔ ∀ f ∈ fs, f.key.Sound ρ ∧ f.key.HasPower ρ f.exponent := Factors.every_iff

theorem Terms.sound_iff {ts : List (Term α)} :
    Terms.Sound ρ ts ↔ ∀ t ∈ ts, Factors.Sound ρ t.factors := Terms.every_iff

theorem Factors.sound_cons {f : Factor α} {fs : List (Factor α)} :
    Factors.Sound ρ (f :: fs) ↔
      (f.key.Sound ρ ∧ f.key.HasPower ρ f.exponent) ∧ Factors.Sound ρ fs := by
  rw [Factors.sound_iff, Factors.sound_iff, List.forall_mem_cons]

theorem Terms.sound_cons {t : Term α} {ts : List (Term α)} :
    Terms.Sound ρ (t :: ts) ↔ Factors.Sound ρ t.factors ∧ Terms.Sound ρ ts := by
  rw [Terms.sound_iff, Terms.sound_iff, List.forall_mem_cons]

theorem Terms.Sound.key {ts : List (Term α)} (h : Terms.Sound ρ ts) {t : Term α} (ht : t ∈ ts)
    {f : Factor α} (hf : f ∈ t.factors) : f.key.Sound ρ :=
  (Factors.sound_iff.mp (Terms.sound_iff.mp h t ht) f hf).1

theorem Terms.Sound.plain {ts : List (Term α)} (h : Terms.Sound ρ ts) : Terms.Plain ts :=
  Terms.Every.imp (fun _ _ _ => trivial) h

theorem Key.Sound.plain {k : Key α} (h : k.Sound ρ) : k.Plain := by
  cases k with
  | atom x => exact h
  | composite ts => exact Terms.Sound.plain h

@[simp] theorem Factors.valueAt_nil : Factors.valueAt ρ ([] : List (Factor α)) = 1 := rfl

@[simp] theorem Factors.valueAt_cons (f : Factor α) (fs : List (Factor α)) :
    Factors.valueAt ρ (f :: fs) = f.key.valueAt ρ ^ integer f.exponent * Factors.valueAt ρ fs := by
  obtain ⟨k, e⟩ := f
  rw [Factors.valueAt, Factors.denote]
  rfl

@[simp] theorem Factors.valueAt_append (fs gs : List (Factor α)) :
    Factors.valueAt ρ (fs ++ gs) = Factors.valueAt ρ fs * Factors.valueAt ρ gs :=
  Factors.denote_append _ fs gs

@[simp] theorem Terms.valueAt_nil : Terms.valueAt ρ ([] : List (Term α)) = 0 := rfl

@[simp] theorem Terms.valueAt_cons (t : Term α) (ts : List (Term α)) :
    Terms.valueAt ρ (t :: ts) =
      value t.coefficient * Factors.valueAt ρ t.factors + Terms.valueAt ρ ts := by
  obtain ⟨c, fs⟩ := t
  rw [Terms.valueAt, Terms.denote]
  rfl

@[simp] theorem Terms.valueAt_append (ts us : List (Term α)) :
    Terms.valueAt ρ (ts ++ us) = Terms.valueAt ρ ts + Terms.valueAt ρ us :=
  Terms.denote_append _ ts us

/-! ### Factors of the same value -/

/-- Exponents of equal bases add up, and the sum is again an exponent that the base can have. -/
theorem Key.HasPower.add {k k' : Key α} {e e' : α} (h : k.HasPower ρ e) (h' : k'.HasPower ρ e')
    (hk : k.valueAt ρ = k'.valueAt ρ) :
    k.HasPower ρ (e + e') ∧ k.valueAt ρ ^ integer (e + e') =
      k.valueAt ρ ^ integer e * k'.valueAt ρ ^ integer e' := by
  rw [Key.HasPower, ← integer_neg_iff] at h h'
  rw [h.1.integer_add h'.1, ← hk]
  rw [← hk] at h'
  refine ⟨⟨h.1.add h'.1, fun hneg => ?_⟩, zpow_add' ?_⟩
  · rw [← integer_neg_iff, h.1.integer_add h'.1] at hneg
    rcases lt_or_ge (integer e) 0 with he | he
    · exact h.2 he
    · exact h'.2 (by omega)
  · by_cases hzero : k.valueAt ρ = 0
    · have he : 0 ≤ integer e := not_lt.mp fun hlt => h.2 hlt hzero
      have he' : 0 ≤ integer e' := not_lt.mp fun hlt => h'.2 hlt hzero
      omega
    · exact Or.inl hzero

/-- Dropping a factor with exponent zero keeps the product. -/
theorem Factors.valueAt_keep (f : Factor α) :
    Factors.valueAt ρ f.keep = f.key.valueAt ρ ^ integer f.exponent := by
  rw [Factor.keep]
  split
  · rename_i hzero
    have hint : integer f.exponent = 0 :=
      integer_of_value_eq (k := 0) (by simpa using (beq_zero_iff _).mp hzero)
    rw [hint, Factors.valueAt_nil, zpow_zero]
  · rw [Factors.valueAt_cons, Factors.valueAt_nil, mul_one]

theorem Factors.valueAt_flatMap_keep (fs : List (Factor α)) :
    Factors.valueAt ρ (fs.flatMap Factor.keep) = Factors.valueAt ρ fs := by
  induction fs with
  | nil => rfl
  | cons f fs ih =>
    rw [List.flatMap_cons, Factors.valueAt_append, Factors.valueAt_keep, ih, Factors.valueAt_cons]

theorem Factors.valueAt_insertNamed {name : Key α → String} {label : String} {f : Factor α}
    {fs : List (Factor α)} (hf : f.key.HasPower ρ f.exponent)
    (hfs : ∀ g ∈ fs, g.key.HasPower ρ g.exponent)
    (hname : ∀ g ∈ fs, name g.key = label → g.key.valueAt ρ = f.key.valueAt ρ) :
    Factors.valueAt ρ (Factors.insertNamed name label f fs) =
      Factors.valueAt ρ fs * f.key.valueAt ρ ^ integer f.exponent := by
  induction fs with
  | nil => rw [Factors.insertNamed, Factors.valueAt_keep, Factors.valueAt_nil, one_mul]
  | cons g fs ih =>
    rw [Factors.insertNamed]
    split
    · rename_i hlabel
      have hkey := hname g (List.mem_cons_self ..) (beq_iff_eq.mp hlabel)
      rw [Factors.valueAt_append, Factors.valueAt_keep, Factors.valueAt_flatMap_keep,
        ((hfs g (List.mem_cons_self ..)).add hf hkey).2, Factors.valueAt_cons]
      ring
    · have ih := ih (fun a ha => hfs a (List.mem_cons_of_mem _ ha))
        fun a ha => hname a (List.mem_cons_of_mem _ ha)
      rw [Factors.valueAt_append, Factors.valueAt_keep, ih, Factors.valueAt_cons]
      ring

/-- Merging factors by name keeps the product, on keys for which equal names mean equal values. -/
theorem Factors.insertAll_sound {K : Key α → Prop} {name : Key α → String}
    (hK : ∀ k k', K k → K k' → name k = name k' → k.valueAt ρ = k'.valueAt ρ)
    {start fs : List (Factor α)} (hstart : ∀ g ∈ start, K g.key ∧ g.key.HasPower ρ g.exponent)
    (hfs : ∀ g ∈ fs, K g.key ∧ g.key.HasPower ρ g.exponent) :
    (∀ g ∈ Factors.insertAll name start fs, K g.key ∧ g.key.HasPower ρ g.exponent) ∧
      Factors.valueAt ρ (Factors.insertAll name start fs) =
        Factors.valueAt ρ start * Factors.valueAt ρ fs := by
  constructor
  · refine Factors.forall_insertAll (fun f g hf hg hname => ⟨hg.1, ?_⟩) hstart hfs
    exact (hg.2.add hf.2 (hK _ _ hg.1 hf.1 hname)).1
  · induction fs generalizing start with
    | nil => simp [Factors.insertAll]
    | cons f fs ih =>
      have hf := hfs f (List.mem_cons_self ..)
      have hinsert : ∀ g ∈ Factors.insert name f start, K g.key ∧ g.key.HasPower ρ g.exponent :=
        Factors.forall_insertNamed hf hstart fun g hg hname =>
          ⟨(hstart g hg).1, ((hstart g hg).2.add hf.2 (hK _ _ (hstart g hg).1 hf.1 hname)).1⟩
      have hvalue : Factors.valueAt ρ (Factors.insert name f start) =
          Factors.valueAt ρ start * f.key.valueAt ρ ^ integer f.exponent :=
        Factors.valueAt_insertNamed hf.2 (fun g hg => (hstart g hg).2)
          fun g hg => hK _ _ (hstart g hg).1 hf.1
      have ih := ih hinsert fun g hg => hfs g (List.mem_cons_of_mem _ hg)
      rw [Factors.valueAt_cons, ← mul_assoc, ← hvalue, ← ih]
      rfl

end Point

end Fluxion
