import Fluxion.Term.Group
import Mathlib.Tactic

/-!
# Names and grouping without levels

Canonical names and grouping are defined level by level, and a key or a list of terms is looked at from
the level of its own depth. Here it is shown that every higher level gives the same answer, because
grouping never nests keys more deeply than they were. What remains are the equations that names and
grouping are meant to satisfy, `Key.canonical_composite` and `Terms.group_eq`, and those are all that
later proofs use.
-/

namespace Fluxion

variable {α : Type}

/-! ## Nesting depth -/

theorem Factors.depth_le_iff {fs : List (Factor α)} {n : ℕ} :
    Factors.depth fs ≤ n ↔ ∀ f ∈ fs, f.key.depth ≤ n := by
  induction fs with
  | nil => simp [Factors.depth]
  | cons f fs ih =>
    obtain ⟨k, e⟩ := f
    simp [Factors.depth, Factor.depth, ih]

theorem Terms.depth_le_iff {ts : List (Term α)} {n : ℕ} :
    Terms.depth ts ≤ n ↔ ∀ t ∈ ts, ∀ f ∈ t.factors, f.key.depth ≤ n := by
  induction ts with
  | nil => simp [Terms.depth]
  | cons t ts ih =>
    obtain ⟨c, fs⟩ := t
    simp [Terms.depth, Term.depth, Factors.depth_le_iff, ih]

theorem Key.depth_composite (ts : List (Term α)) :
    (Key.composite ts).depth = Terms.depth ts + 1 := rfl

/-- A list of terms inside a key of some terms is nested less deeply than they are. -/
theorem Terms.depth_lt_of_mem {ts us : List (Term α)} {t : Term α} {f : Factor α} (ht : t ∈ ts)
    (hf : f ∈ t.factors) (hk : f.key = .composite us) : Terms.depth us < Terms.depth ts := by
  have h := Terms.depth_le_iff.mp (le_refl (Terms.depth ts)) t ht f hf
  rw [hk, Key.depth_composite] at h
  exact h

/-- Induction over nested terms: a property of a list of terms may be assumed of the lists inside its
keys. -/
theorem Terms.nested_induction {motive : List (Term α) → Prop}
    (step : ∀ ts, (∀ t ∈ ts, ∀ f ∈ t.factors, ∀ us, f.key = .composite us → motive us) → motive ts)
    (ts : List (Term α)) : motive ts := by
  induction h : Terms.depth ts using Nat.strong_induction_on generalizing ts with
  | _ n ih =>
    subst h
    exact step ts fun t ht f hf us hk => ih _ (Terms.depth_lt_of_mem ht hf hk) us rfl

theorem Key.exists_atom {k : Key α} (hk : k.depth ≤ 0) : ∃ x, k = .atom x := by
  cases k with
  | atom x => exact ⟨x, rfl⟩
  | composite us =>
    rw [Key.depth_composite] at hk
    omega

section Regroup

variable {n : ℕ} {inner inner' : List (Term α) → List (Term α)} {k : Key α}

theorem Key.depth_regroup_le (h : ∀ us, Terms.depth us ≤ n → Terms.depth (inner us) ≤ n)
    (hk : k.depth ≤ n + 1) : (k.regroup inner).depth ≤ n + 1 := by
  cases k with
  | atom x => exact Nat.zero_le _
  | composite us =>
    rw [Key.depth_composite] at hk
    rw [Key.regroup, Key.depth_composite]
    exact Nat.succ_le_succ (h us (by omega))

theorem Key.regroup_congr (h : ∀ us, Terms.depth us ≤ n → inner us = inner' us)
    (hk : k.depth ≤ n + 1) : k.regroup inner = k.regroup inner' := by
  cases k with
  | atom x => rfl
  | composite us =>
    rw [Key.depth_composite] at hk
    rw [Key.regroup, Key.regroup, h us (by omega)]

end Regroup

variable [Scalar α]

/-! ## Where the keys of a result come from -/

section Keys

variable {name : Key α → String} {inner : List (Term α) → List (Term α)}

theorem Factor.mem_keep {f g : Factor α} (h : g ∈ f.keep) : g = f ∧ (f.exponent == 0) = false := by
  rw [Factor.keep] at h
  split at h
  · cases h
  · rename_i hne
    exact ⟨List.mem_singleton.mp h, by simpa using hne⟩

theorem Factors.key_of_mem_insertNamed {label : String} {f g : Factor α} {fs : List (Factor α)}
    (h : g ∈ Factors.insertNamed name label f fs) : ∃ h ∈ f :: fs, g.key = h.key := by
  induction fs with
  | nil => exact ⟨f, List.mem_cons_self .., by rw [(Factor.mem_keep h).1]⟩
  | cons a fs ih =>
    rw [Factors.insertNamed] at h
    split at h
    · rcases List.mem_append.mp h with h | h
      · exact ⟨a, by simp, by rw [(Factor.mem_keep h).1]⟩
      · obtain ⟨b, hb, hg⟩ := List.mem_flatMap.mp h
        exact ⟨b, by simp [hb], by rw [(Factor.mem_keep hg).1]⟩
    · rcases List.mem_append.mp h with h | h
      · exact ⟨a, by simp, by rw [(Factor.mem_keep h).1]⟩
      · obtain ⟨b, hb, hg⟩ := ih h
        refine ⟨b, ?_, hg⟩
        rcases List.mem_cons.mp hb with rfl | hb
        · exact List.mem_cons_self ..
        · exact List.mem_cons_of_mem _ (List.mem_cons_of_mem _ hb)

theorem Factors.key_of_mem_insertAll {start fs : List (Factor α)} {g : Factor α}
    (h : g ∈ Factors.insertAll name start fs) : ∃ h ∈ start ++ fs, g.key = h.key := by
  induction fs generalizing start with
  | nil => exact ⟨g, by simpa [Factors.insertAll] using h, rfl⟩
  | cons f fs ih =>
    have hrest : g ∈ Factors.insertAll name (Factors.insert name f start) fs := h
    obtain ⟨a, ha, hg⟩ := ih hrest
    rcases List.mem_append.mp ha with ha | ha
    · obtain ⟨b, hb, hab⟩ := Factors.key_of_mem_insertNamed ha
      refine ⟨b, ?_, hg.trans hab⟩
      rcases List.mem_cons.mp hb with rfl | hb <;> simp [*]
    · exact ⟨a, by simp [ha], hg⟩

theorem Term.key_of_mem_canonicalWith {t : Term α} {g : Factor α}
    (h : g ∈ (t.canonicalWith name inner).factors) :
    ∃ f ∈ t.factors, g.key = f.key.regroup inner := by
  obtain ⟨a, ha, hg⟩ := Factors.key_of_mem_insertAll h
  obtain ⟨f, hf, rfl⟩ := List.mem_map.mp (by simpa using ha)
  exact ⟨f, hf, hg⟩

/-- A merged term has the factors of one of the terms that were merged. -/
theorem Terms.factors_of_mem_insertSigned {s s' : String} {t u : Term α}
    {acc : List (String × Term α)} (h : (s', u) ∈ Terms.insertSigned s t acc) :
    (s' = s ∧ u.factors = t.factors) ∨ ∃ v, (s', v) ∈ acc ∧ u.factors = v.factors := by
  induction acc with
  | nil =>
    cases List.mem_singleton.mp h
    exact Or.inl ⟨rfl, rfl⟩
  | cons p acc ih =>
    obtain ⟨a, v⟩ := p
    rw [Terms.insertSigned] at h
    split at h
    · rcases List.mem_cons.mp h with h | h
      · cases h
        exact Or.inr ⟨v, List.mem_cons_self .., rfl⟩
      · exact Or.inr ⟨u, List.mem_cons_of_mem _ h, rfl⟩
    · rcases List.mem_cons.mp h with h | h
      · cases h
        exact Or.inr ⟨u, List.mem_cons_self .., rfl⟩
      · rcases ih h with h | ⟨w, hw, hf⟩
        · exact Or.inl h
        · exact Or.inr ⟨w, List.mem_cons_of_mem _ hw, hf⟩

/-- The merged terms stand beside their signatures, and each has the factors of one of the terms. -/
theorem Terms.factors_of_mem_mergeWith {ts : List (Term α)} {s : String} {u : Term α}
    (h : (s, u) ∈ Terms.mergeWith name inner ts) :
    ∃ t ∈ ts, s = (t.canonicalWith name inner).signatureWith name ∧
      u.factors = (t.canonicalWith name inner).factors := by
  have hfold : ∀ (ts : List (Term α)) (acc : List (String × Term α)),
      (s, u) ∈ ts.foldl (fun acc t => Terms.insertSigned
        ((t.canonicalWith name inner).signatureWith name) (t.canonicalWith name inner) acc) acc →
      (∃ v, (s, v) ∈ acc ∧ u.factors = v.factors) ∨
        ∃ t ∈ ts, s = (t.canonicalWith name inner).signatureWith name ∧
          u.factors = (t.canonicalWith name inner).factors := by
    intro ts
    induction ts with
    | nil => exact fun acc h => Or.inl ⟨u, h, rfl⟩
    | cons t ts ih =>
      intro acc h
      rcases ih _ h with ⟨v, hv, hf⟩ | ⟨t', ht', h'⟩
      · rcases Terms.factors_of_mem_insertSigned hv with ⟨hs, hf'⟩ | ⟨w, hw, hf'⟩
        · exact Or.inr ⟨t, List.mem_cons_self .., hs, hf.trans hf'⟩
        · exact Or.inl ⟨w, hw, hf.trans hf'⟩
      · exact Or.inr ⟨t', List.mem_cons_of_mem _ ht', h'⟩
  rcases hfold ts [] h with ⟨v, hv, -⟩ | h
  · cases hv
  · exact h

theorem Terms.factors_of_mem_groupWith {ts : List (Term α)} {u : Term α}
    (h : u ∈ Terms.groupWith name inner ts) :
    ∃ t ∈ ts, u.factors = (t.canonicalWith name inner).factors := by
  obtain ⟨⟨s, v⟩, hv, rfl⟩ := List.mem_map.mp (List.mem_filter.mp h).1
  obtain ⟨t, ht, -, hf⟩ := Terms.factors_of_mem_mergeWith hv
  exact ⟨t, ht, hf⟩

end Keys

/-! ## What a result depends on -/

section Congruence

variable {name name' : Key α → String} {inner inner' : List (Term α) → List (Term α)}

theorem Factors.insertNamed_congr {label : String} {f : Factor α} {fs : List (Factor α)}
    (h : ∀ g ∈ fs, name g.key = name' g.key) :
    Factors.insertNamed name label f fs = Factors.insertNamed name' label f fs := by
  induction fs with
  | nil => rfl
  | cons a fs ih =>
    rw [Factors.insertNamed, Factors.insertNamed, h a (List.mem_cons_self ..),
      ih fun g hg => h g (List.mem_cons_of_mem _ hg)]

theorem Factors.insertAll_congr {start fs : List (Factor α)}
    (h : ∀ g ∈ start ++ fs, name g.key = name' g.key) :
    Factors.insertAll name start fs = Factors.insertAll name' start fs := by
  induction fs generalizing start with
  | nil => rfl
  | cons f fs ih =>
    have hins : Factors.insert name f start = Factors.insert name' f start := by
      rw [Factors.insert, Factors.insert, h f (by simp)]
      exact Factors.insertNamed_congr fun g hg => h g (by simp [hg])
    show Factors.insertAll name (Factors.insert name f start) fs =
      Factors.insertAll name' (Factors.insert name' f start) fs
    rw [← hins]
    refine ih fun g hg => ?_
    rcases List.mem_append.mp hg with hg | hg
    · obtain ⟨a, ha, hga⟩ := Factors.key_of_mem_insertNamed hg
      rw [hga]
      refine h a ?_
      rcases List.mem_cons.mp ha with rfl | ha <;> simp [*]
    · exact h g (by simp [hg])

theorem Term.signatureWith_congr {t : Term α} (h : ∀ f ∈ t.factors, name f.key = name' f.key) :
    t.signatureWith name = t.signatureWith name' := by
  have hmap : t.factors.map (Factor.label name) = t.factors.map (Factor.label name') :=
    List.map_congr_left fun f hf => by rw [Factor.label, Factor.label, h f hf]
  rw [Term.signatureWith, Term.signatureWith, hmap]

theorem Terms.nameWith_congr {ts : List (Term α)}
    (h : ∀ t ∈ ts, ∀ f ∈ t.factors, name f.key = name' f.key) :
    Terms.nameWith name ts = Terms.nameWith name' ts := by
  have hmap : (ts.map fun t => Scalar.text t.coefficient ++ "*" ++ t.signatureWith name) =
      ts.map fun t => Scalar.text t.coefficient ++ "*" ++ t.signatureWith name' :=
    List.map_congr_left fun t ht => by rw [Term.signatureWith_congr (h t ht)]
  rw [Terms.nameWith, Terms.nameWith, hmap]

theorem Term.canonicalWith_congr {t : Term α}
    (hinner : ∀ f ∈ t.factors, f.key.regroup inner = f.key.regroup inner')
    (hname : ∀ f ∈ t.factors, name (f.key.regroup inner) = name' (f.key.regroup inner)) :
    t.canonicalWith name inner = t.canonicalWith name' inner' := by
  have hmap : (t.factors.map fun f => (⟨f.key.regroup inner, f.exponent⟩ : Factor α)) =
      t.factors.map fun f => ⟨f.key.regroup inner', f.exponent⟩ :=
    List.map_congr_left fun f hf => by rw [hinner f hf]
  rw [Term.canonicalWith, Term.canonicalWith, ← hmap]
  congr 1
  refine Factors.insertAll_congr fun g hg => ?_
  obtain ⟨f, hf, rfl⟩ := List.mem_map.mp (by simpa using hg)
  exact hname f hf

/-- Grouping depends on how the lists inside keys are grouped and on the names of the keys that come
out of that, and on nothing else. -/
theorem Terms.groupWith_congr {ts : List (Term α)}
    (hinner : ∀ t ∈ ts, ∀ f ∈ t.factors, f.key.regroup inner = f.key.regroup inner')
    (hname : ∀ t ∈ ts, ∀ f ∈ t.factors,
      name (f.key.regroup inner) = name' (f.key.regroup inner)) :
    Terms.groupWith name inner ts = Terms.groupWith name' inner' ts := by
  rw [Terms.groupWith, Terms.groupWith, Terms.mergeWith, Terms.mergeWith]
  congr 2
  refine List.foldl_ext _ _ _ fun acc t ht => ?_
  have hcanon := Term.canonicalWith_congr (hinner t ht) (hname t ht)
  have hsig : (t.canonicalWith name inner).signatureWith name =
      (t.canonicalWith name inner).signatureWith name' :=
    Term.signatureWith_congr fun g hg => by
      obtain ⟨f, hf, hgf⟩ := Term.key_of_mem_canonicalWith hg
      rw [hgf]
      exact hname t ht f hf
  dsimp only
  rw [hsig, hcanon]

end Congruence

/-! ## Levels -/

namespace Naming

/-- Grouping at a level does not nest keys more deeply than the level allows. -/
theorem depth_group_level_le (n : ℕ) {ts : List (Term α)} (h : Terms.depth ts ≤ n) :
    Terms.depth ((level n).group ts) ≤ n := by
  induction n generalizing ts with
  | zero =>
    refine Terms.depth_le_iff.mpr fun u hu g hg => ?_
    obtain ⟨t, ht, hfs⟩ := Terms.factors_of_mem_groupWith hu
    obtain ⟨f, hf, hgf⟩ := Term.key_of_mem_canonicalWith (hfs ▸ hg)
    obtain ⟨x, hx⟩ := Key.exists_atom (Terms.depth_le_iff.mp h t ht f hf)
    rw [hgf, hx]
    exact le_refl 0
  | succ n ih =>
    refine Terms.depth_le_iff.mpr fun u hu g hg => ?_
    obtain ⟨t, ht, hfs⟩ := Terms.factors_of_mem_groupWith hu
    obtain ⟨f, hf, hgf⟩ := Term.key_of_mem_canonicalWith (hfs ▸ hg)
    rw [hgf]
    exact Key.depth_regroup_le (fun us hus => ih hus) (Terms.depth_le_iff.mp h t ht f hf)

/-- The next level agrees on everything that the level is for. -/
theorem level_succ (n : ℕ) :
    (∀ k : Key α, k.depth ≤ n → (level (n + 1)).name k = (level n).name k) ∧
      ∀ ts : List (Term α), Terms.depth ts ≤ n → (level (n + 1)).group ts = (level n).group ts := by
  induction n with
  | zero =>
    refine ⟨fun k hk => ?_, fun ts hts => ?_⟩
    · obtain ⟨x, rfl⟩ := Key.exists_atom hk
      rfl
    · have hatom : ∀ t ∈ ts, ∀ f ∈ t.factors, ∃ x, f.key = .atom x := fun t ht f hf =>
        Key.exists_atom (Terms.depth_le_iff.mp hts t ht f hf)
      refine Terms.groupWith_congr (fun t ht f hf => ?_) fun t ht f hf => ?_
      · obtain ⟨x, hx⟩ := hatom t ht f hf
        rw [hx]
        rfl
      · obtain ⟨x, hx⟩ := hatom t ht f hf
        rw [hx]
        rfl
  | succ n ih =>
    have hname : ∀ k : Key α, k.depth ≤ n + 1 → (level (n + 2)).name k = (level (n + 1)).name k := by
      intro k hk
      cases k with
      | atom x => rfl
      | composite us =>
        rw [Key.depth_composite] at hk
        have hus : Terms.depth us ≤ n := by omega
        show Terms.nameWith (level (n + 1)).name ((level (n + 1)).group us) =
          Terms.nameWith (level n).name ((level n).group us)
        rw [ih.2 us hus]
        exact Terms.nameWith_congr fun t ht f hf =>
          ih.1 _ (Terms.depth_le_iff.mp (depth_group_level_le n hus) t ht f hf)
    refine ⟨hname, fun ts hts => ?_⟩
    have hinner : ∀ t ∈ ts, ∀ f ∈ t.factors,
        f.key.regroup (level (n + 1)).group = f.key.regroup (level n).group := fun t ht f hf =>
      Key.regroup_congr ih.2 (Terms.depth_le_iff.mp hts t ht f hf)
    refine Terms.groupWith_congr hinner fun t ht f hf => ?_
    rw [hinner t ht f hf]
    refine hname _ (Key.depth_regroup_le (fun us hus => depth_group_level_le n hus) ?_)
    exact Terms.depth_le_iff.mp hts t ht f hf

theorem name_level_of_le {n : ℕ} {k : Key α} (h : k.depth ≤ n) : (level n).name k = k.canonical := by
  induction n, h using Nat.le_induction with
  | base => rfl
  | succ n hn ih => rw [(level_succ n).1 k hn, ih]

theorem group_level_of_le {n : ℕ} {ts : List (Term α)} (h : Terms.depth ts ≤ n) :
    (level n).group ts = Terms.group ts := by
  induction n, h using Nat.le_induction with
  | base => rfl
  | succ n hn ih => rw [(level_succ n).2 ts hn, ih]

end Naming

/-! ## The equations -/

/-- Grouping never nests keys more deeply. -/
theorem Terms.depth_group_le (ts : List (Term α)) : Terms.depth (Terms.group ts) ≤ Terms.depth ts :=
  Naming.depth_group_level_le _ (le_refl _)

theorem Key.canonical_atom (x : String) : (Key.atom x : Key α).canonical = x := rfl

/-- The name of a composite key is that of its grouped terms. -/
theorem Key.canonical_composite (ts : List (Term α)) :
    (Key.composite ts).canonical = Terms.nameWith Key.canonical (Terms.group ts) :=
  Terms.nameWith_congr fun t ht f hf =>
    Naming.name_level_of_le (Terms.depth_le_iff.mp (Terms.depth_group_le ts) t ht f hf)

/-- Grouping regroups the lists inside keys, then merges by name and by signature. -/
theorem Terms.group_eq (ts : List (Term α)) :
    Terms.group ts = Terms.groupWith Key.canonical Terms.group ts := by
  have hup : Terms.group ts = (Naming.level (Terms.depth ts + 1)).group ts :=
    (Naming.group_level_of_le (Nat.le_succ _)).symm
  have hdepth : ∀ t ∈ ts, ∀ f ∈ t.factors, f.key.depth ≤ Terms.depth ts + 1 := fun t ht f hf =>
    Nat.le_succ_of_le (Terms.depth_le_iff.mp (le_refl _) t ht f hf)
  have hinner : ∀ t ∈ ts, ∀ f ∈ t.factors,
      f.key.regroup (Naming.level (Terms.depth ts)).group = f.key.regroup Terms.group :=
    fun t ht f hf => Key.regroup_congr (fun us hus => Naming.group_level_of_le hus) (hdepth t ht f hf)
  rw [hup]
  refine Terms.groupWith_congr hinner fun t ht f hf => ?_
  rw [hinner t ht f hf]
  refine Naming.name_level_of_le (Key.depth_regroup_le (fun us hus => ?_) (hdepth t ht f hf))
  exact (Terms.depth_group_le us).trans hus

end Fluxion
