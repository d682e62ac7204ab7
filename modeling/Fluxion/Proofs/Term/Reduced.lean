import Fluxion.Proofs.Term.Naming

/-!
# What grouping leaves

After grouping no two terms are alike, no coefficient is zero, and inside a term no two factors have the
same name and no exponent is zero. So there is nothing left to merge and nothing left to drop.
-/

namespace Fluxion

variable {α : Type} [Scalar α]

/-! ## Factors -/

section Factors

variable {name : Key α → String}

theorem Factor.keep_sublist (f : Factor α) : f.keep.Sublist [f] := by
  unfold Factor.keep
  split
  · exact List.nil_sublist _
  · exact List.Sublist.refl _

theorem Factors.flatMap_keep_sublist (fs : List (Factor α)) :
    (fs.flatMap Factor.keep).Sublist fs := by
  induction fs with
  | nil => exact List.Sublist.refl _
  | cons f fs ih =>
    rw [List.flatMap_cons]
    exact (Factor.keep_sublist f).append ih

/-- A factor is multiplied into the one factor that has its name, so names stay distinct. -/
theorem Factors.nodup_insertNamed {f : Factor α} {fs : List (Factor α)}
    (h : (fs.map fun g => name g.key).Nodup) :
    ((Factors.insertNamed name (name f.key) f fs).map fun g => name g.key).Nodup := by
  induction fs with
  | nil =>
    have hsub := (Factor.keep_sublist f).map fun g => name g.key
    exact hsub.nodup (List.nodup_singleton _)
  | cons a fs ih =>
    obtain ⟨hnotin, htail⟩ := List.nodup_cons.mp h
    unfold Factors.insertNamed
    split
    · have hsub := (Factor.keep_sublist ⟨a.key, a.exponent + f.exponent⟩).append
        (Factors.flatMap_keep_sublist fs)
      exact (hsub.map fun g => name g.key).nodup h
    · rename_i hname
      have hsub := ((Factor.keep_sublist a).append
        (List.Sublist.refl (Factors.insertNamed name (name f.key) f fs))).map fun g => name g.key
      refine hsub.nodup (List.nodup_cons.mpr ⟨?_, ih htail⟩)
      intro hmem
      obtain ⟨g, hg, hga⟩ := List.mem_map.mp hmem
      obtain ⟨b, hb, hgb⟩ := Factors.key_of_mem_insertNamed hg
      dsimp only at hga
      rw [hgb] at hga
      rcases List.mem_cons.mp hb with rfl | hb
      · exact hname (beq_iff_eq.mpr hga.symm)
      · exact hnotin (List.mem_map.mpr ⟨b, hb, hga⟩)

theorem Factors.nodup_insertAll {start fs : List (Factor α)}
    (h : (start.map fun g => name g.key).Nodup) :
    ((Factors.insertAll name start fs).map fun g => name g.key).Nodup := by
  induction fs generalizing start with
  | nil => exact h
  | cons f fs ih =>
    have hinsert : ((Factors.insert name f start).map fun g => name g.key).Nodup :=
      Factors.nodup_insertNamed h
    exact ih hinsert

/-- Whatever was multiplied in, factors with exponent zero have disappeared. -/
theorem Factors.exponent_of_mem_insertNamed {label : String} {f g : Factor α}
    {fs : List (Factor α)} (h : g ∈ Factors.insertNamed name label f fs) :
    (g.exponent == 0) = false := by
  have hkeep : ∀ a : Factor α, g ∈ a.keep → (g.exponent == 0) = false := by
    intro a ha
    obtain ⟨rfl, hne⟩ := Factor.mem_keep ha
    exact hne
  induction fs with
  | nil => exact hkeep f h
  | cons a fs ih =>
    unfold Factors.insertNamed at h
    split at h
    · rcases List.mem_append.mp h with h | h
      · exact hkeep _ h
      · obtain ⟨b, -, hb⟩ := List.mem_flatMap.mp h
        exact hkeep b hb
    · rcases List.mem_append.mp h with h | h
      · exact hkeep a h
      · exact ih h

theorem Factors.exponent_of_mem_insertAll {start fs : List (Factor α)}
    (hstart : ∀ g ∈ start, (g.exponent == 0) = false) :
    ∀ g ∈ Factors.insertAll name start fs, (g.exponent == 0) = false := by
  induction fs generalizing start with
  | nil => exact hstart
  | cons f fs ih =>
    have hinsert : ∀ g ∈ Factors.insert name f start, (g.exponent == 0) = false :=
      fun g hg => Factors.exponent_of_mem_insertNamed hg
    exact ih hinsert

end Factors

/-! ## Terms -/

section Terms

variable {name : Key α → String} {inner : List (Term α) → List (Term α)}

theorem Terms.fst_of_mem_insertSigned {s : String} {t : Term α} {acc : List (String × Term α)}
    {p : String × Term α} (h : p ∈ Terms.insertSigned s t acc) :
    p.1 = s ∨ ∃ q ∈ acc, p.1 = q.1 := by
  obtain ⟨s', u⟩ := p
  rcases Terms.factors_of_mem_insertSigned h with ⟨rfl, -⟩ | ⟨v, hv, -⟩
  · exact Or.inl rfl
  · exact Or.inr ⟨(s', v), hv, rfl⟩

theorem Terms.nodup_insertSigned {s : String} {t : Term α} {acc : List (String × Term α)}
    (h : (acc.map Prod.fst).Nodup) : ((Terms.insertSigned s t acc).map Prod.fst).Nodup := by
  induction acc with
  | nil => exact List.nodup_singleton _
  | cons p acc ih =>
    obtain ⟨a, u⟩ := p
    obtain ⟨hnotin, htail⟩ := List.nodup_cons.mp h
    unfold Terms.insertSigned
    split
    · exact h
    · rename_i hne
      refine List.nodup_cons.mpr ⟨?_, ih htail⟩
      intro hmem
      obtain ⟨q, hq, hqa⟩ := List.mem_map.mp hmem
      rcases Terms.fst_of_mem_insertSigned hq with hs | ⟨r, hr, hqr⟩
      · exact hne (beq_iff_eq.mpr (hqa.symm.trans hs))
      · exact hnotin (List.mem_map.mpr ⟨r, hr, hqr.symm.trans hqa⟩)

theorem Terms.nodup_mergeWith (ts : List (Term α)) :
    ((Terms.mergeWith name inner ts).map Prod.fst).Nodup := by
  induction ts using List.reverseRecOn with
  | nil => exact List.nodup_nil
  | append_singleton ts t ih =>
    have hstep : Terms.mergeWith name inner (ts ++ [t]) =
        Terms.insertSigned ((t.canonicalWith name inner).signatureWith name)
          (t.canonicalWith name inner) (Terms.mergeWith name inner ts) := by
      simp [Terms.mergeWith]
    rw [hstep]
    exact Terms.nodup_insertSigned ih

/-- A merged term stands beside its own signature. -/
theorem Terms.fst_eq_signature_of_mem_mergeWith {ts : List (Term α)} {p : String × Term α}
    (h : p ∈ Terms.mergeWith name inner ts) : p.1 = p.2.signatureWith name := by
  obtain ⟨s, u⟩ := p
  obtain ⟨t, -, hs, hu⟩ := Terms.factors_of_mem_mergeWith h
  unfold Term.signatureWith at hs ⊢
  rw [hs, hu]

end Terms

/-- No two grouped terms are alike. -/
theorem Terms.nodup_signature_group (ts : List (Term α)) :
    ((Terms.group ts).map Term.signature).Nodup := by
  rw [Terms.group_eq]
  unfold Terms.groupWith
  have hmap : ((Terms.mergeWith Key.canonical Terms.group ts).map Prod.snd).map Term.signature =
      (Terms.mergeWith Key.canonical Terms.group ts).map Prod.fst := by
    rw [List.map_map]
    exact List.map_congr_left fun p hp => (Terms.fst_eq_signature_of_mem_mergeWith hp).symm
  have hsub := (List.filter_sublist (l := (Terms.mergeWith Key.canonical Terms.group ts).map Prod.snd)
    (p := fun t => !(t.coefficient == 0))).map Term.signature
  refine hsub.nodup ?_
  rw [hmap]
  exact Terms.nodup_mergeWith ts

/-- A grouped term has a coefficient other than zero, factors with distinct names and no exponent that
is zero. -/
structure Term.Reduced (t : Term α) : Prop where
  coefficient : (t.coefficient == 0) = false
  names : (t.factors.map fun f => f.key.canonical).Nodup
  exponents : ∀ f ∈ t.factors, (f.exponent == 0) = false

instance (t : Term α) : Decidable t.Reduced :=
  decidable_of_iff ((t.coefficient == 0) = false ∧ (t.factors.map fun f => f.key.canonical).Nodup ∧
    ∀ f ∈ t.factors, (f.exponent == 0) = false)
    ⟨fun ⟨hc, hn, he⟩ => ⟨hc, hn, he⟩, fun ⟨hc, hn, he⟩ => ⟨hc, hn, he⟩⟩

theorem Terms.reduced_of_mem_group {ts : List (Term α)} {t : Term α} (h : t ∈ Terms.group ts) :
    t.Reduced := by
  rw [Terms.group_eq] at h
  have hcoef : (t.coefficient == 0) = false := by
    unfold Terms.groupWith at h
    simpa using (List.mem_filter.mp h).2
  obtain ⟨u, -, hfactors⟩ := Terms.factors_of_mem_groupWith h
  refine ⟨hcoef, ?_, ?_⟩
  · rw [hfactors]
    exact Factors.nodup_insertAll List.nodup_nil
  · rw [hfactors]
    exact Factors.exponent_of_mem_insertAll fun g hg => absurd hg List.not_mem_nil

end Fluxion
