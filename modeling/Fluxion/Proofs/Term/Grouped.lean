import Fluxion.Proofs.Term.Reduced

/-!
# Grouped lists of terms

Grouping leaves a list in which no two terms are alike, nothing is zero and every composite key holds such a
list again. A list of that form has nothing to merge and nothing to drop, at any depth, so grouping gives it
back unchanged. The terms of the result are those of the canonical terms it started from: one for each
signature, in the order in which the signatures are met, and with the coefficients added up from the left.
-/

namespace Fluxion

variable {α : Type}

/-! ## Lists inside lists -/

/-- The list has the property `P`, and so has every list inside its composite keys, at every depth. -/
inductive Terms.Throughout (P : List (Term α) → Prop) : List (Term α) → Prop
  | intro {ts : List (Term α)} (here : P ts)
      (inside : ∀ t ∈ ts, ∀ f ∈ t.factors, ∀ us, f.key = .composite us → Throughout P us) :
      Throughout P ts

section Throughout

variable {P Q : List (Term α) → Prop} {ts us : List (Term α)}

theorem Terms.Throughout.here (h : Terms.Throughout P ts) : P ts := by
  cases h with
  | intro here _ => exact here

theorem Terms.Throughout.inside (h : Terms.Throughout P ts) {t : Term α} (ht : t ∈ ts) {f : Factor α}
    (hf : f ∈ t.factors) (hk : f.key = .composite us) : Terms.Throughout P us := by
  cases h with
  | intro _ inside => exact inside t ht f hf us hk

theorem Terms.Throughout.imp (hPQ : ∀ ts, P ts → Q ts) (h : Terms.Throughout P ts) :
    Terms.Throughout Q ts := by
  induction h with
  | intro here _ ih => exact .intro (hPQ _ here) ih

theorem Terms.Throughout.and (hP : Terms.Throughout P ts) (hQ : Terms.Throughout Q ts) :
    Terms.Throughout (fun ts => P ts ∧ Q ts) ts := by
  induction hP with
  | intro here _ ih =>
    exact .intro ⟨here, hQ.here⟩ fun t ht f hf us hk => ih t ht f hf us hk (hQ.inside ht hf hk)

end Throughout

variable [Scalar α]

/-! ## Like terms -/

theorem Term.signature_congr {t u : Term α} (h : t.factors = u.factors) : t.signature = u.signature := by
  unfold Term.signature Term.signatureWith
  rw [h]

/-- Add a term to some terms, merging it into the first that has the same signature. -/
def Terms.insertLike (t : Term α) : List (Term α) → List (Term α)
  | [] => [t]
  | u :: us =>
    if u.signature == t.signature then ⟨u.coefficient + t.coefficient, u.factors⟩ :: us
    else u :: Terms.insertLike t us

/-- Terms that stand beside their signatures still do after a term is added. -/
theorem Terms.insertSigned_map (t : Term α) (us : List (Term α)) :
    Terms.insertSigned t.signature t (us.map fun u => (u.signature, u)) =
      (Terms.insertLike t us).map fun u => (u.signature, u) := by
  induction us with
  | nil => rfl
  | cons u us ih =>
    rw [List.map_cons, Terms.insertSigned, Terms.insertLike, ih]
    split
    · rfl
    · rfl

/-- The term with its composite keys regrouped and its factors merged. -/
def Term.regroup (t : Term α) : Term α := t.canonicalWith Key.canonical Terms.group

/-- Like terms merged one after the other. -/
def Terms.merge (us ts : List (Term α)) : List (Term α) :=
  ts.foldl (fun acc t => Terms.insertLike t.regroup acc) us

theorem Terms.group_eq_merge (ts : List (Term α)) :
    Terms.group ts = (Terms.merge [] ts).filter fun t => !(t.coefficient == 0) := by
  have hmerge : ∀ us : List (Term α),
      ts.foldl (fun acc t => Terms.insertSigned t.regroup.signature t.regroup acc)
        (us.map fun u => (u.signature, u)) = (Terms.merge us ts).map fun u => (u.signature, u) := by
    induction ts with
    | nil => exact fun us => rfl
    | cons t ts ih =>
      intro us
      rw [List.foldl_cons, Terms.insertSigned_map, ih]
      rfl
  have hsnd : (Terms.mergeWith Key.canonical Terms.group ts).map (·.2) = Terms.merge [] ts := by
    have hrun : Terms.mergeWith Key.canonical Terms.group ts =
        (Terms.merge [] ts).map fun u => (u.signature, u) := hmerge []
    rw [hrun, List.map_map]
    exact List.map_id _
  rw [Terms.group_eq, Terms.groupWith, hsnd]

/-- A term with the coefficients of some terms added to its own, from the left. -/
def Term.addAll (t : Term α) (ts : List (Term α)) : Term α :=
  ⟨ts.foldl (fun c u => c + u.coefficient) t.coefficient, t.factors⟩

/-- Like terms as one: the factors of the first, and all coefficients added up from the left. -/
def Terms.sumUp : List (Term α) → Option (Term α)
  | [] => none
  | t :: ts => some (t.addAll ts)

/-- The first of the terms that are there already takes up all that are alike it, and the others are merged
as if it were not there. -/
theorem Terms.merge_cons (u : Term α) (us ts : List (Term α)) :
    Terms.merge (u :: us) ts =
      u.addAll ((ts.map Term.regroup).filter fun t => t.signature == u.signature) ::
        Terms.merge us (ts.filter fun t => !(t.regroup.signature == u.signature)) := by
  induction ts generalizing u us with
  | nil =>
    obtain ⟨c, fs⟩ := u
    rfl
  | cons t ts ih =>
    by_cases hlike : t.regroup.signature = u.signature
    · have hstep : Terms.merge (u :: us) (t :: ts) =
          Terms.merge (⟨u.coefficient + t.regroup.coefficient, u.factors⟩ :: us) ts := by
        simp [Terms.merge, Terms.insertLike, hlike]
      have hsame : (⟨u.coefficient + t.regroup.coefficient, u.factors⟩ : Term α).signature =
          u.signature := Term.signature_congr rfl
      rw [hstep, ih, hsame]
      simp [Term.addAll, hlike]
    · have hstep : Terms.merge (u :: us) (t :: ts) =
          Terms.merge (u :: Terms.insertLike t.regroup us) ts := by
        simp [Terms.merge, Terms.insertLike, Ne.symm hlike]
      rw [hstep, ih]
      simp [Terms.merge, hlike]

/-- Leaving out the terms of one signature does not matter for another. -/
theorem Terms.filter_signature_filter {ts : List (Term α)} {s s' : String} (hne : s ≠ s') :
    ((ts.filter fun t => !(t.regroup.signature == s')).map Term.regroup).filter
        (fun t => t.signature == s) = (ts.map Term.regroup).filter fun t => t.signature == s := by
  rw [List.filter_map, List.filter_map, List.filter_filter]
  congr 1
  refine List.filter_congr fun t _ => ?_
  by_cases ht : t.regroup.signature = s
  · simp [ht, hne]
  · simp [ht]

/-- Merging gives one term for each signature, in the order of their first occurrence. -/
theorem Terms.merge_nil_eq (ts : List (Term α)) :
    Terms.merge [] ts = ((ts.map Term.regroup).map Term.signature).eraseDups.filterMap fun s =>
      Terms.sumUp ((ts.map Term.regroup).filter fun t => t.signature == s) := by
  induction hlen : ts.length using Nat.strong_induction_on generalizing ts with
  | _ n ih =>
    cases ts with
    | nil => rfl
    | cons t ts =>
      -- the terms that are not alike the first one, to which the claim applies
      let rest := ts.filter fun u => !(u.regroup.signature == t.regroup.signature)
      have hshort : rest.length < n := by
        have hle : rest.length ≤ ts.length := List.length_filter_le _ _
        rw [← hlen, List.length_cons]
        omega
      have hsigs : ((ts.map Term.regroup).map Term.signature).filter
          (fun s => !(s == t.regroup.signature)) = (rest.map Term.regroup).map Term.signature := by
        simp only [rest, List.map_map, List.filter_map]
        rfl
      have hfirst : Terms.merge [] (t :: ts) =
          t.regroup.addAll ((ts.map Term.regroup).filter
            fun u => u.signature == t.regroup.signature) :: Terms.merge [] rest :=
        Terms.merge_cons t.regroup [] ts
      rw [hfirst, ih _ hshort rest rfl, List.map_cons, List.map_cons, List.eraseDups_cons,
        List.filterMap_cons, hsigs]
      have hsum : Terms.sumUp ((t.regroup :: ts.map Term.regroup).filter
          fun u => u.signature == t.regroup.signature) =
          some (t.regroup.addAll ((ts.map Term.regroup).filter
            fun u => u.signature == t.regroup.signature)) := by
        rw [List.filter_cons_of_pos (by simp)]
        rfl
      rw [hsum]
      dsimp only
      congr 1
      refine List.filterMap_congr fun s hs => ?_
      have hne : s ≠ t.regroup.signature := by
        rw [List.mem_eraseDups, ← hsigs] at hs
        simpa using (List.mem_filter.mp hs).2
      rw [List.filter_cons_of_neg (by simpa using Ne.symm hne), Terms.filter_signature_filter hne]

/-! ## Nothing left to merge -/

/-- No two of the terms are alike, and inside each there is nothing to merge and nothing is zero. -/
structure Terms.Merged (ts : List (Term α)) : Prop where
  signatures : (ts.map Term.signature).Nodup
  reduced : ∀ t ∈ ts, t.Reduced

instance (ts : List (Term α)) : Decidable (Terms.Merged ts) :=
  decidable_of_iff ((ts.map Term.signature).Nodup ∧ ∀ t ∈ ts, t.Reduced)
    ⟨fun ⟨hs, hr⟩ => ⟨hs, hr⟩, fun ⟨hs, hr⟩ => ⟨hs, hr⟩⟩

/-- Terms with nothing to merge at any depth. -/
def Terms.Grouped (ts : List (Term α)) : Prop := Terms.Throughout Terms.Merged ts

/-- A composite key of a grouped term holds the grouped terms of a key of the given ones. -/
theorem Terms.exists_key_of_mem_group {ts us : List (Term α)} {u : Term α} {f : Factor α}
    (hu : u ∈ Terms.group ts) (hf : f ∈ u.factors) (hk : f.key = .composite us) :
    ∃ t ∈ ts, ∃ g ∈ t.factors, ∃ vs, g.key = .composite vs ∧ us = Terms.group vs := by
  rw [Terms.group_eq] at hu
  obtain ⟨t, ht, hfactors⟩ := Terms.factors_of_mem_groupWith hu
  rw [hfactors] at hf
  obtain ⟨g, hg, hkey⟩ := Term.key_of_mem_canonicalWith hf
  refine ⟨t, ht, g, hg, ?_⟩
  cases hgk : g.key with
  | atom x =>
    rw [hk, hgk] at hkey
    cases hkey
  | composite vs =>
    rw [hk, hgk] at hkey
    cases hkey
    exact ⟨vs, rfl, rfl⟩

theorem Terms.grouped_group (ts : List (Term α)) : Terms.Grouped (Terms.group ts) := by
  induction ts using Terms.nested_induction with
  | step ts ih =>
    refine .intro ⟨Terms.nodup_signature_group ts, fun t ht => Terms.reduced_of_mem_group ht⟩ ?_
    intro u hu f hf us hk
    obtain ⟨t, ht, g, hg, vs, hvs, rfl⟩ := Terms.exists_key_of_mem_group hu hf hk
    exact ih t ht g hg vs hvs

theorem Factor.keep_of_ne_zero {f : Factor α} (h : (f.exponent == 0) = false) : f.keep = [f] := by
  unfold Factor.keep
  rw [h]
  rfl

theorem Factors.insert_eq_append {name : Key α → String} {f : Factor α} {fs : List (Factor α)}
    (hname : name f.key ∉ fs.map fun g => name g.key)
    (hexponents : ∀ g ∈ f :: fs, (g.exponent == 0) = false) :
    Factors.insert name f fs = fs ++ [f] := by
  obtain ⟨hf, hfs⟩ := List.forall_mem_cons.mp hexponents
  induction fs with
  | nil => exact Factor.keep_of_ne_zero hf
  | cons g fs ih =>
    rw [List.map_cons, List.mem_cons, not_or] at hname
    obtain ⟨hne, hname⟩ := hname
    obtain ⟨hg, hfs⟩ := List.forall_mem_cons.mp hfs
    have hrest : Factors.insertNamed name (name f.key) f fs = fs ++ [f] :=
      ih hname (List.forall_mem_cons.mpr ⟨hf, hfs⟩) hfs
    unfold Factors.insert Factors.insertNamed
    rw [if_neg (by simpa using Ne.symm hne), Factor.keep_of_ne_zero hg, hrest]
    rfl

/-- Factors with different names stay as they are when they are multiplied together. -/
theorem Factors.insertAll_eq_append {name : Key α → String} {start fs : List (Factor α)}
    (hnames : ((start ++ fs).map fun f => name f.key).Nodup)
    (hexponents : ∀ f ∈ start ++ fs, (f.exponent == 0) = false) :
    Factors.insertAll name start fs = start ++ fs := by
  induction fs generalizing start with
  | nil => exact (List.append_nil start).symm
  | cons f fs ih =>
    have hmove : start ++ [f] ++ fs = start ++ f :: fs := by simp
    have hinsert : Factors.insert name f start = start ++ [f] := by
      have hsome : ∀ g ∈ f :: start, (g.exponent == 0) = false := by
        intro g hg
        refine hexponents g ?_
        rcases List.mem_cons.mp hg with rfl | hg
        · simp
        · exact List.mem_append_left _ hg
      refine Factors.insert_eq_append (fun hmem => ?_) hsome
      rw [List.map_append, List.nodup_append] at hnames
      exact hnames.2.2 _ hmem _ (List.mem_map_of_mem (List.mem_cons_self ..)) rfl
    have hstep : Factors.insertAll name start (f :: fs) =
        Factors.insertAll name (Factors.insert name f start) fs := rfl
    rw [hstep, hinsert, ih (by rwa [hmove]) (by rwa [hmove]), hmove]

/-- When nothing is left to merge in a term, regrouping it means regrouping its keys. -/
theorem Term.regroup_eq_map {t : Term α}
    (hnames : (t.factors.map fun f => (f.key.regroup Terms.group).canonical).Nodup)
    (hexponents : ∀ f ∈ t.factors, (f.exponent == 0) = false) :
    t.regroup =
      ⟨t.coefficient, t.factors.map fun f => ⟨f.key.regroup Terms.group, f.exponent⟩⟩ := by
  unfold Term.regroup Term.canonicalWith
  rw [Factors.insertAll_eq_append, List.nil_append]
  · simpa [List.map_map, Function.comp_def] using hnames
  · simpa using hexponents

theorem Term.Reduced.regroup_eq {t : Term α} (h : t.Reduced)
    (hkey : ∀ f ∈ t.factors, f.key.regroup Terms.group = f.key) : t.regroup = t := by
  have hsame : (t.factors.map fun f => (⟨f.key.regroup Terms.group, f.exponent⟩ : Factor α)) =
      t.factors := by
    refine (List.map_congr_left fun f hf => ?_).trans (List.map_id _)
    rw [hkey f hf]
    cases f
    rfl
  have hnames : (t.factors.map fun f => (f.key.regroup Terms.group).canonical) =
      t.factors.map fun f => f.key.canonical :=
    List.map_congr_left fun f hf => by rw [hkey f hf]
  rw [Term.regroup_eq_map (hnames ▸ h.names) h.exponents, hsame]
  cases t
  rfl

theorem Terms.insertLike_eq_append {t : Term α} {us : List (Term α)}
    (h : t.signature ∉ us.map Term.signature) : Terms.insertLike t us = us ++ [t] := by
  induction us with
  | nil => rfl
  | cons u us ih =>
    rw [List.map_cons, List.mem_cons, not_or] at h
    obtain ⟨hne, hrest⟩ := h
    unfold Terms.insertLike
    rw [if_neg (by simpa using Ne.symm hne), ih hrest]
    rfl

/-- Terms with different signatures stay beside each other. -/
theorem Terms.merge_eq_append {us ts : List (Term α)} (hfixed : ∀ t ∈ ts, t.regroup = t)
    (h : ((us ++ ts).map Term.signature).Nodup) : Terms.merge us ts = us ++ ts := by
  induction ts generalizing us with
  | nil => exact (List.append_nil us).symm
  | cons t ts ih =>
    obtain ⟨ht, hts⟩ := List.forall_mem_cons.mp hfixed
    have hmove : us ++ [t] ++ ts = us ++ t :: ts := by simp
    have hnew : t.signature ∉ us.map Term.signature := by
      intro hmem
      rw [List.map_append, List.nodup_append] at h
      exact h.2.2 _ hmem _ (List.mem_map_of_mem (List.mem_cons_self ..)) rfl
    have hstep : Terms.merge us (t :: ts) = Terms.merge (Terms.insertLike t us) ts := by
      unfold Terms.merge
      rw [List.foldl_cons, ht]
    rw [hstep, Terms.insertLike_eq_append hnew, ih hts (by rwa [hmove]), hmove]

/-- Grouping leaves grouped terms alone. -/
theorem Terms.Grouped.group_eq {ts : List (Term α)} (h : Terms.Grouped ts) : Terms.group ts = ts := by
  induction h with
  | @intro ts hmerged hinside ih =>
    have hfixed : ∀ t ∈ ts, t.regroup = t := by
      intro t ht
      have hkey : ∀ f ∈ t.factors, f.key.regroup Terms.group = f.key := by
        intro f hf
        cases hk : f.key with
        | atom x => rfl
        | composite us => rw [Key.regroup, ih t ht f hf us hk]
      exact (hmerged.reduced t ht).regroup_eq hkey
    have hmerge : Terms.merge [] ts = ts := Terms.merge_eq_append hfixed hmerged.signatures
    rw [Terms.group_eq_merge, hmerge]
    refine List.filter_eq_self.mpr fun t ht => ?_
    rw [(hmerged.reduced t ht).coefficient]
    rfl

/-- Being grouped is the same as being left alone by grouping. -/
theorem Terms.grouped_iff {ts : List (Term α)} : Terms.Grouped ts ↔ Terms.group ts = ts := by
  constructor
  · intro h
    exact h.group_eq
  · intro h
    rw [← h]
    exact Terms.grouped_group ts

/-- Whatever the terms are, grouping leaves them with nothing to merge at any depth, with one term for each
signature in the order of first occurrence and with coefficients added up from the left, and grouping once
more changes nothing. -/
theorem Terms.group_normalizes (ts : List (Term α)) :
    Terms.Grouped (Terms.group ts) ∧
      (Terms.group ts = (((ts.map Term.regroup).map Term.signature).eraseDups.filterMap fun s =>
        Terms.sumUp ((ts.map Term.regroup).filter fun t => t.signature == s)).filter
          fun t => !(t.coefficient == 0)) ∧
      Terms.group (Terms.group ts) = Terms.group ts := by
  refine ⟨Terms.grouped_group ts, ?_, (Terms.grouped_group ts).group_eq⟩
  rw [← Terms.merge_nil_eq, Terms.group_eq_merge]

end Fluxion
