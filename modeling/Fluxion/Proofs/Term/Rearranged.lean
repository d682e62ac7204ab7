import Mathlib
import Fluxion.Proofs.Rational
import Fluxion.Proofs.Term.Names

/-!
# Grouping and the order of terms

With exact numbers, grouping terms whose factors are all different keeps their sum, whatever a power stands
for: exponents are never added up, so no law of powers is needed. What is left after grouping is the total
coefficient of every signature, where it is not zero. Totals do not depend on the order of the terms, nor on
how a coefficient is shared out among terms with the same factors, and so a composite key does not change
its name when its terms are rearranged.
-/

namespace Fluxion

open ExactScalar

variable {α R : Type}

/-! ## Terms without factors to merge -/

/-- No two factors of the term have keys with the same name, and no exponent is zero. -/
structure Term.Tidy [Scalar α] (t : Term α) : Prop where
  names : (t.factors.map fun f => f.key.canonical).Nodup
  exponents : ∀ f ∈ t.factors, (f.exponent == 0) = false

instance [Scalar α] (t : Term α) : Decidable t.Tidy :=
  decidable_of_iff ((t.factors.map fun f => f.key.canonical).Nodup ∧
    ∀ f ∈ t.factors, (f.exponent == 0) = false) ⟨fun h => ⟨h.1, h.2⟩, fun h => ⟨h.names, h.exponents⟩⟩

/-- At every depth there are no factors to merge. -/
def Terms.Tidy [Scalar α] (ts : List (Term α)) : Prop :=
  Terms.Throughout (fun us => ∀ t ∈ us, t.Tidy) ts

theorem Terms.Grouped.tidy [Scalar α] {ts : List (Term α)} (h : Terms.Grouped ts) : Terms.Tidy ts :=
  h.imp fun _ hmerged t ht => ⟨(hmerged.reduced t ht).names, (hmerged.reduced t ht).exponents⟩

/-- Regrouping a key does not change its name. -/
theorem Key.canonical_regroup [Scalar α] (k : Key α) :
    (k.regroup Terms.group).canonical = k.canonical := by
  cases k with
  | atom x => rfl
  | composite ts =>
    rw [Key.regroup, Key.canonical_composite, Key.canonical_composite,
      (Terms.grouped_group ts).group_eq]

theorem Term.Tidy.regroup_eq [Scalar α] {t : Term α} (h : t.Tidy) :
    t.regroup =
      ⟨t.coefficient, t.factors.map fun f => ⟨f.key.regroup Terms.group, f.exponent⟩⟩ := by
  refine Term.regroup_eq_map ?_ h.exponents
  simp only [Key.canonical_regroup]
  exact h.names

/-! ## The sum -/

/-- Scalars of the same value stand for the same number, and sums stand for sums. -/
structure Interpretation.Additive [ExactScalar α] [Add R] (I : Interpretation α R) : Prop where
  number_congr {a b : α} : value a = value b → I.number a = I.number b
  number_add (a b : α) : I.number (a + b) = I.number a + I.number b

section Sum

variable [ExactScalar α] [CommRing R] {I : Interpretation α R}

theorem Interpretation.Additive.number_zero (hI : I.Additive) {a : α} (ha : value a = 0) :
    I.number a = 0 := by
  have hsum : value (a + a) = value a := by rw [value_add, ha, add_zero]
  have hdouble : I.number a + I.number a = I.number a := by
    rw [← hI.number_add, hI.number_congr hsum]
  exact left_eq_add.mp hdouble.symm

theorem Term.Tidy.denote_regroup {t : Term α} (h : t.Tidy)
    (hkey : ∀ f ∈ t.factors, (f.key.regroup Terms.group).denote I = f.key.denote I) :
    t.regroup.denote I = t.denote I := by
  have hfactors : (t.factors.map fun f => (⟨f.key.regroup Terms.group, f.exponent⟩ : Factor α)).map
      (Factor.denote I) = t.factors.map (Factor.denote I) := by
    rw [List.map_map]
    refine List.map_congr_left fun f hf => ?_
    show I.power ((f.key.regroup Terms.group).denote I) (I.number f.exponent) = _
    rw [hkey f hf]
    rfl
  rw [h.regroup_eq, Term.denote, Term.denote, Factors.denote_eq_prod, Factors.denote_eq_prod, hfactors]

/-- Grouping keeps the sum of terms without factors to merge. -/
theorem Terms.Tidy.denote_group (hI : I.Additive) {ts : List (Term α)} (hplain : Terms.Plain ts)
    (h : Terms.Tidy ts) : Terms.denote I (Terms.group ts) = Terms.denote I ts := by
  let S : List (Term α) → Prop := fun us => Terms.Plain us ∧ Terms.Tidy us
  have hpk : ∀ k : Key α, k.Over S → k.Plain := by
    intro k hk
    cases k with
    | atom x => exact hk
    | composite us => exact hk.1
  have hover : ∀ us, S us → ∀ t ∈ us, ∀ f ∈ t.factors, f.key.Over S := by
    intro us hus t ht f hf
    have hkey := hus.1.key ht hf
    cases hk : f.key with
    | atom x =>
      rw [hk] at hkey
      exact hkey
    | composite vs =>
      rw [hk] at hkey
      exact ⟨hkey, hus.2.inside ht hf hk⟩
  refine (Terms.group_sound (I := I) (S := S) (fun _ _ => hI.number_congr) (fun _ hus => hus.1) hover
    ?_ ⟨hplain, h⟩).2
  intro K us hK hname hus hin
  refine ⟨⟨hus.1.group, (Terms.grouped_group us).tidy⟩, ?_⟩
  have hsum : Terms.denote I (Terms.group us) = (us.map fun t => t.regroup.denote I).sum :=
    Terms.denote_group_eq_sum (fun _ _ => hI.number_congr) hI.number_add (fun _ => hI.number_zero)
      (fun k hk => hpk k (hK k hk)) hname fun t ht f hf => (hin t ht f hf).1
  rw [hsum, Terms.denote_eq_sum]
  refine congrArg List.sum (List.map_congr_left fun t ht => ?_)
  exact (hus.2.here t ht).denote_regroup fun f hf => (hin t ht f hf).2

end Sum

/-! ## Totals -/

section Totals

variable [ExactScalar α]

/-- What the coefficients of all terms with a signature add up to, once the terms are in canonical form. -/
def Terms.total (ts : List (Term α)) (s : String) : ℚ :=
  (((ts.map Term.regroup).filter fun t => t.signature == s).map fun t => value t.coefficient).sum

theorem Term.value_addAll (t : Term α) (ts : List (Term α)) :
    value (t.addAll ts).coefficient =
      value t.coefficient + (ts.map fun u => value u.coefficient).sum := by
  have hfold : ∀ c : α, value (ts.foldl (fun c u => c + u.coefficient) c) =
      value c + (ts.map fun u => value u.coefficient).sum := by
    induction ts with
    | nil => intro c; simp
    | cons u ts ih =>
      intro c
      rw [List.foldl_cons, ih, value_add, List.map_cons, List.sum_cons, add_assoc]
  exact hfold t.coefficient

theorem Terms.exists_sumUp {ts : List (Term α)} (h : ts ≠ []) : ∃ t, Terms.sumUp ts = some t := by
  cases ts with
  | nil => exact absurd rfl h
  | cons t ts => exact ⟨t.addAll ts, rfl⟩

theorem Terms.sumUp_filter {ts : List (Term α)} {s : String} {t : Term α}
    (h : Terms.sumUp (ts.filter fun t => t.signature == s) = some t) :
    t.signature = s ∧ value t.coefficient =
      ((ts.filter fun t => t.signature == s).map fun t => value t.coefficient).sum := by
  cases hfilter : ts.filter fun t => t.signature == s with
  | nil =>
    rw [hfilter] at h
    cases h
  | cons u us =>
    rw [hfilter] at h
    cases h
    have hu : u ∈ ts.filter fun t => t.signature == s := by
      rw [hfilter]
      exact List.mem_cons_self ..
    have hsig : (u.addAll us).signature = u.signature := Term.signature_congr rfl
    rw [hsig, Term.value_addAll]
    exact ⟨beq_iff_eq.mp (List.mem_filter.mp hu).2, rfl⟩

/-- After grouping, each signature stands beside its total, unless that is zero. -/
theorem Terms.mem_group_iff_total {ts : List (Term α)} {s : String} {c : ℚ} :
    (s, c) ∈ (Terms.group ts).map (fun t => (t.signature, value t.coefficient)) ↔
      c = Terms.total ts s ∧ c ≠ 0 := by
  rw [Terms.group_eq_merge, Terms.merge_nil_eq, List.mem_map]
  constructor
  · rintro ⟨t, ht, hpair⟩
    obtain ⟨hmem, hne⟩ := List.mem_filter.mp ht
    obtain ⟨s', -, hsum⟩ := List.mem_filterMap.mp hmem
    obtain ⟨hsig, hvalue⟩ := Terms.sumUp_filter hsum
    obtain ⟨rfl, rfl⟩ := Prod.mk.inj hpair
    rw [← hsig] at hvalue
    refine ⟨hvalue, ?_⟩
    intro hzero
    rw [(beq_zero_iff _).mpr hzero] at hne
    cases hne
  · rintro ⟨rfl, hne⟩
    have hfilter : ((ts.map Term.regroup).filter fun t => t.signature == s) ≠ [] := by
      intro hnil
      unfold Terms.total at hne
      rw [hnil] at hne
      exact hne rfl
    obtain ⟨u, hu⟩ := List.exists_mem_of_ne_nil _ hfilter
    obtain ⟨humem, hus⟩ := List.mem_filter.mp hu
    obtain ⟨t, hsum⟩ := Terms.exists_sumUp hfilter
    obtain ⟨hsig, hvalue⟩ := Terms.sumUp_filter hsum
    refine ⟨t, List.mem_filter.mpr ⟨List.mem_filterMap.mpr ⟨s, ?_, hsum⟩, ?_⟩, ?_⟩
    · rw [List.mem_eraseDups]
      exact List.mem_map.mpr ⟨u, humem, beq_iff_eq.mp hus⟩
    · rw [Bool.not_eq_true', Bool.eq_false_iff, ne_eq, beq_zero_iff, hvalue]
      exact hne
    · rw [hsig, hvalue]
      rfl

/-- Terms with the same totals have the same groups, up to order. -/
theorem Terms.perm_group_of_total_eq {ts us : List (Term α)}
    (h : ∀ s, Terms.total ts s = Terms.total us s) :
    ((Terms.group ts).map fun t => (t.signature, value t.coefficient)).Perm
      ((Terms.group us).map fun t => (t.signature, value t.coefficient)) := by
  have hnodup : ∀ vs : List (Term α),
      ((Terms.group vs).map fun t => (t.signature, value t.coefficient)).Nodup := by
    intro vs
    refine List.Nodup.of_map Prod.fst ?_
    rw [List.map_map]
    exact Terms.nodup_signature_group vs
  refine (List.perm_ext_iff_of_nodup (hnodup ts) (hnodup us)).mpr ?_
  rintro ⟨s, c⟩
  rw [Terms.mem_group_iff_total, Terms.mem_group_iff_total, h]

/-- Lists with the same groups up to order are keys of the same name. -/
theorem Key.canonical_composite_of_perm {ts us : List (Term α)}
    (h : ((Terms.group ts).map fun t => (t.signature, value t.coefficient)).Perm
      ((Terms.group us).map fun t => (t.signature, value t.coefficient))) :
    (Key.composite ts).canonical = (Key.composite us).canonical := by
  have hlabels : ((Terms.group ts).map Term.label).Perm ((Terms.group us).map Term.label) := by
    refine perm_map_of_perm_label h fun t _ u _ hpair => ?_
    obtain ⟨hsig, hvalue⟩ := Prod.mk.inj hpair
    unfold Term.label
    rw [hsig, (text_eq_iff _ _).mpr hvalue]
  rw [Key.canonical_composite, Key.canonical_composite, Terms.nameWith_canonical,
    Terms.nameWith_canonical, sortTexts_eq_iff.mpr hlabels]

/-! ## Rearranging -/

/-- The second list comes from the first by moving terms about and by sharing out the coefficient of a term
among terms with the same factors. -/
inductive Terms.Rearranges : List (Term α) → List (Term α) → Prop
  | perm {ts us : List (Term α)} (h : ts.Perm us) : Rearranges ts us
  | split (before after : List (Term α)) {t : Term α} {parts : List (Term α)}
      (hfactors : ∀ p ∈ parts, p.factors = t.factors)
      (htotal : (parts.map fun p => value p.coefficient).sum = value t.coefficient) :
      Rearranges (before ++ t :: after) (before ++ (parts ++ after))
  | trans {ts us vs : List (Term α)} (h : Rearranges ts us) (h' : Rearranges us vs) :
      Rearranges ts vs

theorem Terms.total_append (ts us : List (Term α)) (s : String) :
    Terms.total (ts ++ us) s = Terms.total ts s + Terms.total us s := by
  simp [Terms.total]

theorem Terms.total_cons (t : Term α) (ts : List (Term α)) (s : String) :
    Terms.total (t :: ts) s =
      (if t.regroup.signature = s then value t.coefficient else 0) + Terms.total ts s := by
  have hcoefficient : t.regroup.coefficient = t.coefficient := rfl
  by_cases hs : t.regroup.signature = s
  · simp [Terms.total, hs, hcoefficient]
  · simp [Terms.total, hs]

theorem Term.signature_regroup_congr {t u : Term α} (h : t.factors = u.factors) :
    t.regroup.signature = u.regroup.signature := by
  refine Term.signature_congr ?_
  unfold Term.regroup Term.canonicalWith
  rw [h]

/-- Terms with the factors of `t` count towards the signature of `t` and no other. -/
theorem Terms.total_of_factors_eq {t : Term α} {parts : List (Term α)}
    (h : ∀ p ∈ parts, p.factors = t.factors) (s : String) :
    Terms.total parts s =
      if t.regroup.signature = s then (parts.map fun p => value p.coefficient).sum else 0 := by
  induction parts with
  | nil => simp [Terms.total]
  | cons p parts ih =>
    obtain ⟨hp, hparts⟩ := List.forall_mem_cons.mp h
    rw [Terms.total_cons, ih hparts, Term.signature_regroup_congr hp]
    split
    · rw [List.map_cons, List.sum_cons]
    · rw [add_zero]

theorem Terms.Rearranges.total_eq {ts us : List (Term α)} (h : Terms.Rearranges ts us) (s : String) :
    Terms.total ts s = Terms.total us s := by
  induction h with
  | perm h => exact (((h.map _).filter _).map _).sum_eq
  | split before after hfactors htotal =>
    rw [Terms.total_append, Terms.total_append, Terms.total_append, Terms.total_cons,
      Terms.total_of_factors_eq hfactors, htotal]
  | trans _ _ ih ih' => exact ih.trans ih'

end Totals

/-- Grouping keeps the sum of terms over letters in which no factors are left to merge, for every reading of
powers, and it does not depend on the order of the terms or on how coefficients are shared out. -/
theorem Terms.group_keeps_sum_and_ignores_order [ExactScalar α] (ts : List (Term α))
    (hletters : Terms.Lettered ts) (htidy : Terms.Tidy ts) :
    (∀ (R : Type) [CommRing R] (I : Interpretation α R), I.Additive →
      Terms.denote I (Terms.group ts) = Terms.denote I ts) ∧
    ∀ us : List (Term α), Terms.Rearranges ts us →
      ((Terms.group ts).map fun t => (t.signature, value t.coefficient)).Perm
        ((Terms.group us).map fun t => (t.signature, value t.coefficient)) ∧
      (Key.composite ts).canonical = (Key.composite us).canonical := by
  constructor
  · intro R _ I hI
    exact htidy.denote_group hI hletters.plain
  · intro us hus
    have hperm := Terms.perm_group_of_total_eq hus.total_eq
    exact ⟨hperm, Key.canonical_composite_of_perm hperm⟩

section Rational

open scoped Rational

/-- Two like terms over `x+1` and `1+x`, against the same terms the other way round with the first
coefficient shared out. -/
theorem Terms.group_keeps_sum_and_ignores_order_fraction :
    let sum : List (Term ℚ) := [⟨1, [⟨.atom "x", 1⟩]⟩, ⟨1, []⟩]
    let turned : List (Term ℚ) := [⟨1, []⟩, ⟨1, [⟨.atom "x", 1⟩]⟩]
    let t : Term ℚ := ⟨2, [⟨.atom "x", 1⟩, ⟨.composite sum, -1⟩]⟩
    let u : Term ℚ := ⟨3, [⟨.composite turned, -1⟩, ⟨.atom "x", 1⟩]⟩
    (∀ I : Interpretation ℚ ℚ, I.Additive →
      Terms.denote I (Terms.group [t, u]) = Terms.denote I [t, u]) ∧
      ((Terms.group [t, u]).map fun t => (t.signature, value t.coefficient)).Perm
        ((Terms.group [u, ⟨1, t.factors⟩, ⟨1, t.factors⟩]).map
          fun t => (t.signature, value t.coefficient)) ∧
      (Key.composite [t, u]).canonical =
        (Key.composite [u, ⟨1, t.factors⟩, ⟨1, t.factors⟩]).canonical := by
  intro sum turned t u
  have hsum : Terms.Tidy sum := .intro (by decide +kernel) (by simp [sum])
  have hturned : Terms.Tidy turned := .intro (by decide +kernel) (by simp [turned])
  have htidy : Terms.Tidy [t, u] := .intro (by decide +kernel) (by simpa [t, u] using ⟨hsum, hturned⟩)
  have hx : LettersOnly "x" := by
    unfold LettersOnly
    decide +kernel
  have hletters : Terms.Lettered [t, u] := by
    simp [Terms.Lettered, Terms.Every, Factors.Every, Key.Every, t, u, sum, turned, hx]
  have hmove : Terms.Rearranges [t, u] [u, t] := .perm (List.Perm.swap u t [])
  have hsplit : Terms.Rearranges ([u] ++ t :: [])
      ([u] ++ ([⟨1, t.factors⟩, ⟨1, t.factors⟩] ++ [])) :=
    .split [u] [] (by simp) (by decide +kernel)
  obtain ⟨hvalue, horder⟩ := Terms.group_keeps_sum_and_ignores_order [t, u] hletters htidy
  exact ⟨hvalue ℚ, horder _ (hmove.trans hsplit)⟩

end Rational

end Fluxion
