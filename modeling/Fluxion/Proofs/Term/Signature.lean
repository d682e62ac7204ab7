import Fluxion.Proofs.Exact
import Fluxion.Proofs.Term.Naming
import Fluxion.Proofs.Text.Nesting

/-!
# Signatures can be read back

A signature joins sorted factors by `*`, a factor is a name, `^` and an exponent, and the name of a
composite key is a parenthesized sum of signatures with coefficients. None of the separators occurs in
the name of a variable or in a number, so every text can be taken apart again: two terms have the same
signature exactly when their factors have the same names and exponents up to order, and two composite
keys have the same name exactly when their grouped terms have the same coefficients and signatures up
to order.
-/

namespace Fluxion

variable {α : Type}

/-! ## Sorted texts -/

theorem sortTexts_perm (ps : List String) : (sortTexts ps).Perm ps := List.mergeSort_perm _ _

/-- Sorting forgets the order and nothing else. -/
theorem sortTexts_eq_iff {ps qs : List String} : sortTexts ps = sortTexts qs ↔ ps.Perm qs := by
  constructor
  · intro h
    exact (sortTexts_perm ps).symm.trans (h ▸ sortTexts_perm qs)
  · intro h
    have htrans : ∀ a b c : String,
        decide (a ≤ b) = true → decide (b ≤ c) = true → decide (a ≤ c) = true :=
      fun a b c hab hbc =>
        decide_eq_true (String.le_trans (of_decide_eq_true hab) (of_decide_eq_true hbc))
    have htotal : ∀ a b : String, (decide (a ≤ b) || decide (b ≤ a)) = true :=
      fun a b => by simp [String.le_total]
    have hsorted (rs : List String) : (sortTexts rs).Pairwise fun a b => decide (a ≤ b) = true :=
      List.pairwise_mergeSort htrans htotal rs
    refine List.Perm.eq_of_pairwise (fun a b _ _ hab hba => ?_) (hsorted ps) (hsorted qs)
      (((sortTexts_perm ps).trans h).trans (sortTexts_perm qs).symm)
    exact String.le_antisymm (by simpa using hab) (by simpa using hba)

/-! ## What holds throughout nested terms -/

mutual

/-- Every variable satisfies `A` and every factor satisfies `F`, at every depth of a key. -/
def Key.Every (A : String → Prop) (F : Key α → α → Prop) : Key α → Prop
  | .atom x => A x
  | .composite ts => Terms.Every A F ts

/-- The same for factors. -/
def Factors.Every (A : String → Prop) (F : Key α → α → Prop) : List (Factor α) → Prop
  | [] => True
  | ⟨k, e⟩ :: fs => (k.Every A F ∧ F k e) ∧ Factors.Every A F fs

/-- The same for terms. -/
def Terms.Every (A : String → Prop) (F : Key α → α → Prop) : List (Term α) → Prop
  | [] => True
  | ⟨_, fs⟩ :: ts => Factors.Every A F fs ∧ Terms.Every A F ts

end

section Every

variable {A : String → Prop} {F : Key α → α → Prop}

theorem Factors.every_iff {fs : List (Factor α)} :
    Factors.Every A F fs ↔ ∀ f ∈ fs, f.key.Every A F ∧ F f.key f.exponent := by
  induction fs with
  | nil => simp [Factors.Every]
  | cons f fs ih =>
    obtain ⟨k, e⟩ := f
    simp [Factors.Every, ih]

theorem Terms.every_iff {ts : List (Term α)} :
    Terms.Every A F ts ↔ ∀ t ∈ ts, Factors.Every A F t.factors := by
  induction ts with
  | nil => simp [Terms.Every]
  | cons t ts ih =>
    obtain ⟨c, fs⟩ := t
    simp [Terms.Every, ih]

/-- Conditions on factors may be weakened throughout. -/
theorem Terms.Every.imp {G : Key α → α → Prop} (h : ∀ k e, F k e → G k e) {ts : List (Term α)}
    (hts : Terms.Every A F ts) : Terms.Every A G ts := by
  induction ts using Terms.nested_induction with
  | step ts ih =>
    refine Terms.every_iff.mpr fun t ht => Factors.every_iff.mpr fun f hf => ?_
    obtain ⟨hkey, hfac⟩ := Factors.every_iff.mp (Terms.every_iff.mp hts t ht) f hf
    refine ⟨?_, h _ _ hfac⟩
    cases hk : f.key with
    | atom x => rw [hk] at hkey; exact hkey
    | composite us => rw [hk] at hkey; exact ih t ht f hf us hk hkey

/-- What holds of all names and factors holds throughout all terms. -/
theorem Terms.every_of_forall (hA : ∀ x, A x) (hF : ∀ k e, F k e) (ts : List (Term α)) :
    Terms.Every A F ts := by
  induction ts using Terms.nested_induction with
  | step ts ih =>
    refine Terms.every_iff.mpr fun t ht => Factors.every_iff.mpr fun f hf => ⟨?_, hF _ _⟩
    cases hk : f.key with
    | atom x => exact hA x
    | composite us => exact ih t ht f hf us hk

theorem Terms.every_append {ts us : List (Term α)} :
    Terms.Every A F (ts ++ us) ↔ Terms.Every A F ts ∧ Terms.Every A F us := by
  simp only [Terms.every_iff, List.mem_append, or_imp, forall_and]

variable [Scalar α]

/-- What holds of a factor and of some factors, and survives adding exponents up, holds after the factor
is multiplied in. -/
theorem Factors.forall_insertNamed {G : Factor α → Prop} {name : Key α → String} {label : String}
    {f : Factor α} {fs : List (Factor α)} (hf : G f) (hfs : ∀ g ∈ fs, G g)
    (hadd : ∀ g ∈ fs, name g.key = label → G ⟨g.key, g.exponent + f.exponent⟩) :
    ∀ g ∈ Factors.insertNamed name label f fs, G g := by
  induction fs with
  | nil =>
    intro g hg
    rw [(Factor.mem_keep hg).1]
    exact hf
  | cons a fs ih =>
    intro g hg
    rw [Factors.insertNamed] at hg
    split at hg
    · rename_i hname
      rcases List.mem_append.mp hg with hg | hg
      · rw [(Factor.mem_keep hg).1]
        exact hadd a (List.mem_cons_self ..) (beq_iff_eq.mp hname)
      · obtain ⟨b, hb, hg⟩ := List.mem_flatMap.mp hg
        rw [(Factor.mem_keep hg).1]
        exact hfs b (List.mem_cons_of_mem _ hb)
    · rcases List.mem_append.mp hg with hg | hg
      · rw [(Factor.mem_keep hg).1]
        exact hfs a (List.mem_cons_self ..)
      · exact ih (fun b hb => hfs b (List.mem_cons_of_mem _ hb))
          (fun b hb => hadd b (List.mem_cons_of_mem _ hb)) g hg

/-- The same for factors that are multiplied in one after the other. -/
theorem Factors.forall_insertAll {G : Factor α → Prop} {name : Key α → String}
    {start fs : List (Factor α)}
    (hadd : ∀ f g, G f → G g → name g.key = name f.key → G ⟨g.key, g.exponent + f.exponent⟩)
    (hstart : ∀ g ∈ start, G g) (hfs : ∀ g ∈ fs, G g) :
    ∀ g ∈ Factors.insertAll name start fs, G g := by
  induction fs generalizing start with
  | nil => exact hstart
  | cons f fs ih =>
    have hf := hfs f (List.mem_cons_self ..)
    have hinsert : ∀ g ∈ Factors.insert name f start, G g :=
      Factors.forall_insertNamed hf hstart fun g hg => hadd f g hf (hstart g hg)
    exact ih hinsert fun g hg => hfs g (List.mem_cons_of_mem _ hg)

/-- What holds of terms once their keys are regrouped and their factors merged, and survives adding
coefficients up, holds of the grouped terms. -/
theorem Terms.forall_groupWith {G : Term α → Prop} {name : Key α → String}
    {inner : List (Term α) → List (Term α)} {ts : List (Term α)}
    (hadd : ∀ t u, G t → G u → G ⟨u.coefficient + t.coefficient, u.factors⟩)
    (h : ∀ t ∈ ts, G (t.canonicalWith name inner)) : ∀ u ∈ Terms.groupWith name inner ts, G u := by
  have hinsert (s : String) (t : Term α) (ht : G t) (acc : List (String × Term α))
      (hacc : ∀ p ∈ acc, G p.2) : ∀ p ∈ Terms.insertSigned s t acc, G p.2 := by
    induction acc with
    | nil => exact List.forall_mem_singleton.mpr ht
    | cons p acc ih =>
      obtain ⟨a, u⟩ := p
      obtain ⟨hu, hacc⟩ := List.forall_mem_cons.mp hacc
      rw [Terms.insertSigned]
      split
      · exact List.forall_mem_cons.mpr ⟨hadd t u ht hu, hacc⟩
      · exact List.forall_mem_cons.mpr ⟨hu, ih hacc⟩
  have hmerge : ∀ p ∈ Terms.mergeWith name inner ts, G p.2 :=
    List.foldlRecOn ts _ (fun p hp => absurd hp List.not_mem_nil) fun acc hacc t ht =>
      hinsert _ _ (h t ht) acc hacc
  intro u hu
  obtain ⟨p, hp, rfl⟩ := List.mem_map.mp (List.mem_filter.mp hu).1
  exact hmerge p hp

/-- Conditions on factors that survive merging and regrouping hold after grouping. -/
theorem Terms.Every.group
    (hadd : ∀ (k k' : Key α) (e e' : α), k.Every A F → k'.Every A F → F k e → F k' e' →
      k.canonical = k'.canonical → F k (e + e'))
    (hre : ∀ (ts : List (Term α)) (e : α), Terms.Every A F ts → F (.composite ts) e →
      F (.composite (Terms.group ts)) e)
    {ts : List (Term α)} (h : Terms.Every A F ts) : Terms.Every A F (Terms.group ts) := by
  induction ts using Terms.nested_induction with
  | step ts ih =>
    rw [Terms.group_eq]
    refine Terms.every_iff.mpr fun u hu => ?_
    obtain ⟨t, ht, hu⟩ := Terms.factors_of_mem_groupWith hu
    rw [hu, Factors.every_iff]
    refine Factors.forall_insertAll (fun f g hf hg hname => ⟨hg.1, hadd _ _ _ _ hg.1 hf.1 hg.2 hf.2 hname⟩)
      (by simp) fun g hg => ?_
    obtain ⟨f, hf, rfl⟩ := List.mem_map.mp hg
    obtain ⟨hkey, hfac⟩ := Factors.every_iff.mp (Terms.every_iff.mp h t ht) f hf
    cases hk : f.key with
    | atom x => rw [hk] at hkey hfac; exact ⟨hkey, hfac⟩
    | composite us =>
      rw [hk] at hkey hfac
      exact ⟨ih t ht f hf us hk hkey, hre us _ hkey hfac⟩

end Every

/-! ## Taking texts apart -/

/-- The text has none of the characters that structure a signature. -/
def Unstructured (s : String) : Prop := ∀ c ∈ s.toList, c ∉ separators

theorem Unstructured.closed {s : String} (h : Unstructured s) {bad : List Char}
    (hbad : bad ⊆ separators) : Closed bad s :=
  Closed.of_forall fun c hc =>
    ⟨fun hp => h c hc (by simp [hp, separators]), fun hp => h c hc (by simp [hp, separators]),
      fun hb => h c hc (hbad hb)⟩

section Scalar

variable [Scalar α]

/-- The text of a term inside the name of a composite key. -/
def Term.label (t : Term α) : String := Scalar.text t.coefficient ++ "*" ++ t.signature

theorem Terms.nameWith_canonical (ts : List (Term α)) :
    Terms.nameWith Key.canonical ts =
      "(" ++ String.intercalate "+" (sortTexts (ts.map Term.label)) ++ ")" := rfl

/-- The text of a factor falls into the name of its key and its exponent. -/
theorem Factor.label_eq_iff {f g : Factor α} (hf : Closed ['^'] f.key.canonical)
    (hg : Closed ['^'] g.key.canonical) :
    f.label Key.canonical = g.label Key.canonical ↔
      f.key.canonical = g.key.canonical ∧ Scalar.text f.exponent = Scalar.text g.exponent := by
  constructor
  · exact (Closed.separated (c := '^') (by simp) (by decide) (by decide)).append_inj rfl hf hg
  · rintro ⟨h1, h2⟩
    rw [Factor.label, Factor.label, h1, h2]

/-- The text of a term falls into its coefficient and its signature. -/
theorem Term.label_eq_iff {t u : Term α} (ht : Closed ['*'] (Scalar.text t.coefficient))
    (hu : Closed ['*'] (Scalar.text u.coefficient)) :
    t.label = u.label ↔
      Scalar.text t.coefficient = Scalar.text u.coefficient ∧ t.signature = u.signature := by
  constructor
  · exact (Closed.separated (c := '*') (by simp) (by decide) (by decide)).append_inj rfl ht hu
  · rintro ⟨h1, h2⟩
    rw [Term.label, Term.label, h1, h2]

theorem Factor.label_ne_empty (f : Factor α) : f.label Key.canonical ≠ "" := by
  intro h
  simpa [Factor.label] using congrArg String.toList h

theorem Term.label_ne_empty (t : Term α) : t.label ≠ "" := by
  intro h
  simpa [Term.label] using congrArg String.toList h

theorem mem_toList_intercalate {sep p : String} {ps : List String} {c : Char} (hp : p ∈ ps)
    (hc : c ∈ p.toList) : c ∈ (sep.intercalate ps).toList := by
  induction ps with
  | nil => cases hp
  | cons q ps ih =>
    cases ps with
    | nil =>
      rw [List.mem_singleton] at hp
      simpa [← hp] using hc
    | cons r ps =>
      rw [String.intercalate_cons_cons, String.toList_append, String.toList_append]
      rcases List.mem_cons.mp hp with rfl | hp
      · simp [hc]
      · exact List.mem_append_right _ (ih hp)

theorem Term.signature_of_ne_nil {t : Term α} (h : t.factors ≠ []) :
    t.signature =
      String.intercalate "*" (sortTexts (t.factors.map (Factor.label Key.canonical))) := by
  rw [Term.signature, Term.signatureWith, if_neg (by simpa using h)]

theorem Term.signature_of_nil {t : Term α} (h : t.factors = []) : t.signature = "constant" := by
  rw [Term.signature, Term.signatureWith, if_pos (by simpa using h)]

/-- A term with a factor has a `^` in its signature, a term without has not. -/
theorem Term.signature_ne_constant {t : Term α} (h : t.factors ≠ []) : t.signature ≠ "constant" := by
  intro hsig
  obtain ⟨f, hf⟩ := List.exists_mem_of_ne_nil _ h
  have hlabel : f.label Key.canonical ∈ sortTexts (t.factors.map (Factor.label Key.canonical)) :=
    (sortTexts_perm _).mem_iff.mpr (List.mem_map_of_mem hf)
  have hmem : '^' ∈ t.signature.toList := by
    rw [Term.signature_of_ne_nil h]
    exact mem_toList_intercalate hlabel (by simp [Factor.label])
  rw [hsig] at hmem
  exact absurd hmem (by decide)

/-- Equal signatures mean equal factors, by name and exponent and up to order. -/
theorem Term.signature_eq_iff {t u : Term α}
    (ht : ∀ f ∈ t.factors, Closed ['*'] (f.label Key.canonical))
    (hu : ∀ f ∈ u.factors, Closed ['*'] (f.label Key.canonical)) :
    t.signature = u.signature ↔
      (t.factors.map (Factor.label Key.canonical)).Perm
        (u.factors.map (Factor.label Key.canonical)) := by
  by_cases ht0 : t.factors = []
  · by_cases hu0 : u.factors = []
    · simp [Term.signature_of_nil, ht0, hu0]
    · rw [Term.signature_of_nil ht0, ht0]
      refine ⟨fun h => absurd h.symm (Term.signature_ne_constant hu0), fun h => ?_⟩
      exact absurd (List.map_eq_nil_iff.mp (List.nil_perm.mp h)) hu0
  · by_cases hu0 : u.factors = []
    · rw [Term.signature_of_nil hu0, hu0]
      refine ⟨fun h => absurd h (Term.signature_ne_constant ht0), fun h => ?_⟩
      exact absurd (List.map_eq_nil_iff.mp (List.perm_nil.mp h)) ht0
    · have hclosed (v : Term α) (hv : ∀ f ∈ v.factors, Closed ['*'] (f.label Key.canonical)) :
          ∀ p ∈ sortTexts (v.factors.map (Factor.label Key.canonical)),
            Closed ['*'] p ∧ p ≠ "" := by
        intro p hp
        obtain ⟨f, hf, rfl⟩ := List.mem_map.mp ((sortTexts_perm _).mem_iff.mp hp)
        exact ⟨hv f hf, f.label_ne_empty⟩
      rw [Term.signature_of_ne_nil ht0, Term.signature_of_ne_nil hu0, ← sortTexts_eq_iff]
      refine ⟨fun h => ?_, fun h => by rw [h]⟩
      have hsep : Separated '*' (Closed ['*']) := Closed.separated (by simp) (by decide) (by decide)
      exact hsep.intercalate_injective rfl (hclosed t ht) (hclosed u hu) h

/-- Equal names of composite keys mean equal grouped terms, by coefficient and signature and up to
order, wherever a plus sign separates the texts of the terms. -/
theorem Key.canonical_composite_eq_iff {P : String → Prop} (hP : Separated '+' P)
    {ts us : List (Term α)} (hts : ∀ t ∈ Terms.group ts, P t.label)
    (hus : ∀ t ∈ Terms.group us, P t.label) :
    (Key.composite ts).canonical = (Key.composite us).canonical ↔
      ((Terms.group ts).map Term.label).Perm ((Terms.group us).map Term.label) := by
  have hlabels (vs : List (Term α)) (hvs : ∀ t ∈ vs, P t.label) :
      ∀ p ∈ sortTexts (vs.map Term.label), P p ∧ p ≠ "" := by
    intro p hp
    obtain ⟨t, ht, rfl⟩ := List.mem_map.mp ((sortTexts_perm _).mem_iff.mp hp)
    exact ⟨hvs t ht, t.label_ne_empty⟩
  rw [Key.canonical_composite, Key.canonical_composite, Terms.nameWith_canonical,
    Terms.nameWith_canonical, ← sortTexts_eq_iff]
  refine ⟨fun h => ?_, fun h => by rw [h]⟩
  have hbody := congrArg String.toList h
  simp only [String.toList_append, List.append_cancel_left_eq, List.append_cancel_right_eq] at hbody
  exact hP.intercalate_injective rfl (hlabels _ hts) (hlabels _ hus) (String.toList_inj.mp hbody)

/-- The name of a variable is never the name of a composite key. -/
theorem Key.canonical_atom_ne_composite {x : String} (hx : Unstructured x) (ts : List (Term α)) :
    (Key.atom x : Key α).canonical ≠ (Key.composite ts).canonical := by
  intro h
  rw [Key.canonical_atom, Key.canonical_composite, Terms.nameWith_canonical] at h
  have hmem : '(' ∈ x.toList := by
    rw [h]
    simp
  exact hx _ hmem (by decide)

/-! ## What a name is written with -/

/-- Every variable in the name of a key satisfies `A` and every number in it satisfies `Q`. The name of a
composite key shows its terms as they are after grouping. -/
inductive Key.Written (A : String → Prop) (Q : α → Prop) : Key α → Prop
  | atom {x : String} (hx : A x) : Written A Q (.atom x)
  | composite {ts : List (Term α)} (hcoefficient : ∀ t ∈ Terms.group ts, Q t.coefficient)
      (hexponent : ∀ t ∈ Terms.group ts, ∀ f ∈ t.factors, Q f.exponent)
      (hkey : ∀ t ∈ Terms.group ts, ∀ f ∈ t.factors, Written A Q f.key) :
      Written A Q (.composite ts)

/-- A condition on every variable of a key holds of the variables that its name is written with. -/
theorem Key.Every.written {A : String → Prop} {k : Key α} (h : k.Every A fun _ _ => True) :
    k.Written A fun _ => True := by
  induction hd : k.depth using Nat.strong_induction_on generalizing k with
  | _ n ih =>
    subst hd
    cases k with
    | atom x => exact .atom h
    | composite ts =>
      refine .composite (fun _ _ => trivial) (fun _ _ _ _ => trivial) fun t ht f hf => ?_
      have hdepth : f.key.depth < (Key.composite ts).depth := by
        have h1 := Terms.depth_le_iff.mp (Terms.depth_group_le ts) t ht f hf
        rw [Key.depth_composite]
        omega
      have hgroup : Terms.Every A (fun _ _ => True) (Terms.group ts) :=
        Terms.Every.group (fun _ _ _ _ _ _ _ _ _ => trivial) (fun _ _ _ _ => trivial) h
      exact ih _ hdepth (Factors.every_iff.mp (Terms.every_iff.mp hgroup t ht) f hf).1 rfl

theorem Factor.closed_label {f : Factor α} (h : Closed ['*', '+', '^'] f.key.canonical)
    (he : Closed ['*'] (Scalar.text f.exponent)) : Closed ['*'] (f.label Key.canonical) :=
  ((h.mono (by simp)).append (Closed.of_forall (by simp))).append he

/-- The text of a term is closed for a plus sign, or at least its parentheses match, if that holds of the
numbers in it and if the names of its keys are closed. -/
theorem Term.closed_label {bad : List Char} (hbad : bad ⊆ ['+']) {t : Term α}
    (hcoefficient : Closed bad (Scalar.text t.coefficient))
    (hexponent : ∀ f ∈ t.factors, Closed bad (Scalar.text f.exponent))
    (hkey : ∀ f ∈ t.factors, Closed ['*', '+', '^'] f.key.canonical) : Closed bad t.label := by
  have hfree (s : String) (hs : ∀ c ∈ s.toList, c ≠ '(' ∧ c ≠ ')' ∧ c ≠ '+') : Closed bad s :=
    Closed.of_forall fun c hc =>
      ⟨(hs c hc).1, (hs c hc).2.1, fun hb => (hs c hc).2.2 (List.mem_singleton.mp (hbad hb))⟩
  refine (hcoefficient.append (hfree _ (by simp))).append ?_
  by_cases h0 : t.factors = []
  · rw [Term.signature_of_nil h0]
    exact hfree _ (by simp)
  · rw [Term.signature_of_ne_nil h0]
    refine Closed.intercalate (hfree _ (by simp)) fun p hp => ?_
    obtain ⟨f, hf, rfl⟩ := List.mem_map.mp ((sortTexts_perm _).mem_iff.mp hp)
    have hk : Closed bad f.key.canonical := (hkey f hf).mono fun c hc => by
      rw [List.mem_singleton.mp (hbad hc)]
      simp
    exact (hk.append (hfree _ (by simp))).append (hexponent f hf)

/-- The name of a key is closed for every separator, if no variable in it has a separator in its name and
no number in it has a `*` outside of parentheses. -/
theorem Key.Written.closed_canonical {A : String → Prop} {Q : α → Prop}
    (hA : ∀ x, A x → Unstructured x) (hQ : ∀ v, Q v → Closed ['*'] (Scalar.text v)) {k : Key α}
    (h : k.Written A Q) : Closed ['*', '+', '^'] k.canonical := by
  induction h with
  | atom hx => exact Unstructured.closed (hA _ hx) (by decide)
  | composite hcoefficient hexponent hkey ih =>
    rw [Key.canonical_composite, Terms.nameWith_canonical]
    have hplus : Closed [] "+" := Closed.of_forall (by simp)
    refine Closed.parenthesize (hplus.intercalate fun p hp => ?_)
    obtain ⟨t, ht, rfl⟩ := List.mem_map.mp ((sortTexts_perm _).mem_iff.mp hp)
    exact Term.closed_label (List.nil_subset _)
      ((hQ _ (hcoefficient t ht)).mono (List.nil_subset _))
      (fun f hf => (hQ _ (hexponent t ht f hf)).mono (List.nil_subset _)) (ih t ht)

end Scalar

/-! ## Plain names -/

/-- No variable has one of the separators in its name. -/
def Key.Plain (k : Key α) : Prop := k.Every Unstructured fun _ _ => True

/-- No variable has one of the separators in its name. -/
def Terms.Plain (ts : List (Term α)) : Prop := Terms.Every Unstructured (fun _ _ => True) ts

theorem Terms.Plain.key {ts : List (Term α)} (h : Terms.Plain ts) {t : Term α} (ht : t ∈ ts)
    {f : Factor α} (hf : f ∈ t.factors) : f.key.Plain :=
  (Factors.every_iff.mp (Terms.every_iff.mp h t ht) f hf).1

theorem Terms.Plain.group [Scalar α] {ts : List (Term α)} (h : Terms.Plain ts) :
    Terms.Plain (Terms.group ts) :=
  Terms.Every.group (fun _ _ _ _ _ _ _ _ _ => trivial) (fun _ _ _ _ => trivial) h

section Exact

variable [ExactScalar α]

theorem closed_text {bad : List Char} (hbad : bad ⊆ separators) (a : α) :
    Closed bad (Scalar.text a) :=
  Unstructured.closed (ExactScalar.text_plain a) hbad

/-- The name of a key over plain names is closed for every separator. -/
theorem Key.Plain.closed_canonical {k : Key α} (h : k.Plain) :
    Closed ['*', '+', '^'] k.canonical :=
  (Key.Every.written h).closed_canonical (fun _ hx => hx) fun v _ => closed_text (by decide) v

/-- A plus sign separates the texts of terms over plain names. -/
theorem Terms.Plain.closed_label {ts : List (Term α)} (h : Terms.Plain ts) {t : Term α}
    (ht : t ∈ ts) : Closed ['+'] t.label :=
  Term.closed_label (List.Subset.refl _) (closed_text (by decide) _)
    (fun _ _ => closed_text (by decide) _) fun _ hf => (h.key ht hf).closed_canonical

end Exact

end Fluxion
