import Fluxion.Proofs.Decimal.Floating
import Fluxion.Proofs.Term.Decompose

/-!
# Which terms are alike

Terms are merged when their signatures are equal as texts. Here it is said without texts which terms those
are: two keys match when they are one variable, or when their grouped terms correspond one to one with the
same coefficients and with factors that match in turn, and two terms are alike when their factors
correspond one to one with the same exponents and keys that match. Signatures agree exactly for terms that
are alike, provided that the variables and numbers in them are written without separators; a plus sign in
front of a number does no harm. For finite numbers written in decimal, equal texts mean equal numbers.
-/

namespace Fluxion

variable {α β γ : Type}

/-! ## One to one -/

/-- The members of two lists correspond to each other, each to one that it is related to. -/
def OneToOne (R : β → γ → Prop) (xs : List β) (ys : List γ) : Prop :=
  ∃ σ : Fin xs.length ≃ Fin ys.length, ∀ i, R (xs.get i) (ys.get (σ i))

namespace OneToOne

variable {R S : β → γ → Prop} {xs : List β} {ys : List γ}

theorem imp (h : ∀ x ∈ xs, ∀ y ∈ ys, R x y → S x y) : OneToOne R xs ys → OneToOne S xs ys :=
  fun ⟨σ, hσ⟩ => ⟨σ, fun i => h _ (List.get_mem ..) _ (List.get_mem ..) (hσ i)⟩

theorem congr (h : ∀ x ∈ xs, ∀ y ∈ ys, (R x y ↔ S x y)) : OneToOne R xs ys ↔ OneToOne S xs ys :=
  ⟨imp fun x hx y hy => (h x hx y hy).mp, imp fun x hx y hy => (h x hx y hy).mpr⟩

theorem map_iff {δ ζ : Type} {R : δ → ζ → Prop} {f : β → δ} {g : γ → ζ} :
    OneToOne R (xs.map f) (ys.map g) ↔ OneToOne (fun x y => R (f x) (g y)) xs ys := by
  have hx : (xs.map f).length = xs.length := List.length_map ..
  have hy : (ys.map g).length = ys.length := List.length_map ..
  constructor
  · rintro ⟨σ, hσ⟩
    refine ⟨(finCongr hx).symm.trans (σ.trans (finCongr hy)), fun i => ?_⟩
    simpa using hσ ((finCongr hx).symm i)
  · rintro ⟨σ, hσ⟩
    refine ⟨(finCongr hx).trans (σ.trans (finCongr hy).symm), fun i => ?_⟩
    simpa using hσ (finCongr hx i)

end OneToOne

/-- Lists that agree up to order correspond to each other by equality. -/
theorem perm_iff_oneToOne {ps qs : List String} : ps.Perm qs ↔ OneToOne (· = ·) ps qs := by
  constructor
  · intro h
    exact ⟨.ofBijective h.idxBij ⟨h.idxBij_injective, h.idxBij_surjective⟩,
      fun i => (h.getElem_idxBij_eq_getElem i).symm⟩
  · rintro ⟨σ, hσ⟩
    have hmembers (rs : List String) : (rs : Multiset String) = Finset.univ.val.map rs.get := by
      rw [Fin.univ_val_map, List.ofFn_get]
    refine Multiset.coe_eq_coe.mp ?_
    rw [hmembers ps, hmembers qs, ← Multiset.map_univ_val_equiv σ, Multiset.map_map]
    exact Multiset.map_congr rfl fun i _ => hσ i

theorem perm_map_iff_oneToOne {f : β → String} {g : γ → String} {xs : List β} {ys : List γ} :
    (xs.map f).Perm (ys.map g) ↔ OneToOne (fun x y => f x = g y) xs ys :=
  perm_iff_oneToOne.trans OneToOne.map_iff

/-! ## Keys and terms that match -/

section Matching

variable [Scalar α] {E : α → α → Prop}

/-- The two keys stand for the same base, where `E` says which numbers are the same: they are one variable,
or their grouped terms correspond one to one, with the same coefficients and with factors that again
correspond one to one, with the same exponents and with keys that match. -/
inductive Key.Matches (E : α → α → Prop) : Key α → Key α → Prop
  | atom (x : String) : Matches E (.atom x) (.atom x)
  | composite {ts us : List (Term α)}
      (σ : Fin (Terms.group ts).length ≃ Fin (Terms.group us).length)
      (hcoefficient : ∀ i,
        E ((Terms.group ts).get i).coefficient ((Terms.group us).get (σ i)).coefficient)
      (τ : ∀ i, Fin ((Terms.group ts).get i).factors.length ≃
        Fin ((Terms.group us).get (σ i)).factors.length)
      (hexponent : ∀ i j, E (((Terms.group ts).get i).factors.get j).exponent
        (((Terms.group us).get (σ i)).factors.get (τ i j)).exponent)
      (hkey : ∀ i j, Matches E (((Terms.group ts).get i).factors.get j).key
        (((Terms.group us).get (σ i)).factors.get (τ i j)).key) :
      Matches E (.composite ts) (.composite us)

/-- The two factors have the same exponent and keys that match. -/
def Factor.Matches (E : α → α → Prop) (f g : Factor α) : Prop :=
  E f.exponent g.exponent ∧ f.key.Matches E g.key

/-- The factors of the two terms correspond one to one. -/
def Term.Alike (E : α → α → Prop) (t u : Term α) : Prop :=
  OneToOne (Factor.Matches E) t.factors u.factors

theorem Key.matches_atom_iff {x y : String} :
    (Key.atom x : Key α).Matches E (.atom y) ↔ x = y := by
  constructor
  · rintro ⟨⟩
    rfl
  · rintro rfl
    exact .atom x

theorem Key.matches_composite_iff {ts us : List (Term α)} :
    (Key.composite ts).Matches E (.composite us) ↔
      OneToOne (fun t u => E t.coefficient u.coefficient ∧ t.Alike E u)
        (Terms.group ts) (Terms.group us) := by
  constructor
  · rintro (_ | ⟨σ, hcoefficient, τ, hexponent, hkey⟩)
    exact ⟨σ, fun i => ⟨hcoefficient i, τ i, fun j => ⟨hexponent i j, hkey i j⟩⟩⟩
  · rintro ⟨σ, h⟩
    choose hcoefficient τ hfactor using h
    exact .composite σ hcoefficient τ (fun i j => (hfactor i j).1) fun i j => (hfactor i j).2

end Matching

/-! ## Texts of numbers -/

/-- At least one character, none of which structures a signature, perhaps behind a plus sign. -/
def Legible (s : String) : Prop :=
  ∃ body, body ≠ "" ∧ Unstructured body ∧ (s = body ∨ s = "+" ++ body)

namespace Legible

variable {s : String}

theorem closed (h : Legible s) : Closed ['*'] s := by
  obtain ⟨body, -, hbody, rfl | rfl⟩ := h
  · exact hbody.closed (by decide)
  · exact Closed.append (Closed.of_forall (by simp)) (hbody.closed (by decide))

/-- The sign in front of a number is no separator, and nor is what follows the number a sign. -/
theorem summand (h : Legible s) : Summand '^' s := by
  obtain ⟨body, hne, hbody, hs⟩ := h
  have hlast (before : Char) : body.toList.getLastD before ≠ '^' := by
    have hlist : body.toList ≠ [] := fun hnil => hne (String.toList_inj.mp hnil)
    intro hc
    rw [List.getLastD_eq_getLast?, List.getLast?_eq_some_getLast hlist, Option.getD_some] at hc
    exact hbody _ (List.getLast_mem hlist) (by rw [hc]; decide)
  rcases hs with rfl | rfl
  · exact .of_closed (hbody.closed (by decide)) (hlast _)
  · have hlist : ("+" ++ body).toList = '+' :: body.toList := by simp
    refine ⟨?_, ?_⟩
    · rw [hlist, unsigned, if_pos ⟨rfl, rfl⟩]
      exact nesting_unsigned (hbody.closed (by decide)) _
    · rw [hlist, List.getLastD_cons]
      exact hlast _

/-- A name with an exponent. -/
theorem summand_power (h : Legible s) {name : String} (hname : Closed ['+'] name) :
    Summand '*' (name ++ "^" ++ s) := by
  have hlist : (name ++ "^" ++ s).toList = name.toList ++ '^' :: s.toList := by simp
  constructor
  · rw [hlist, unsigned_append_cons _ _ _ (by decide), nesting_append, nesting_unsigned hname]
    exact h.summand.closed
  · rw [hlist, getLastD_append_cons]
    exact h.summand.last

end Legible

/-! ## Names and signatures -/

section Names

variable [Scalar α] {A : String → Prop} {Q : α → Prop} {E : α → α → Prop}

/-- Every variable in the signature of a term satisfies `A` and every number in it satisfies `Q`. -/
def Term.Written (A : String → Prop) (Q : α → Prop) (t : Term α) : Prop :=
  ∀ f ∈ t.factors, Q f.exponent ∧ f.key.Written A Q

theorem Key.Written.term {ts : List (Term α)} (h : (Key.composite ts).Written A Q) {t : Term α}
    (ht : t ∈ Terms.group ts) : Q t.coefficient ∧ t.Written A Q := by
  cases h with
  | composite hcoefficient hexponent hkey =>
    exact ⟨hcoefficient t ht, fun f hf => ⟨hexponent t ht f hf, hkey t ht f hf⟩⟩

variable (hA : ∀ x, A x → Unstructured x) (hQ : ∀ v, Q v → Legible (Scalar.text v))

include hA hQ

theorem Key.Written.closed_of_legible {k : Key α} (h : k.Written A Q) :
    Closed ['*', '+', '^'] k.canonical :=
  h.closed_canonical hA fun v hv => (hQ v hv).closed

/-- A plus sign separates the texts of terms. -/
theorem Term.Written.summand_label {t : Term α} (h : t.Written A Q) (hc : Q t.coefficient) :
    Summand '^' t.label := by
  refine (hQ _ hc).summand.times ?_
  by_cases h0 : t.factors = []
  · rw [Term.signature_of_nil h0]
    exact .of_closed (Closed.of_forall (by simp)) (by decide)
  · rw [Term.signature_of_ne_nil h0]
    refine Summand.intercalate fun p hp => ?_
    obtain ⟨f, hf, rfl⟩ := List.mem_map.mp ((sortTexts_perm _).mem_iff.mp hp)
    obtain ⟨hexponent, hkey⟩ := h f hf
    exact (hQ _ hexponent).summand_power ((hkey.closed_of_legible hA hQ).mono (by simp))

/-- Signatures agree exactly for terms whose factors correspond one to one, by the names of their keys and
the texts of their exponents. -/
theorem Term.Written.signature_eq_iff_oneToOne {t u : Term α} (ht : t.Written A Q)
    (hu : u.Written A Q) :
    t.signature = u.signature ↔ OneToOne (fun f g => f.key.canonical = g.key.canonical ∧
      Scalar.text f.exponent = Scalar.text g.exponent) t.factors u.factors := by
  have hlabel {v : Term α} (hv : v.Written A Q) :
      ∀ f ∈ v.factors, Closed ['*'] (f.label Key.canonical) := fun f hf =>
    Factor.closed_label ((hv f hf).2.closed_of_legible hA hQ) (hQ _ (hv f hf).1).closed
  have hname {v : Term α} (hv : v.Written A Q) {f : Factor α} (hf : f ∈ v.factors) :
      Closed ['^'] f.key.canonical := ((hv f hf).2.closed_of_legible hA hQ).mono (by simp)
  rw [Term.signature_eq_iff (hlabel ht) (hlabel hu), perm_map_iff_oneToOne]
  exact OneToOne.congr fun f hf g hg => Factor.label_eq_iff (hname ht hf) (hname hu hg)

/-- Names of composite keys agree exactly if their grouped terms correspond one to one, by the texts of
their coefficients and their signatures. -/
theorem Key.Written.canonical_composite_iff_oneToOne {ts us : List (Term α)}
    (hts : (Key.composite ts).Written A Q) (hus : (Key.composite us).Written A Q) :
    (Key.composite ts).canonical = (Key.composite us).canonical ↔
      OneToOne (fun t u => Scalar.text t.coefficient = Scalar.text u.coefficient ∧
        t.signature = u.signature) (Terms.group ts) (Terms.group us) := by
  rw [Key.canonical_composite_eq_iff Summand.separated
    (fun t ht => (hts.term ht).2.summand_label hA hQ (hts.term ht).1)
    fun t ht => (hus.term ht).2.summand_label hA hQ (hus.term ht).1, perm_map_iff_oneToOne]
  exact OneToOne.congr fun t ht u hu =>
    Term.label_eq_iff (hQ _ (hts.term ht).1).closed (hQ _ (hus.term hu).1).closed

variable (hE : ∀ v w, Q v → Q w → (Scalar.text v = Scalar.text w ↔ E v w))

include hE

/-- Signatures agree exactly for terms that are alike, if names of keys agree exactly for keys that match. -/
theorem Term.Written.signature_eq_iff_of_keys {t u : Term α} (ht : t.Written A Q) (hu : u.Written A Q)
    (hkeys : ∀ f ∈ t.factors, ∀ g ∈ u.factors,
      (f.key.canonical = g.key.canonical ↔ f.key.Matches E g.key)) :
    t.signature = u.signature ↔ t.Alike E u := by
  rw [ht.signature_eq_iff_oneToOne hA hQ hu]
  refine OneToOne.congr fun f hf g hg => ?_
  rw [hkeys f hf g hg, hE _ _ (ht f hf).1 (hu g hg).1, and_comm]
  rfl

/-- Names agree exactly for keys that match. -/
theorem Key.Written.canonical_eq_iff {k k' : Key α} (hk : k.Written A Q) (hk' : k'.Written A Q) :
    k.canonical = k'.canonical ↔ k.Matches E k' := by
  -- along the nesting of grouped terms, not of the terms as they are given: grouping may change those
  induction hk generalizing k' with
  | atom hx =>
    cases hk' with
    | atom hy => exact Key.matches_atom_iff.symm
    | composite =>
      refine ⟨fun h => absurd h (Key.canonical_atom_ne_composite (hA _ hx) _), fun h => ?_⟩
      cases h
  | composite hcoefficient hexponent hkey ih =>
    cases hk' with
    | atom hy =>
      refine ⟨fun h => absurd h.symm (Key.canonical_atom_ne_composite (hA _ hy) _), fun h => ?_⟩
      cases h
    | composite hcoefficient' hexponent' hkey' =>
      have hts := Key.Written.composite hcoefficient hexponent hkey
      have hus := Key.Written.composite hcoefficient' hexponent' hkey'
      rw [hts.canonical_composite_iff_oneToOne hA hQ hus, Key.matches_composite_iff]
      refine OneToOne.congr fun t ht u hu => ?_
      rw [hE _ _ (hcoefficient t ht) (hcoefficient' u hu),
        (hts.term ht).2.signature_eq_iff_of_keys hA hQ hE (hus.term hu).2
          fun f hf g hg => ih t ht f hf (hkey' u hu g hg)]

/-- Signatures agree exactly for terms that are alike. -/
theorem Term.Written.signature_eq_iff {t u : Term α} (ht : t.Written A Q) (hu : u.Written A Q) :
    t.signature = u.signature ↔ t.Alike E u :=
  ht.signature_eq_iff_of_keys hA hQ hE hu fun f hf g hg =>
    (ht f hf).2.canonical_eq_iff hA hQ hE (hu g hg).2

end Names

/-! ## Finite numbers -/

/-- A plain numeral has none of the characters that structure a signature. -/
theorem Numeral.IsPlain.unstructured {s : String} (h : Numeral.IsPlain s) : Unstructured s := by
  obtain ⟨whole, fraction, -, hwhole, hfraction, hbytes⟩ := h
  intro c hc hsep
  have hascii : separators.all (fun c => decide (c.toNat < 128) && !isDigit c.val.toUInt8 &&
      c.val.toUInt8 != pointByte) = true := by decide
  have hchar := List.all_eq_true.mp hascii c hsep
  simp only [Bool.and_eq_true, decide_eq_true_iff, Bool.not_eq_true', bne_iff_ne] at hchar
  have hmem := Utf8.mem_bytes_of_mem hc hchar.1.1
  have hnot (b : UInt8) (hb : isDigit b = true) : c.val.toUInt8 ≠ b := by
    rintro rfl
    rw [hchar.1.2] at hb
    cases hb
  rcases hbytes with hbytes | hbytes
  · rw [hbytes] at hmem
    exact hnot _ (hwhole _ hmem) rfl
  · rw [hbytes, List.mem_append, List.mem_cons] at hmem
    rcases hmem with hmem | hmem | hmem
    · exact hnot _ (hwhole _ hmem) rfl
    · exact hchar.2 hmem
    · exact hnot _ (hfraction _ hmem) rfl

theorem Numeral.IsPlain.ne_empty {s : String} (h : Numeral.IsPlain s) : s ≠ "" := by
  obtain ⟨whole, fraction, hne, -, -, hbytes⟩ := h
  rintro rfl
  have hempty : Utf8.bytes "" = [] := by decide +kernel
  rw [hempty] at hbytes
  rcases hbytes with hbytes | hbytes
  · exact hne hbytes.symm
  · exact hne (List.append_eq_nil_iff.mp hbytes.symm).1

theorem NumeralScalar.legible [NumeralScalar α] {v : α} (h : Scalar.isFinite v = true) :
    Legible (Scalar.text v) := by
  obtain ⟨body, hbody, htext⟩ := NumeralScalar.text_numeral v h
  rcases htext with htext | htext
  · exact ⟨body, hbody.ne_empty, hbody.unstructured, Or.inl htext⟩
  · refine ⟨"-" ++ body, by simp, fun c hc => ?_, Or.inl htext⟩
    rw [String.toList_append] at hc
    rcases List.mem_append.mp hc with hc | hc
    · rw [List.mem_singleton.mp hc]
      decide
    · exact hbody.unstructured c hc

theorem unstructured_of_isIdentifier {x : String} (h : isIdentifier x = true) : Unstructured x := by
  rw [isIdentifier, Bool.and_eq_true] at h
  exact unstructured_of_letters h.2

/-- The variables in a name are identifiers, and the numbers in it are finite. -/
abbrev Key.Proper [Scalar α] (k : Key α) : Prop :=
  k.Written (isIdentifier · = true) (Scalar.isFinite · = true)

/-- The variables in a signature are identifiers, and the numbers in it are finite. -/
abbrev Term.Proper [Scalar α] (t : Term α) : Prop :=
  t.Written (isIdentifier · = true) (Scalar.isFinite · = true)

/-- Like terms, and no others, have the same signature. A term without factors shares its signature with no
other term, whatever its variables are called, and a key has the same name as exactly the keys that match
it. -/
theorem Term.signature_eq_iff_alike [NumeralScalar α] {t u : Term α} (ht : t.Proper) (hu : u.Proper) :
    (t.signature = u.signature ↔ t.Alike (fun v w => (v == w) = true) u) ∧
    (t.signature = "constant" ↔ t.factors = []) ∧
    ∀ k k' : Key α, k.Proper → k'.Proper →
      (k.same k' = true ↔ k.Matches (fun v w => (v == w) = true) k') := by
  refine ⟨?_, ?_, fun k k' hk hk' => ?_⟩
  · exact ht.signature_eq_iff (fun _ => unstructured_of_isIdentifier)
      (fun _ => NumeralScalar.legible) NumeralScalar.text_eq_iff hu
  · exact ⟨fun h => by_contra fun h0 => Term.signature_ne_constant h0 h, Term.signature_of_nil⟩
  · rw [Key.same, beq_iff_eq]
    exact hk.canonical_eq_iff (fun _ => unstructured_of_isIdentifier)
      (fun _ => NumeralScalar.legible) NumeralScalar.text_eq_iff hk'

/-- A composite key whose grouped terms have nothing but variables as keys. -/
theorem Key.proper_composite [Scalar α] {ts : List (Term α)}
    (h : ∀ t ∈ Terms.group ts, Scalar.isFinite t.coefficient = true ∧ ∀ f ∈ t.factors,
      Scalar.isFinite f.exponent = true ∧
        (match f.key with | .atom x => isIdentifier x | .composite _ => false) = true) :
    (Key.composite ts).Proper := by
  refine .composite (fun t ht => (h t ht).1) (fun t ht f hf => ((h t ht).2 f hf).1)
    fun t ht f hf => ?_
  have hatom := ((h t ht).2 f hf).2
  cases hk : f.key with
  | atom x =>
    rw [hk] at hatom
    exact .atom hatom
  | composite us =>
    rw [hk] at hatom
    cases hatom

/-- Neither the order of factors nor that of summands in a base matters, and a variable that is called
like the signature of a number is told from it. -/
theorem Term.signature_eq_iff_alike_constant :
    let sum : Key Float := .composite [⟨1, [⟨.atom "constant", 1⟩]⟩, ⟨1, []⟩]
    let sum' : Key Float := .composite [⟨1, []⟩, ⟨1, [⟨.atom "constant", 1⟩]⟩]
    let t : Term Float := ⟨3, [⟨.atom "constant", 2⟩, ⟨sum, -1⟩]⟩
    let u : Term Float := ⟨5, [⟨sum', -1⟩, ⟨.atom "constant", 2⟩]⟩
    (t.Proper ∧ u.Proper) ∧ sum.Matches (fun v w => (v == w) = true) sum' ∧
      t.signature = u.signature ∧ t.signature ≠ "constant" := by
  intro sum sum' t u
  have hatom : (Key.atom "constant" : Key Float).Proper := .atom (by decide +kernel)
  have hsum : sum.Proper := Key.proper_composite (by decide +kernel)
  have hsum' : sum'.Proper := Key.proper_composite (by decide +kernel)
  have hexponents : Scalar.isFinite (2 : Float) = true ∧ Scalar.isFinite (-1 : Float) = true := by
    decide +kernel
  have ht : t.Proper := by
    simpa [Term.Proper, Term.Written, t] using ⟨⟨hexponents.1, hatom⟩, hexponents.2, hsum⟩
  have hu : u.Proper := by
    simpa [Term.Proper, Term.Written, u] using ⟨⟨hexponents.2, hsum'⟩, hexponents.1, hatom⟩
  obtain ⟨halike, hconstant, hkeys⟩ := Term.signature_eq_iff_alike ht hu
  have hsame : sum.same sum' = true := by
    rw [Key.same, beq_iff_eq, Key.canonical_composite, Key.canonical_composite,
      Terms.nameWith_canonical, Terms.nameWith_canonical]
    congr 3
    exact sortTexts_eq_iff.mpr (by decide +kernel)
  have hmatches := (hkeys sum sum' hsum hsum').mp hsame
  refine ⟨⟨ht, hu⟩, hmatches, halike.mpr ⟨Equiv.swap 0 1, fun i => ?_⟩, ?_⟩
  · fin_cases i
    · exact ⟨by decide +kernel, .atom "constant"⟩
    · exact ⟨by decide +kernel, hmatches⟩
  · rw [Ne, hconstant]
    exact List.cons_ne_nil _ _

end Fluxion
