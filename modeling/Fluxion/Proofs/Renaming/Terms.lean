import Fluxion.Proofs.Term.Grouped
import Fluxion.Proofs.Term.Matching
import Fluxion.Proofs.Term.Names

/-!
# Renamed terms

Names decide which factors and terms are merged, through texts that are sorted and compared, but they
decide nothing else. Under a renaming that keeps different variables apart, two keys have the same name
exactly if they had the same name before, and so the renamed terms are grouped as the terms were: the same
ones are merged, in the same order, with the same numbers.
-/

namespace Fluxion

/-- A renaming of variables: identifiers become identifiers, and different ones stay different. -/
structure Renaming where
  /-- The new name of an identifier; what is no identifier keeps its name. -/
  map : String → String
  isIdentifier_map {x : String} : isIdentifier x = true → isIdentifier (map x) = true
  map_injective {x y : String} : isIdentifier x = true → isIdentifier y = true → map x = map y → x = y

namespace Renaming

variable (σ : Renaming)

/-- The new name of a variable. -/
def apply (x : String) : String := if isIdentifier x then σ.map x else x

theorem apply_of_isIdentifier {x : String} (h : isIdentifier x = true) : σ.apply x = σ.map x := if_pos h

@[simp] theorem isIdentifier_apply (x : String) : isIdentifier (σ.apply x) = isIdentifier x := by
  cases h : isIdentifier x with
  | false => rw [apply, if_neg (by simp [h]), h]
  | true => rw [σ.apply_of_isIdentifier h, σ.isIdentifier_map h]

theorem apply_injective : Function.Injective σ.apply := by
  intro x y h
  have hclass : isIdentifier x = isIdentifier y := by
    rw [← σ.isIdentifier_apply x, h, σ.isIdentifier_apply]
  cases hy : isIdentifier y with
  | false =>
    rw [hy] at hclass
    rwa [apply, apply, if_neg (by simp [hclass]), if_neg (by simp [hy])] at h
  | true =>
    rw [hy] at hclass
    rw [σ.apply_of_isIdentifier hclass, σ.apply_of_isIdentifier hy] at h
    exact σ.map_injective hclass hy h

theorem lettersOnly_apply {x : String} (h : LettersOnly x) : LettersOnly (σ.apply x) := by
  cases hx : isIdentifier x with
  | false => rwa [apply, if_neg (by simp [hx])]
  | true =>
    rw [← σ.isIdentifier_apply, isIdentifier, Bool.and_eq_true] at hx
    exact hx.2

end Renaming

variable {α : Type}

/-! ## Terms -/

mutual

/-- Every variable of a key renamed by `f`. -/
def Key.rename (f : String → String) : Key α → Key α
  | .atom x => .atom (f x)
  | .composite ts => .composite (Terms.rename f ts)

/-- The same for factors. -/
def Factors.rename (f : String → String) : List (Factor α) → List (Factor α)
  | [] => []
  | ⟨k, e⟩ :: fs => ⟨k.rename f, e⟩ :: Factors.rename f fs

/-- The same for terms. -/
def Terms.rename (f : String → String) : List (Term α) → List (Term α)
  | [] => []
  | ⟨c, fs⟩ :: ts => ⟨c, Factors.rename f fs⟩ :: Terms.rename f ts

end

/-- The factor with its key renamed. -/
def Factor.rename (f : String → String) (g : Factor α) : Factor α := ⟨g.key.rename f, g.exponent⟩

/-- The term with its factors renamed. -/
def Term.rename (f : String → String) (t : Term α) : Term α :=
  ⟨t.coefficient, t.factors.map (Factor.rename f)⟩

variable {f : String → String}

theorem Factors.rename_eq_map (fs : List (Factor α)) :
    Factors.rename f fs = fs.map (Factor.rename f) := by
  induction fs with
  | nil => rfl
  | cons g fs ih =>
    obtain ⟨k, e⟩ := g
    rw [Factors.rename, ih]
    rfl

theorem Terms.rename_eq_map (ts : List (Term α)) : Terms.rename f ts = ts.map (Term.rename f) := by
  induction ts with
  | nil => rfl
  | cons t ts ih =>
    obtain ⟨c, fs⟩ := t
    rw [Terms.rename, Factors.rename_eq_map, ih]
    rfl

theorem Key.rename_composite (ts : List (Term α)) :
    (Key.composite ts).rename f = .composite (ts.map (Term.rename f)) := by
  rw [Key.rename, Terms.rename_eq_map]

/-! ## Names of letters -/

theorem Terms.Lettered.rename (σ : Renaming) {ts : List (Term α)} (h : Terms.Lettered ts) :
    Terms.Lettered (ts.map (Term.rename σ.apply)) := by
  induction ts using Terms.nested_induction with
  | step ts ih =>
    rw [Terms.lettered_iff] at h ⊢
    intro t ht g hg
    obtain ⟨u, hu, rfl⟩ := List.mem_map.mp ht
    obtain ⟨a, ha, rfl⟩ := List.mem_map.mp hg
    have hkey := h u hu a ha
    show (a.key.rename σ.apply).Lettered
    cases hk : a.key with
    | atom x =>
      rw [hk] at hkey
      exact σ.lettersOnly_apply hkey
    | composite us =>
      rw [hk] at hkey
      rw [Key.rename_composite]
      exact ih u hu a ha us hk hkey

theorem Key.Lettered.rename (σ : Renaming) {k : Key α} (h : k.Lettered) :
    (k.rename σ.apply).Lettered := by
  cases k with
  | atom x => exact σ.lettersOnly_apply h
  | composite us =>
    rw [Key.rename_composite]
    exact Terms.Lettered.rename σ h

/-- Scalars all of whose texts can be read inside a signature, also those of numbers that are not
finite. -/
class LegibleScalar (α : Type) extends Scalar α where
  legible (v : α) : Legible (Scalar.text v)

instance : LegibleScalar Float where
  legible x := by
    cases hx : x.isFinite with
    | true => exact NumeralScalar.legible hx
    | false =>
      have hspecial : Scalar.text x ∈ ["NaN", "-Inf", "+Inf"] := Floating.plain_of_not_isFinite hx
      simp only [List.mem_cons, List.not_mem_nil, or_false] at hspecial
      rcases hspecial with h | h | h <;> rw [h]
      · exact ⟨"NaN", by decide, by simp [Unstructured, separators], Or.inl rfl⟩
      · exact ⟨"-Inf", by decide, by simp [Unstructured, separators], Or.inl rfl⟩
      · exact ⟨"Inf", by decide, by simp [Unstructured, separators], Or.inr rfl⟩

section Scalar

variable [Scalar α]

/-! ## Merging factors -/

theorem Factor.keep_rename (g : Factor α) :
    (g.rename f).keep = g.keep.map (Factor.rename f) := by
  rw [Factor.keep, Factor.keep]
  show (if g.exponent == 0 then [] else [g.rename f]) = _
  split
  · rfl
  · rfl

theorem Factors.flatMap_keep_rename (fs : List (Factor α)) :
    (fs.map (Factor.rename f)).flatMap Factor.keep = (fs.flatMap Factor.keep).map (Factor.rename f) := by
  rw [List.flatMap_map, List.map_flatMap]
  exact List.flatMap_congr fun g _ => g.keep_rename

theorem Factors.insertNamed_rename {label label' : String} {g : Factor α} {fs : List (Factor α)}
    (h : ∀ a ∈ fs, ((a.key.rename f).canonical = label' ↔ a.key.canonical = label)) :
    Factors.insertNamed Key.canonical label' (g.rename f) (fs.map (Factor.rename f)) =
      (Factors.insertNamed Key.canonical label g fs).map (Factor.rename f) := by
  induction fs with
  | nil => exact g.keep_rename
  | cons a fs ih =>
    obtain ⟨ha, hfs⟩ := List.forall_mem_cons.mp h
    have hcond : ((a.rename f).key.canonical == label') = (a.key.canonical == label) := by
      rw [Bool.eq_iff_iff, beq_iff_eq, beq_iff_eq]
      exact ha
    rw [List.map_cons, Factors.insertNamed, Factors.insertNamed, hcond]
    split
    · rw [List.map_append, ← Factor.keep_rename, ← Factors.flatMap_keep_rename]
      rfl
    · rw [List.map_append, ← Factor.keep_rename, ih hfs]

variable {K : Key α → Prop} (hK : ∀ k k', K k → K k' →
  ((k.rename f).canonical = (k'.rename f).canonical ↔ k.canonical = k'.canonical))

include hK

theorem Factors.insertAll_rename {start fs : List (Factor α)} (hstart : ∀ a ∈ start, K a.key)
    (hfs : ∀ a ∈ fs, K a.key) :
    Factors.insertAll Key.canonical (start.map (Factor.rename f)) (fs.map (Factor.rename f)) =
      (Factors.insertAll Key.canonical start fs).map (Factor.rename f) := by
  induction fs generalizing start with
  | nil => rfl
  | cons g fs ih =>
    obtain ⟨hg, hfs⟩ := List.forall_mem_cons.mp hfs
    have hinsert : Factors.insert Key.canonical (g.rename f) (start.map (Factor.rename f)) =
        (Factors.insert Key.canonical g start).map (Factor.rename f) :=
      Factors.insertNamed_rename fun a ha => hK _ _ (hstart a ha) hg
    have hkeys : ∀ a ∈ Factors.insert Key.canonical g start, K a.key :=
      Factors.forall_insertNamed hg hstart fun a ha _ => hstart a ha
    show Factors.insertAll Key.canonical (Factors.insert Key.canonical (g.rename f)
      (start.map (Factor.rename f))) (fs.map (Factor.rename f)) = _
    rw [hinsert, ih hkeys hfs]
    rfl

end Scalar

/-! ## Merging terms -/

section Merging

variable [Scalar α]

variable {G : Term α → Prop} (hG : ∀ t u, G t → G u →
  ((t.rename f).signature = (u.rename f).signature ↔ t.signature = u.signature))

include hG

theorem Terms.insertLike_rename {t : Term α} (ht : G t) {us : List (Term α)} (hus : ∀ u ∈ us, G u) :
    Terms.insertLike (t.rename f) (us.map (Term.rename f)) =
      (Terms.insertLike t us).map (Term.rename f) := by
  induction us with
  | nil => rfl
  | cons u us ih =>
    obtain ⟨hu, hus⟩ := List.forall_mem_cons.mp hus
    have hcond : ((u.rename f).signature == (t.rename f).signature) =
        (u.signature == t.signature) := by
      rw [Bool.eq_iff_iff, beq_iff_eq, beq_iff_eq]
      exact hG u t hu ht
    rw [List.map_cons, Terms.insertLike, Terms.insertLike, hcond, ih hus]
    split
    · rfl
    · rfl

theorem Terms.merge_rename {ts us : List (Term α)}
    (hts : ∀ t ∈ ts, (t.rename f).regroup = t.regroup.rename f ∧ G t.regroup) (hus : ∀ u ∈ us, G u)
    (hadd : ∀ t u, G t → G u → G ⟨u.coefficient + t.coefficient, u.factors⟩) :
    Terms.merge (us.map (Term.rename f)) (ts.map (Term.rename f)) =
      (Terms.merge us ts).map (Term.rename f) := by
  have hinsert (t : Term α) (ht : G t) (us : List (Term α)) (hus : ∀ u ∈ us, G u) :
      ∀ u ∈ Terms.insertLike t us, G u := by
    induction us with
    | nil => exact List.forall_mem_singleton.mpr ht
    | cons u us ih =>
      obtain ⟨hu, hus⟩ := List.forall_mem_cons.mp hus
      rw [Terms.insertLike]
      split
      · exact List.forall_mem_cons.mpr ⟨hadd t u ht hu, hus⟩
      · exact List.forall_mem_cons.mpr ⟨hu, ih hus⟩
  induction ts generalizing us with
  | nil => rfl
  | cons t ts ih =>
    obtain ⟨⟨hregroup, ht⟩, hts⟩ := List.forall_mem_cons.mp hts
    show Terms.merge (Terms.insertLike (t.rename f).regroup (us.map (Term.rename f)))
      (ts.map (Term.rename f)) = _
    rw [hregroup, Terms.insertLike_rename hG ht hus, ih hts (hinsert _ ht us hus)]
    rfl

end Merging

/-! ## Level by level

Which names are equal decides what is merged, and what is merged decides the names one level further
out. So both are compared for all nesting depths at once, by induction on the depth.
-/

/-- Renaming changes no comparison between the names of keys that are nested at most `n` deep. -/
def NamesKept (α : Type) [Scalar α] (f : String → String) (n : ℕ) : Prop :=
  ∀ k k' : Key α, k.Lettered → k'.Lettered → k.depth ≤ n → k'.depth ≤ n →
    ((k.rename f).canonical = (k'.rename f).canonical ↔ k.canonical = k'.canonical)

/-- Renaming can be done before or after grouping, as long as the nesting is less than `n` deep. -/
def GroupsKept (α : Type) [Scalar α] (f : String → String) (n : ℕ) : Prop :=
  ∀ ts : List (Term α), Terms.Lettered ts → Terms.depth ts < n →
    Terms.group (ts.map (Term.rename f)) = (Terms.group ts).map (Term.rename f)

/-- The keys of the term have lettered names and are nested at most `n` deep. -/
def Term.Within (n : ℕ) (t : Term α) : Prop := ∀ g ∈ t.factors, g.key.Lettered ∧ g.key.depth ≤ n

theorem Terms.Lettered.within {ts : List (Term α)} (h : Terms.Lettered ts) {n : ℕ}
    (hn : Terms.depth ts ≤ n) {t : Term α} (ht : t ∈ ts) : t.Within n := fun g hg =>
  ⟨Terms.lettered_iff.mp h t ht g hg, Terms.depth_le_iff.mp hn t ht g hg⟩

section Levels

variable [LegibleScalar α]

theorem Key.Lettered.written {k : Key α} (h : k.Lettered) : k.Written LettersOnly fun _ => True :=
  Key.Every.written h

theorem Term.Within.written {n : ℕ} {t : Term α} (h : t.Within n) :
    t.Written LettersOnly fun _ => True := fun g hg => ⟨trivial, (h g hg).1.written⟩

theorem Term.Written.signature_iff_of_letters {t u : Term α} (ht : t.Written LettersOnly fun _ => True)
    (hu : u.Written LettersOnly fun _ => True) :
    t.signature = u.signature ↔ OneToOne (fun g h => g.key.canonical = h.key.canonical ∧
      Scalar.text g.exponent = Scalar.text h.exponent) t.factors u.factors :=
  ht.signature_eq_iff_oneToOne (fun _ => unstructured_of_letters) (fun v _ => LegibleScalar.legible v) hu

theorem Key.Lettered.canonical_composite_iff {ts us : List (Term α)} (hts : (Key.composite ts).Lettered)
    (hus : (Key.composite us).Lettered) :
    (Key.composite ts).canonical = (Key.composite us).canonical ↔
      OneToOne (fun t u => Scalar.text t.coefficient = Scalar.text u.coefficient ∧
        t.signature = u.signature) (Terms.group ts) (Terms.group us) :=
  hts.written.canonical_composite_iff_oneToOne (fun _ => unstructured_of_letters)
    (fun v _ => LegibleScalar.legible v) hus.written

theorem Key.Lettered.canonical_ne_composite {x : String} (hx : (Key.atom x : Key α).Lettered)
    (ts : List (Term α)) : (Key.atom x : Key α).canonical ≠ (Key.composite ts).canonical :=
  Key.canonical_atom_ne_composite (unstructured_of_letters hx) ts

theorem Key.regroup_rename {k : Key α} (hk : k.Lettered) (h : GroupsKept α f k.depth) :
    (k.rename f).regroup Terms.group = (k.regroup Terms.group).rename f := by
  cases k with
  | atom x => rfl
  | composite ts =>
    rw [Key.rename_composite, Key.regroup, Key.regroup, Key.rename_composite,
      h ts hk (Nat.lt_succ_self _)]

theorem Key.Lettered.regroup {k : Key α} (hk : k.Lettered) {n : ℕ} (hn : k.depth ≤ n) :
    (k.regroup Terms.group).Lettered ∧ (k.regroup Terms.group).depth ≤ n := by
  cases k with
  | atom x => exact ⟨hk, hn⟩
  | composite ts =>
    exact ⟨Terms.Lettered.group hk, le_trans (Nat.succ_le_succ (Terms.depth_group_le ts)) hn⟩

theorem Term.Within.regroup {n : ℕ} {t : Term α} (ht : t.Within n) : t.regroup.Within n := by
  intro g hg
  obtain ⟨a, ha, hga⟩ := Term.key_of_mem_canonicalWith hg
  rw [hga]
  exact (ht a ha).1.regroup (ht a ha).2

theorem Term.regroup_rename {n : ℕ} (hn : NamesKept α f n) (hgroup : GroupsKept α f n) {t : Term α}
    (ht : t.Within n) : (t.rename f).regroup = t.regroup.rename f := by
  have hkeys : (t.rename f).factors.map (fun g => (⟨g.key.regroup Terms.group, g.exponent⟩ : Factor α)) =
      (t.factors.map fun g => (⟨g.key.regroup Terms.group, g.exponent⟩ : Factor α)).map
        (Factor.rename f) := by
    rw [Term.rename, List.map_map, List.map_map]
    refine List.map_congr_left fun g hg => ?_
    have hkey := Key.regroup_rename (ht g hg).1 fun ts hts hd =>
      hgroup ts hts (hd.trans_le (ht g hg).2)
    exact congrArg (Factor.mk · g.exponent) hkey
  have hstart : ∀ a ∈ ([] : List (Factor α)), a.key.Lettered ∧ a.key.depth ≤ n := by simp
  have hregrouped : ∀ a ∈ t.factors.map fun g => (⟨g.key.regroup Terms.group, g.exponent⟩ : Factor α),
      a.key.Lettered ∧ a.key.depth ≤ n := by
    intro a ha
    obtain ⟨g, hg, rfl⟩ := List.mem_map.mp ha
    exact (ht g hg).1.regroup (ht g hg).2
  have hfactors := Factors.insertAll_rename (f := f)
    (K := fun k : Key α => k.Lettered ∧ k.depth ≤ n)
    (fun k k' hk hk' => hn k k' hk.1 hk'.1 hk.2 hk'.2) hstart hregrouped
  rw [Term.regroup, Term.canonicalWith, hkeys]
  exact congrArg (Term.mk t.coefficient) hfactors

variable (σ : Renaming)

theorem Term.Within.written_rename {n : ℕ} {t : Term α} (h : t.Within n) :
    (t.rename σ.apply).Written LettersOnly fun _ => True := by
  intro g hg
  obtain ⟨a, ha, rfl⟩ := List.mem_map.mp hg
  exact ⟨trivial, ((h a ha).1.rename σ).written⟩

theorem Term.signature_rename_iff {n : ℕ} (hn : NamesKept α σ.apply n) {t u : Term α} (ht : t.Within n)
    (hu : u.Within n) :
    (t.rename σ.apply).signature = (u.rename σ.apply).signature ↔ t.signature = u.signature := by
  rw [ht.written.signature_iff_of_letters hu.written,
    (ht.written_rename σ).signature_iff_of_letters (hu.written_rename σ)]
  refine OneToOne.map_iff.trans (OneToOne.congr fun g hg g' hg' => and_congr_left' ?_)
  exact hn _ _ (ht g hg).1 (hu g' hg').1 (ht g hg).2 (hu g' hg').2

/-- Names are kept one level further out than grouping is. -/
theorem namesKept_of_lt {n : ℕ} (hnames : ∀ m < n, NamesKept α σ.apply m)
    (hgroup : GroupsKept α σ.apply n) : NamesKept α σ.apply n := by
  intro k k' hk hk' hd hd'
  have hkr := hk.rename σ
  have hkr' := hk'.rename σ
  cases k with
  | atom x =>
    cases k' with
    | atom y => exact σ.apply_injective.eq_iff
    | composite us =>
      rw [Key.rename_composite]
      exact iff_of_false (hkr.canonical_ne_composite _) (hk.canonical_ne_composite us)
  | composite ts =>
    cases k' with
    | atom y =>
      rw [Key.rename_composite]
      exact iff_of_false (hkr'.canonical_ne_composite _).symm (hk'.canonical_ne_composite ts).symm
    | composite us =>
      -- grouped terms correspond after the renaming as they did before, since their keys are less deep
      rw [Key.depth_composite] at hd hd'
      rw [Key.rename_composite] at hkr hkr' ⊢
      rw [Key.rename_composite, hk.canonical_composite_iff hk', hkr.canonical_composite_iff hkr',
        hgroup ts hk (by omega), hgroup us hk' (by omega)]
      refine OneToOne.map_iff.trans (OneToOne.congr fun t ht u hu => and_congr_right' ?_)
      have hts : Terms.Lettered (Terms.group ts) := Terms.Lettered.group hk
      have hus : Terms.Lettered (Terms.group us) := Terms.Lettered.group hk'
      have hlt : max (Terms.depth ts) (Terms.depth us) < n := by omega
      exact Term.signature_rename_iff σ (hnames _ hlt)
        (hts.within ((Terms.depth_group_le ts).trans (le_max_left _ _)) ht)
        (hus.within ((Terms.depth_group_le us).trans (le_max_right _ _)) hu)

/-- Grouping is kept at every level at which names are. -/
theorem groupsKept_succ {n : ℕ} (hn : NamesKept α σ.apply n) (hgroup : GroupsKept α σ.apply n) :
    GroupsKept α σ.apply (n + 1) := by
  intro ts hts hd
  have hwithin {t : Term α} (ht : t ∈ ts) : t.Within n := hts.within (Nat.le_of_lt_succ hd) ht
  have hstart : ∀ u ∈ ([] : List (Term α)), u.Within n := by simp
  have hmerge := Terms.merge_rename (f := σ.apply) (G := Term.Within n)
    (fun t u ht hu => Term.signature_rename_iff σ hn ht hu)
    (fun t (ht : t ∈ ts) => ⟨Term.regroup_rename hn hgroup (hwithin ht), (hwithin ht).regroup⟩)
    hstart fun _ _ _ hu => hu
  rw [List.map_nil] at hmerge
  rw [Terms.group_eq_merge, Terms.group_eq_merge, hmerge, List.filter_map]
  rfl

theorem namesKept_and_groupsKept (n : ℕ) : NamesKept α σ.apply n ∧ GroupsKept α σ.apply (n + 1) := by
  -- names at depth `n` are compared through groups below it, and groups through names at their own depth
  induction n using Nat.strong_induction_on with
  | _ n ih =>
    have hgroup : GroupsKept α σ.apply n := fun ts hts hd => (ih _ hd).2 ts hts (Nat.lt_succ_self _)
    have hnames := namesKept_of_lt σ (fun m hm => (ih m hm).1) hgroup
    exact ⟨hnames, groupsKept_succ σ hnames hgroup⟩

/-- Renaming changes no comparison between keys. -/
theorem Key.canonical_rename_iff {k k' : Key α} (hk : k.Lettered) (hk' : k'.Lettered) :
    (k.rename σ.apply).canonical = (k'.rename σ.apply).canonical ↔ k.canonical = k'.canonical :=
  (namesKept_and_groupsKept σ (max k.depth k'.depth)).1 k k' hk hk' (le_max_left _ _)
    (le_max_right _ _)

/-- The renamed terms are grouped as the terms are, in the same order. -/
theorem Terms.group_rename {ts : List (Term α)} (hts : Terms.Lettered ts) :
    Terms.group (ts.map (Term.rename σ.apply)) = (Terms.group ts).map (Term.rename σ.apply) :=
  (namesKept_and_groupsKept σ (Terms.depth ts)).2 ts hts (Nat.lt_succ_self _)

end Levels

end Fluxion
