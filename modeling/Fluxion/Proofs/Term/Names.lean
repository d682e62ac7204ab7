import Fluxion.Proofs.Term.Decompose

/-!
# The names in terms

Taking a tree apart into terms, multiplying terms out and grouping them bring in no new variable: what
holds of the names in the tree holds of the names in the terms, at every depth of nesting.
-/

namespace Fluxion

variable {α : Type} {A : String → Prop}

/-- Every variable of the key has a name that satisfies `A`. -/
def Key.Named (A : String → Prop) (k : Key α) : Prop := k.Every A fun _ _ => True

/-- Every variable of the terms has a name that satisfies `A`. -/
def Terms.Named (A : String → Prop) (ts : List (Term α)) : Prop := Terms.Every A (fun _ _ => True) ts

theorem Terms.named_iff {ts : List (Term α)} :
    Terms.Named A ts ↔ ∀ t ∈ ts, ∀ g ∈ t.factors, g.key.Named A := by
  rw [Terms.Named, Terms.every_iff]
  refine forall₂_congr fun t _ => ?_
  rw [Factors.every_iff]
  exact forall₂_congr fun g _ => and_iff_left trivial

theorem Terms.Named.mono {B : String → Prop} (hAB : ∀ x, A x → B x) {ts : List (Term α)}
    (h : Terms.Named A ts) : Terms.Named B ts := by
  induction ts using Terms.nested_induction with
  | step ts ih =>
    rw [Terms.named_iff] at h ⊢
    intro t ht g hg
    have hkey := h t ht g hg
    cases hk : g.key with
    | atom x =>
      rw [hk] at hkey
      exact hAB x hkey
    | composite us =>
      rw [hk] at hkey
      exact ih t ht g hg us hk hkey

/-! ## Names of letters -/

/-- The text has ASCII letters only. -/
def LettersOnly (x : String) : Prop := (Utf8.bytes x).all isLetter = true

/-- Every variable of the key is a run of ASCII letters. -/
def Key.Lettered (k : Key α) : Prop := k.Every LettersOnly fun _ _ => True

/-- Every variable of the terms is a run of ASCII letters. -/
def Terms.Lettered (ts : List (Term α)) : Prop := Terms.Every LettersOnly (fun _ _ => True) ts

theorem Terms.lettered_iff {ts : List (Term α)} :
    Terms.Lettered ts ↔ ∀ t ∈ ts, ∀ g ∈ t.factors, g.key.Lettered := Terms.named_iff

theorem Terms.Lettered.plain {ts : List (Term α)} (h : Terms.Lettered ts) : Terms.Plain ts :=
  Terms.Named.mono (fun _ => unstructured_of_letters) h

variable [Scalar α]

/-! ## No new names -/

namespace Terms

theorem Named.group {ts : List (Term α)} (h : Terms.Named A ts) : Terms.Named A (Terms.group ts) :=
  Terms.Every.group (fun _ _ _ _ _ _ _ _ _ => trivial) (fun _ _ _ _ => trivial) h

theorem Lettered.group {ts : List (Term α)} (h : Terms.Lettered ts) :
    Terms.Lettered (Terms.group ts) := Terms.Named.group h

theorem Named.map_neg {ts : List (Term α)} (hts : Terms.Named A ts) :
    Terms.Named A (ts.map Term.neg) := by
  rw [named_iff] at hts ⊢
  exact List.forall_mem_map.mpr hts

theorem Named.mul {ts us : List (Term α)} (hts : Terms.Named A ts) (hus : Terms.Named A us) :
    Terms.Named A (Terms.mul ts us) := by
  rw [named_iff] at hts hus ⊢
  intro v hv g hg
  obtain ⟨t, ht, hv⟩ := List.mem_flatMap.mp hv
  obtain ⟨u, hu, rfl⟩ := List.mem_map.mp hv
  obtain ⟨a, ha, hga⟩ := Factors.key_of_mem_insertAll hg
  rw [hga]
  rcases List.mem_append.mp ha with ha | ha
  · exact hts t ht a ha
  · exact hus u hu a ha

theorem named_ofFactors {c : α} {g : Factor α} (hg : g.key.Named A) :
    Terms.Named A [Term.ofFactors c [g]] := by
  refine named_iff.mpr (List.forall_mem_singleton.mpr fun a ha => ?_)
  obtain ⟨b, hb, hab⟩ := Factors.key_of_mem_insertAll ha
  rw [hab, List.mem_singleton.mp hb]
  exact hg

theorem Named.endsIn_pow {ts : List (Term α)} (hts : Terms.Named A ts) (e : α) :
    EndsIn (fun _ => True) (Terms.Named A) (Terms.pow ts e) := by
  have hgroup := hts.group
  rw [Terms.pow]
  split
  · split
    · trivial
    · trivial
  · rename_i t hts
    rw [hts, named_iff, List.forall_mem_singleton] at hgroup
    rw [Term.pow]
    split
    · exact named_iff.mpr (List.forall_mem_singleton.mpr (List.forall_mem_map.mpr hgroup))
    · trivial
  · exact named_ofFactors hgroup

end Terms

theorem Expr.Named.endsIn_decompose {e : Expr α} (he : e.Named A) :
    EndsIn (fun _ => True) (Terms.Named A) e.decompose := by
  induction e with
  | num v => exact ⟨trivial, trivial⟩
  | var x => exact Terms.named_ofFactors (he x (List.mem_singleton_self x))
  | bin op l r ihl ihr =>
    obtain ⟨hl, hr⟩ := Expr.named_bin.mp he
    rw [decompose]
    refine (ihl hl).bind fun ts hts => ?_
    split
    · exact hts.endsIn_pow _
    · trivial
    · refine (ihr hr).bind fun us hus => ?_
      split
      · exact Terms.every_append.mpr ⟨hts, hus⟩
      · exact Terms.every_append.mpr ⟨hts, hus.map_neg⟩
      · exact hts.mul hus
      · trivial
  | pending t ih => trivial
  | hole => trivial

end Fluxion
