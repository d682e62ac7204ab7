import Fluxion.Proofs.Term.Naming

/-!
# How deep the recursion goes

The name of a composite key is written from its grouped terms, and grouping regroups composite keys and
compares keys and terms by name. Each function calls the other on lists that have only just been computed,
so no list is a part of another one. Here one round of that recursion is written out with the recursive
calls left to an `Oracle`, which may also refuse to answer; whoever meets a refusal has no result either.
It turns out which calls are made: a round succeeds although everything is refused that is not nested less
deeply. By induction on the depth the calls come to an end, and their stack is at most twice as high as the
terms are nested.
-/

namespace Fluxion

variable {α : Type}

theorem Term.depth_le_iff {t : Term α} {n : ℕ} :
    t.depth ≤ n ↔ ∀ f ∈ t.factors, f.key.depth ≤ n := by
  obtain ⟨c, fs⟩ := t
  exact Factors.depth_le_iff

theorem Terms.term_depth_le {ts : List (Term α)} {t : Term α} (h : t ∈ ts) :
    t.depth ≤ Terms.depth ts :=
  Term.depth_le_iff.mpr (Terms.depth_le_iff.mp le_rfl t h)

variable [Scalar α]

theorem Key.depth_regroup_group_le (k : Key α) : (k.regroup Terms.group).depth ≤ k.depth := by
  cases k with
  | atom x => exact Nat.zero_le _
  | composite ts => exact Nat.succ_le_succ (Terms.depth_group_le ts)

/-- Regrouping the keys of a term and merging its factors never nests keys more deeply. -/
theorem Term.depth_canonicalWith_le (t : Term α) :
    (t.canonicalWith Key.canonical Terms.group).depth ≤ t.depth := by
  refine Term.depth_le_iff.mpr fun g hg => ?_
  obtain ⟨f, hf, hgf⟩ := Term.key_of_mem_canonicalWith hg
  rw [hgf]
  exact (Key.depth_regroup_group_le f.key).trans (Term.depth_le_iff.mp (le_refl t.depth) f hf)

/-- Who answers the recursive calls. `none` is a refusal. -/
structure Oracle (α : Type) where
  /-- The name of the composite key with the given terms. -/
  name : List (Term α) → Option String
  /-- The given terms grouped. -/
  group : List (Term α) → Option (List (Term α))

namespace Oracle

/-! ## One round of the recursion -/

section Round

variable (O : Oracle α)

/-- The name of a key. -/
def label : Key α → Option String
  | .atom x => some x
  | .composite ts => O.name ts

/-- Two keys have the same name. -/
def same (a b : Key α) : Option Bool := do
  return (← O.label a) == (← O.label b)

/-- Multiply one factor into a list of factors. Names are compared until a key agrees. -/
def insert (f : Factor α) : List (Factor α) → Option (List (Factor α))
  | [] => some f.keep
  | g :: gs => do
    if ← O.same g.key f.key then
      return Factor.keep ⟨g.key, g.exponent + f.exponent⟩ ++ gs.flatMap Factor.keep
    else return g.keep ++ (← insert f gs)

/-- Regroup a composite key. -/
def regroup : Key α → Option (Key α)
  | .atom x => some (.atom x)
  | .composite ts => (O.group ts).map .composite

/-- Regroup the keys of a term and merge its factors, one factor after the other. -/
def canonical (t : Term α) : Option (Term α) := do
  let fs ← t.factors.foldlM (fun acc f => do O.insert ⟨← O.regroup f.key, f.exponent⟩ acc) []
  return ⟨t.coefficient, fs⟩

/-- The signature of a term. -/
def signature (t : Term α) : Option String :=
  if t.factors.isEmpty then some "constant"
  else do
    let labels ← t.factors.mapM fun f => do
      return (← O.label f.key) ++ "^" ++ Scalar.text f.exponent
    return String.intercalate "*" (sortTexts labels)

/-- Merge like terms and drop those that cancel. -/
def groupRound (ts : List (Term α)) : Option (List (Term α)) := do
  let merged ← ts.foldlM
    (fun acc t => do
      let u ← O.canonical t
      return Terms.insertSigned (← O.signature u) u acc)
    []
  return (merged.map (·.2)).filter fun t => !(t.coefficient == 0)

/-- Group the terms of a composite key and write the result down in sorted order. -/
def nameRound (ts : List (Term α)) : Option String := do
  let grouped ← O.group ts
  let parts ← grouped.mapM fun t => do
    return Scalar.text t.coefficient ++ "*" ++ (← O.signature t)
  return "(" ++ String.intercalate "+" (sortTexts parts) ++ ")"

end Round

/-- The recursion itself, with room for `height` calls inside each other. -/
def stack : (height : ℕ) → Oracle α
  | 0 => ⟨fun _ => none, fun _ => none⟩
  | n + 1 => ⟨(stack n).nameRound, (stack n).groupRound⟩

/-- Right answers, but only for keys whose terms are nested less than `names` deep and for lists that are
nested less than `lists` deep. -/
def below (names lists : ℕ) : Oracle α where
  name ts := if Terms.depth ts < names then some (Key.composite ts).canonical else none
  group ts := if Terms.depth ts < lists then some (Terms.group ts) else none

/-! ## What a round asks for -/

/-- Names are known as long as the terms are nested less than `d` deep. -/
def Names (d : ℕ) (O : Oracle α) : Prop :=
  ∀ ts, Terms.depth ts < d → O.name ts = some (Key.composite ts).canonical

/-- Lists are grouped as long as they are nested less than `d` deep. -/
def Groups (d : ℕ) (O : Oracle α) : Prop :=
  ∀ ts, Terms.depth ts < d → O.group ts = some (Terms.group ts)

theorem names_below (names lists : ℕ) : (below names lists : Oracle α).Names names :=
  fun _ h => if_pos h

theorem groups_below (names lists : ℕ) : (below names lists : Oracle α).Groups lists :=
  fun _ h => if_pos h

section Traversal

variable {β γ δ : Type}

theorem mapM_eq_some_map {f : β → Option γ} {g : β → γ} {l : List β} (h : ∀ a ∈ l, f a = some (g a)) :
    l.mapM f = some (l.map g) := by
  induction l with
  | nil => rfl
  | cons a l ih =>
    rw [List.mapM_cons, h a (List.mem_cons_self ..), ih fun b hb => h b (List.mem_cons_of_mem _ hb)]
    rfl

/-- A fold in which no step is refused, as long as `P` holds of what has been collected. -/
theorem foldlM_eq_some_foldl {f : γ → β → Option γ} {g : γ → β → γ} {P : γ → Prop} {l : List β}
    (h : ∀ c, P c → ∀ a ∈ l, f c a = some (g c a) ∧ P (g c a)) {c : γ} (hc : P c) :
    l.foldlM f c = some (l.foldl g c) := by
  induction l generalizing c with
  | nil => rfl
  | cons a l ih =>
    obtain ⟨hstep, hnext⟩ := h c hc a (List.mem_cons_self ..)
    rw [List.foldlM_cons, hstep]
    exact ih (fun c hc b hb => h c hc b (List.mem_cons_of_mem _ hb)) hnext

end Traversal

section Answered

variable {O : Oracle α} {d : ℕ}

theorem Names.label_eq (h : O.Names d) {k : Key α} (hk : k.depth ≤ d) :
    O.label k = some k.canonical := by
  cases k with
  | atom x => rfl
  | composite ts => exact h ts hk

theorem Groups.regroup_eq (h : O.Groups d) {k : Key α} (hk : k.depth ≤ d) :
    O.regroup k = some (k.regroup Terms.group) := by
  cases k with
  | atom x => rfl
  | composite ts =>
    rw [regroup, h ts hk]
    rfl

/-- Merging a factor asks for the names of its key and of the keys that it meets. -/
theorem Names.insert_eq (h : O.Names d) {f : Factor α} {fs : List (Factor α)} (hf : f.key.depth ≤ d)
    (hfs : ∀ g ∈ fs, g.key.depth ≤ d) :
    O.insert f fs = some (Factors.insert Key.canonical f fs) := by
  rw [Factors.insert]
  induction fs with
  | nil => rfl
  | cons g gs ih =>
    have hsame : O.same g.key f.key = some (g.key.canonical == f.key.canonical) := by
      rw [same, h.label_eq (hfs g (List.mem_cons_self ..)), h.label_eq hf]
      rfl
    rw [insert, hsame, ih fun a ha => hfs a (List.mem_cons_of_mem _ ha), Factors.insertNamed,
      Option.bind_eq_bind, Option.bind_some]
    split <;> rfl

/-- The factors that are merged have regrouped keys, and these are not nested more deeply. -/
theorem canonical_eq (hnames : O.Names d) (hgroups : O.Groups d) {t : Term α} (ht : t.depth ≤ d) :
    O.canonical t = some (t.canonicalWith Key.canonical Terms.group) := by
  have hkeys : ∀ f ∈ t.factors, f.key.depth ≤ d := Term.depth_le_iff.mp ht
  rw [canonical, Term.canonicalWith, Factors.insertAll, List.foldl_map,
    foldlM_eq_some_foldl (P := fun acc => ∀ g ∈ acc, g.key.depth ≤ d) ?_ (by simp)]
  · rfl
  · intro acc hacc f hf
    have hregroup := Key.depth_regroup_group_le f.key |>.trans (hkeys f hf)
    refine ⟨?_, fun g hg => ?_⟩
    · rw [hgroups.regroup_eq (hkeys f hf)]
      exact hnames.insert_eq hregroup hacc
    · obtain ⟨a, ha, hga⟩ := Factors.key_of_mem_insertNamed hg
      rw [hga]
      rcases List.mem_cons.mp ha with rfl | ha
      · exact hregroup
      · exact hacc a ha

theorem Names.signature_eq (h : O.Names d) {t : Term α} (ht : t.depth ≤ d) :
    O.signature t = some t.signature := by
  have hkeys : ∀ f ∈ t.factors, f.key.depth ≤ d := Term.depth_le_iff.mp ht
  rw [signature, Term.signature, Term.signatureWith,
    mapM_eq_some_map (g := Factor.label Key.canonical) fun f hf => by
      rw [h.label_eq (hkeys f hf)]
      rfl]
  split <;> rfl

/-- Grouping asks only about lists inside the keys of its terms, as they are or regrouped. -/
theorem groupRound_eq (hnames : O.Names d) (hgroups : O.Groups d) {ts : List (Term α)}
    (hts : Terms.depth ts ≤ d) : O.groupRound ts = some (Terms.group ts) := by
  rw [groupRound, Terms.group_eq, Terms.groupWith, Terms.mergeWith,
    foldlM_eq_some_foldl (P := fun _ => True) (fun acc _ t ht => ⟨?_, trivial⟩) trivial]
  · rfl
  · have hdepth : t.depth ≤ d := (Terms.term_depth_le ht).trans hts
    rw [canonical_eq hnames hgroups hdepth]
    show (O.signature _ >>= _) = _
    rw [hnames.signature_eq ((Term.depth_canonicalWith_le t).trans hdepth)]
    rfl

/-- Naming asks for the group of the terms themselves and for the names of the keys inside. -/
theorem nameRound_eq {ts : List (Term α)} (hnames : O.Names (Terms.depth ts))
    (hgroup : O.group ts = some (Terms.group ts)) :
    O.nameRound ts = some (Key.composite ts).canonical := by
  rw [nameRound, hgroup, Key.canonical_composite, Terms.nameWith]
  have hparts := mapM_eq_some_map (f := fun t : Term α => do
      return Scalar.text t.coefficient ++ "*" ++ (← O.signature t))
    (g := fun t => Scalar.text t.coefficient ++ "*" ++ t.signatureWith Key.canonical)
    (l := Terms.group ts) fun t ht => by
      rw [hnames.signature_eq ((Terms.term_depth_le ht).trans (Terms.depth_group_le ts))]
      rfl
  rw [Option.bind_eq_bind, Option.bind_some, hparts]
  rfl

end Answered

/-! ## The whole recursion -/

/-- Two calls inside each other are enough for each level of nesting. -/
theorem names_and_groups_stack (d : ℕ) {n : ℕ} (h : 2 * d ≤ n) :
    (stack n : Oracle α).Names d ∧ (stack n : Oracle α).Groups d := by
  induction d generalizing n with
  | zero => exact ⟨fun _ hts => absurd hts (Nat.not_lt_zero _), fun _ hts => absurd hts (Nat.not_lt_zero _)⟩
  | succ d ih =>
    obtain ⟨n, rfl⟩ : ∃ k, n = k + 2 := ⟨n - 2, by omega⟩
    have hgroup : ∀ m, 2 * d ≤ m → ∀ ts, Terms.depth ts < d + 1 →
        (stack (m + 1) : Oracle α).group ts = some (Terms.group ts) := fun m hm ts hts =>
      groupRound_eq (ih hm).1 (ih hm).2 (Nat.le_of_lt_succ hts)
    refine ⟨fun ts hts => nameRound_eq ?_ (hgroup n (by omega) ts hts), hgroup (n + 1) (by omega)⟩
    exact fun us hus => (ih (n := n + 1) (by omega)).1 us (by omega)

end Oracle

/-- The recursion of names and grouping comes to an end, for every list of terms: with a stack that is one
call higher than twice the nesting depth, nothing is refused any more. Neither grouping nor regrouping the
keys of a term nests anything more deeply. And the calls are made on lists that are nested strictly less
deeply: no round needs more than that answered, be it grouping a list, regrouping the keys of a term,
merging a factor, comparing terms, or naming a composite key, which groups its own terms and asks about
nothing else at their depth. -/
theorem Terms.recursion_ends (ts : List (Term α)) :
    (∀ n, (Oracle.stack (2 * Terms.depth ts + 1 + n)).group ts = some (Terms.group ts)) ∧
      Terms.depth (Terms.group ts) ≤ Terms.depth ts ∧
      (Oracle.below (Terms.depth ts) (Terms.depth ts)).groupRound ts = some (Terms.group ts) ∧
      (∀ t : Term α, (t.canonicalWith Key.canonical Terms.group).depth ≤ t.depth ∧
        (Oracle.below t.depth t.depth).canonical t =
          some (t.canonicalWith Key.canonical Terms.group) ∧
        (Oracle.below t.depth 0).signature t = some t.signature) ∧
      (∀ (f : Factor α) (fs : List (Factor α)), (Oracle.below (Factors.depth (f :: fs)) 0).insert f fs =
        some (Factors.insert Key.canonical f fs)) ∧
      (Oracle.below (Terms.depth ts) (Terms.depth ts + 1)).nameRound ts =
        some (Key.composite ts).canonical := by
  have hnames := fun n m => Oracle.names_below (α := α) n m
  have hgroups := fun n m => Oracle.groups_below (α := α) n m
  refine ⟨fun n => ?_, Terms.depth_group_le ts,
    Oracle.groupRound_eq (hnames _ _) (hgroups _ _) le_rfl, fun t => ⟨Term.depth_canonicalWith_le t,
      Oracle.canonical_eq (hnames _ _) (hgroups _ _) le_rfl, (hnames _ _).signature_eq le_rfl⟩,
    fun f fs => ?_, Oracle.nameRound_eq (hnames _ _) (hgroups _ _ ts (Nat.lt_succ_self _))⟩
  · obtain ⟨hn, hg⟩ := Oracle.names_and_groups_stack (α := α) (Terms.depth ts)
      (n := 2 * Terms.depth ts + n) (by omega)
    rw [show 2 * Terms.depth ts + 1 + n = 2 * Terms.depth ts + n + 1 by omega]
    exact Oracle.groupRound_eq hn hg le_rfl
  · have hkeys := Factors.depth_le_iff.mp (le_refl (Factors.depth (f :: fs)))
    exact (hnames _ _).insert_eq (hkeys f (List.mem_cons_self ..)) fun g hg =>
      hkeys g (List.mem_cons_of_mem _ hg)

end Fluxion
