import Fluxion.Scalar.Float
import Fluxion.Proofs.Term.Rearranged

/-!
# Terms that are built from others

Multiplying factors into a term merges those with the same name and drops the exponents that cancel. Raising
a term to a power scales its exponents and neither merges nor drops anything. So no name ever occurs twice in
a term, and an exponent is zero exactly when a power has made it zero and no factor was multiplied in
afterwards.
-/

namespace Fluxion

variable {α : Type} [Scalar α]

namespace Term

/-- No two factors of the term have keys with the same name. -/
def Distinct (t : Term α) : Prop := (t.factors.map fun f => f.key.canonical).Nodup

/-- No exponent of the term becomes zero when it is multiplied by `e`. -/
def KeepsFactors (t : Term α) (e : α) : Prop := ∀ f ∈ t.factors, (f.exponent * e == 0) = false

/-- Terms that are put together from factors by products, opposites and powers; `Allowed` says to which
exponents a term may be raised. -/
inductive Built (Allowed : Term α → α → Prop) : Term α → Prop
  | ofFactors (c : α) (fs : List (Factor α)) : Built Allowed (.ofFactors c fs)
  | mul {t u : Term α} (ht : Built Allowed t) (hu : Built Allowed u) : Built Allowed (t.mul u)
  | neg {t : Term α} (ht : Built Allowed t) : Built Allowed t.neg
  | pow {t u : Term α} {e : α} (ht : Built Allowed t) (he : Allowed t e) (h : t.pow e = .ok u) :
      Built Allowed u

/-! ## One operation at a time -/

theorem factors_of_pow {t u : Term α} {e : α} (h : t.pow e = .ok u) :
    u.factors = t.factors.map fun f => ⟨f.key, f.exponent * e⟩ := by
  rw [eq_of_pow h]

theorem tidy_iff {t : Term α} :
    t.Tidy ↔ t.Distinct ∧ ∀ f ∈ t.factors, (f.exponent == 0) = false :=
  ⟨fun h => ⟨h.names, h.exponents⟩, fun h => ⟨h.1, h.2⟩⟩

theorem tidy_ofFactors (c : α) (fs : List (Factor α)) : (ofFactors c fs).Tidy where
  names := Factors.nodup_insertAll List.nodup_nil
  exponents := Factors.exponent_of_mem_insertAll fun _ hg => absurd hg List.not_mem_nil

theorem Distinct.mul {t : Term α} (h : t.Distinct) (u : Term α) : (t.mul u).Distinct :=
  Factors.nodup_insertAll h

theorem Tidy.mul {t : Term α} (h : t.Tidy) (u : Term α) : (t.mul u).Tidy where
  names := Factors.nodup_insertAll h.names
  exponents := Factors.exponent_of_mem_insertAll h.exponents

theorem Tidy.neg {t : Term α} (h : t.Tidy) : t.neg.Tidy := ⟨h.names, h.exponents⟩

theorem Distinct.pow {t u : Term α} {e : α} (ht : t.Distinct) (h : t.pow e = .ok u) : u.Distinct := by
  unfold Distinct
  rw [factors_of_pow h, List.map_map]
  exact ht

/-- A power is tidy exactly if it does not make an exponent zero. -/
theorem Distinct.tidy_pow_iff {t u : Term α} {e : α} (ht : t.Distinct) (h : t.pow e = .ok u) :
    u.Tidy ↔ t.KeepsFactors e := by
  rw [tidy_iff, and_iff_right (ht.pow h), factors_of_pow h]
  exact List.forall_mem_map

/-- The first factor that is multiplied in drops all exponents that are zero, so a product is tidy unless
only the coefficient changes. -/
theorem Distinct.tidy_mul_iff {t u : Term α} (ht : t.Distinct) :
    (t.mul u).Tidy ↔ t.Tidy ∨ u.factors ≠ [] := by
  rw [tidy_iff, tidy_iff, and_iff_right (ht.mul u), and_iff_right ht]
  unfold Term.mul
  cases u.factors with
  | nil =>
    rw [or_iff_left (not_not.mpr rfl)]
    rfl
  | cons f fs =>
    have hproduct : ∀ g ∈ Factors.insertAll Key.canonical (Factors.insert Key.canonical f t.factors) fs,
        (g.exponent == 0) = false :=
      Factors.exponent_of_mem_insertAll fun g hg => Factors.exponent_of_mem_insertNamed hg
    exact iff_of_true hproduct (Or.inr (List.cons_ne_nil f fs))

/-! ## All operations -/

variable {Allowed : Term α → α → Prop}

theorem Built.distinct {t : Term α} (h : t.Built Allowed) : t.Distinct := by
  induction h with
  | ofFactors c fs => exact (tidy_ofFactors c fs).names
  | mul _ _ ih _ => exact ih.mul _
  | neg _ ih => exact ih
  | pow _ _ h ih => exact ih.pow h

theorem Built.tidy (hAllowed : ∀ (t : Term α) e, t.Tidy → Allowed t e → t.KeepsFactors e) {t : Term α}
    (h : t.Built Allowed) : t.Tidy := by
  induction h with
  | ofFactors c fs => exact tidy_ofFactors c fs
  | mul _ _ ih _ => exact ih.mul _
  | neg _ ih => exact ih.neg
  | pow _ he h ih => exact (Distinct.tidy_pow_iff ih.names h).mpr (hAllowed _ _ ih he)

/-- Without divisors of zero only the exponent zero makes an exponent zero. -/
theorem Tidy.keepsFactors
    (hzero : ∀ a b : α, (a * b == 0) = true → (a == 0) = true ∨ (b == 0) = true) {t : Term α}
    (h : t.Tidy) {e : α} (he : (e == 0) = false) : t.KeepsFactors e := by
  intro f hf
  refine Bool.eq_false_iff.mpr fun hprod => ?_
  rcases hzero _ _ hprod with hf0 | he0
  · rw [h.exponents f hf] at hf0
    cases hf0
  · rw [he] at he0
    cases he0

end Term

/-! ## Decomposition -/

theorem Terms.tidy_of_group_eq {ts : List (Term α)} {t : Term α} (h : Terms.group ts = [t]) : t.Tidy := by
  have hmem : t ∈ Terms.group ts := by
    rw [h]
    exact List.mem_singleton_self t
  have hreduced := Terms.reduced_of_mem_group hmem
  exact ⟨hreduced.names, hreduced.exponents⟩

/-- The terms of a power have distinct keys. They are tidy exactly if the exponents of an only group stay
other than zero. -/
theorem Terms.distinct_and_tidy_pow_iff {ts us : List (Term α)} {e : α} (h : Terms.pow ts e = .ok us) :
    (∀ u ∈ us, u.Distinct) ∧
      ((∀ u ∈ us, u.Tidy) ↔ ∀ t, Terms.group ts = [t] → t.KeepsFactors e) := by
  unfold Terms.pow at h
  split at h
  · rename_i hnil
    split at h
    · cases h
      simp [hnil]
    · cases h
  · rename_i t hone
    obtain ⟨u, hu, rfl⟩ := map_eq_ok.mp h
    have ht : t.Distinct := (Terms.tidy_of_group_eq hone).names
    simp only [List.forall_mem_singleton, hone, List.cons.injEq, and_true, forall_eq']
    exact ⟨ht.pow hu, ht.tidy_pow_iff hu⟩
  · rename_i hmany
    cases h
    have hu := Term.tidy_ofFactors 1 [⟨.composite (Terms.group ts), e⟩]
    exact ⟨List.forall_mem_singleton.mpr hu.names,
      iff_of_true (List.forall_mem_singleton.mpr hu) fun t ht => absurd ht (hmany t)⟩

namespace Expr

/-- What holds of all terms that are put together from factors, of opposites and products, and of the terms
of every power in the tree, holds of the terms of the tree. -/
theorem forall_of_decompose {P : Term α → Prop} (hfactors : ∀ c fs, P (.ofFactors c fs))
    (hneg : ∀ t : Term α, P t → P t.neg) (hmul : ∀ t u : Term α, P t → P (t.mul u)) {n : Expr α}
    (hpow : n.EveryNode fun op l r => op = .pow → ∀ k ls ts, r = num k → l.decompose = .ok ls →
      Terms.pow ls k = .ok ts → ∀ t ∈ ts, P t)
    {ts : List (Term α)} (h : n.decompose = .ok ts) : ∀ t ∈ ts, P t := by
  induction n generalizing ts with
  | num v =>
    cases h
    exact List.forall_mem_singleton.mpr (hfactors v [])
  | var x =>
    cases h
    exact List.forall_mem_singleton.mpr (hfactors 1 _)
  | bin op l r ihl ihr =>
    obtain ⟨hnode, hl, hr⟩ := hpow
    obtain ⟨us, hus, ⟨rfl, k, rfl, hts⟩ | ⟨vs, hvs, hop⟩⟩ := decompose_bin h
    · exact hnode rfl k us ts rfl hus hts
    · have hPus := ihl hl hus
      have hPvs := ihr hr hvs
      rcases hop with ⟨-, rfl⟩ | ⟨-, rfl⟩ | ⟨-, rfl⟩
      · exact List.forall_mem_append.mpr ⟨hPus, hPvs⟩
      · exact List.forall_mem_append.mpr
          ⟨hPus, List.forall_mem_map.mpr fun v hv => hneg v (hPvs v hv)⟩
      · intro w hw
        obtain ⟨t, ht, hw⟩ := List.mem_flatMap.mp hw
        obtain ⟨u, -, rfl⟩ := List.mem_map.mp hw
        exact hmul t u (hPus t ht)
  | pending t ih => cases h
  | hole => cases h

/-- Where a base groups to a single term, the exponent makes no exponent of that term zero. -/
def PowersKeepFactors (n : Expr α) : Prop :=
  n.EveryNode fun op l r => op = .pow → ∀ k ls t, r = num k → l.decompose = .ok ls →
    Terms.group ls = [t] → t.KeepsFactors k

/-- No exponent is the literal zero. -/
def NoZeroPower (n : Expr α) : Prop :=
  n.EveryNode fun op _ r => op = .pow → ∀ k, r = num k → (k == 0) = false

theorem distinct_of_decompose {n : Expr α} {ts : List (Term α)} (h : n.decompose = .ok ts) :
    ∀ t ∈ ts, t.Distinct := by
  refine forall_of_decompose (fun c fs => (Term.tidy_ofFactors c fs).names) (fun _ ht => ht)
    (fun _ u ht => ht.mul u) ?_ h
  exact everyNode_of_forall (fun _ _ _ _ _ _ _ _ _ hts => (Terms.distinct_and_tidy_pow_iff hts).1) n

theorem PowersKeepFactors.tidy {n : Expr α} (hn : n.PowersKeepFactors) {ts : List (Term α)}
    (h : n.decompose = .ok ts) : ∀ t ∈ ts, t.Tidy := by
  refine forall_of_decompose Term.tidy_ofFactors (fun _ ht => ht.neg) (fun _ u ht => ht.mul u) ?_ h
  refine EveryNode.imp (fun op l r hnode hop k ls ts hr hls hts => ?_) hn
  exact (Terms.distinct_and_tidy_pow_iff hts).2.mpr fun t => hnode hop k ls t hr hls

theorem NoZeroPower.powersKeepFactors
    (hzero : ∀ a b : α, (a * b == 0) = true → (a == 0) = true ∨ (b == 0) = true) {n : Expr α}
    (hn : n.NoZeroPower) : n.PowersKeepFactors := by
  refine EveryNode.imp (fun op l r hnode hop k ls t hr hls ht => ?_) hn
  exact (Terms.tidy_of_group_eq ht).keepsFactors hzero (hnode hop k hr)

end Expr

/-! ## What holds of every term -/

/-- No two factors of a term that is built, or that a tree decomposes into, have keys with the same name.
Exponents of zero are dropped by every product with a factor and come from powers only: from those that make
an exponent zero, which without divisors of zero are the powers with exponent zero. -/
theorem Term.distinct_and_tidy_unless_powers_vanish :
    (∀ (Allowed : Term α → α → Prop) (t : Term α), t.Built Allowed → t.Distinct ∧
      ((∀ (u : Term α) e, u.Tidy → Allowed u e → u.KeepsFactors e) → t.Tidy) ∧
      (∀ e u, t.pow e = .ok u → (u.Tidy ↔ t.KeepsFactors e)) ∧
      ∀ u : Term α, (t.mul u).Tidy ↔ t.Tidy ∨ u.factors ≠ []) ∧
    (∀ (n : Expr α) ts, n.decompose = .ok ts →
      (∀ t ∈ ts, t.Distinct) ∧ (n.PowersKeepFactors → ∀ t ∈ ts, t.Tidy)) ∧
    (∀ (l : Expr α) k ls ts, l.decompose = .ok ls → (Expr.pow l k).decompose = .ok ts →
      ((∀ t ∈ ts, t.Tidy) ↔ ∀ t, Terms.group ls = [t] → t.KeepsFactors k)) ∧
    ((∀ a b : α, (a * b == 0) = true → (a == 0) = true ∨ (b == 0) = true) →
      (∀ t : Term α, t.Built (fun _ e => (e == 0) = false) → t.Tidy) ∧
      ∀ (n : Expr α) ts, n.NoZeroPower → n.decompose = .ok ts → ∀ t ∈ ts, t.Tidy) := by
  refine ⟨fun Allowed t ht => ?_, fun n ts h => ?_, fun l k ls ts hl h => ?_, fun hzero => ?_⟩
  · exact ⟨ht.distinct, fun hAllowed => ht.tidy hAllowed, fun _ _ => ht.distinct.tidy_pow_iff,
      fun _ => ht.distinct.tidy_mul_iff⟩
  · exact ⟨Expr.distinct_of_decompose h, fun hn => hn.tidy h⟩
  · obtain ⟨us, hus, ⟨-, e, he, hts⟩ | ⟨vs, -, hop⟩⟩ := Expr.decompose_bin h
    · obtain rfl := Except.ok.inj (hl.symm.trans hus)
      cases he
      exact (Terms.distinct_and_tidy_pow_iff hts).2
    · simp at hop
  · exact ⟨fun t ht => ht.tidy fun _ _ hu he => hu.keepsFactors hzero he,
      fun n ts hn h => (hn.powersKeepFactors hzero).tidy h⟩

section Rational

open scoped Rational

/-- The power zero of a term keeps its factors, with exponent zero, and so does the power zero of a tree. A
floating point exponent may vanish without being raised to zero. -/
theorem Term.zero_power_not_tidy :
    (∃ t : Term ℚ, t.Built (fun _ _ => True) ∧ ¬t.Tidy) ∧
    (∃ ts, (Expr.pow (.var "x") 0 : Expr ℚ).decompose = .ok ts ∧ ¬∀ t ∈ ts, t.Tidy) ∧
    ∃ (t : Term Float) (e : Float), t.Tidy ∧ (e == 0) = false ∧
      ∀ u, t.pow e = .ok u → ¬u.Tidy := by
  refine ⟨?_, exists_ok_and_not (by decide +kernel), ?_⟩
  · obtain ⟨u, hu, htidy⟩ := exists_ok_and_not (P := Term.Tidy)
      (x := (Term.ofFactors 2 [⟨.atom "x", 1⟩] : Term ℚ).pow 0) (by decide +kernel)
    exact ⟨u, .pow (.ofFactors 2 _) trivial hu, htidy⟩
  · have ht : (⟨1, [⟨.atom "x", 1e-200⟩]⟩ : Term Float).Tidy := by decide +kernel
    have hvanish : ((1e-200 : Float) * 1e-200 == 0) = true := by decide +kernel
    refine ⟨_, 1e-200, ht, by decide +kernel, fun u hu htidy => ?_⟩
    have hkeeps := (Term.Distinct.tidy_pow_iff ht.names hu).mp htidy _ (List.mem_singleton_self _)
    exact Bool.eq_false_iff.mp hkeeps hvanish

end Rational

end Fluxion
