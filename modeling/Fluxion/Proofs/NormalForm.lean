import Fluxion.Proofs.Term.Recompose
import Fluxion.Proofs.Term.Reduced

/-!
# Canonical terms of polynomials

A tree without quotients whose exponents are small natural numbers denotes a polynomial. Its canonical
terms have variables for keys and positive natural exponents, so each of them is a monomial, two of them
are different monomials, and none of them is zero: they are the polynomial, written out. Two such trees
denote the same polynomial exactly when they have the same canonical terms up to order.
-/

namespace Fluxion

open ExactScalar MvPolynomial

/-! ## Sums that determine their summands -/

section Coefficients

variable {ι A M : Type} [DecidableEq ι] [AddCommMonoid A] [AddCommMonoid M] {single : ι → M → A}
  {coefficient : ι → A →+ M} (h : ∀ i j m, coefficient i (single j m) = if j = i then m else 0)

include h

theorem coefficient_sum_of_notMem {l : List (ι × M)} {i : ι} (hi : i ∉ l.map Prod.fst) :
    coefficient i (l.map fun p => single p.1 p.2).sum = 0 := by
  induction l with
  | nil => simp
  | cons p l ih =>
    rw [List.map_cons, List.mem_cons, not_or] at hi
    have hp : p.1 ≠ i := fun hpi => hi.1 hpi.symm
    rw [List.map_cons, List.sum_cons, map_add, h, if_neg hp, zero_add]
    exact ih hi.2

theorem coefficient_sum_of_mem {l : List (ι × M)} (hl : (l.map Prod.fst).Nodup) {i : ι} {m : M}
    (hi : (i, m) ∈ l) : coefficient i (l.map fun p => single p.1 p.2).sum = m := by
  induction l with
  | nil => cases hi
  | cons p l ih =>
    obtain ⟨hnotin, htail⟩ := List.nodup_cons.mp hl
    rw [List.map_cons, List.sum_cons, map_add, h]
    rcases List.mem_cons.mp hi with rfl | hi
    · rw [if_pos rfl, coefficient_sum_of_notMem h hnotin, add_zero]
    · have hp : p.1 ≠ i := by
        intro hpi
        rw [hpi] at hnotin
        exact hnotin (List.mem_map_of_mem hi)
      rw [if_neg hp, zero_add]
      exact ih htail hi

/-- Summands at distinct places, none of them zero, can be read off their sum. -/
theorem perm_of_sum_eq {l l' : List (ι × M)} (hl : (l.map Prod.fst).Nodup)
    (hl' : (l'.map Prod.fst).Nodup) (hne : ∀ p ∈ l, p.2 ≠ 0) (hne' : ∀ p ∈ l', p.2 ≠ 0)
    (hsum : (l.map fun p => single p.1 p.2).sum = (l'.map fun p => single p.1 p.2).sum) :
    l.Perm l' := by
  have hsub : ∀ k k' : List (ι × M), (k.map Prod.fst).Nodup → (k'.map Prod.fst).Nodup →
      (∀ p ∈ k, p.2 ≠ 0) →
      (k.map fun p => single p.1 p.2).sum = (k'.map fun p => single p.1 p.2).sum →
      ∀ p ∈ k, p ∈ k' := by
    intro k k' hk hk' hnz hs p hp
    have hcoeff := coefficient_sum_of_mem h hk hp
    rw [hs] at hcoeff
    by_cases hmem : p.1 ∈ k'.map Prod.fst
    · obtain ⟨q, hq, hqp⟩ := List.mem_map.mp hmem
      have hcoeff' := coefficient_sum_of_mem h hk' hq
      rw [hqp, hcoeff] at hcoeff'
      rw [Prod.ext hqp.symm hcoeff']
      exact hq
    · rw [coefficient_sum_of_notMem h hmem] at hcoeff
      exact absurd hcoeff.symm (hnz p hp)
  refine (List.perm_ext_iff_of_nodup (hl.of_map _) (hl'.of_map _)).mpr fun p => ?_
  exact ⟨hsub l l' hl hl' hne hsum p, hsub l' l hl' hl hne' hsum.symm p⟩

end Coefficients

variable {α : Type} [ExactScalar α]

/-! ## Trees that denote polynomials -/

/-- The polynomial that an expression is; the exponent of a power is read off a constant. Quotients are
not polynomials and count as zero. -/
noncomputable def asPolynomial : Interpretation α (MvPolynomial String ℚ) where
  number v := C (value v)
  named := X
  divide _ _ := 0
  power p q := p ^ (constantCoeff q).num.toNat
  unknown _ _ _ := 0
  marked _ := 0

namespace Expr

/-- The polynomial that an expression denotes. -/
noncomputable def toPolynomial (e : Expr α) : MvPolynomial String ℚ := e.denote asPolynomial

/-- There is no quotient, and every exponent is one of the literals `0, ..., 10`. -/
def IsPolynomial (e : Expr α) : Prop :=
  e.EveryNode fun op _ r =>
    op ≠ .div ∧ (op = .pow → ∃ k : α, r = num k ∧ ∃ j : ℕ, j ≤ 10 ∧ value k = j)

instance (e : Expr α) : Decidable e.IsPolynomial := inferInstanceAs (Decidable (e.EveryNode _))

theorem IsPolynomial.integerPowers {e : Expr α} (h : e.IsPolynomial) : e.IntegerPowers := by
  refine EveryNode.imp ?_ h
  intro op l r hnode hop
  obtain ⟨k, rfl, j, -, hj⟩ := hnode.2 hop
  exact ⟨k, rfl, j, by rw [hj]; rfl⟩

theorem IsPolynomial.poleFree {e : Expr α} (h : e.IsPolynomial) (ρ : String → ℚ) :
    e.PoleFree ρ := by
  refine EveryNode.imp ?_ h
  intro op l r hnode
  refine ⟨fun hop => absurd hop hnode.1, fun hop hneg => ?_⟩
  obtain ⟨k, rfl, j, -, hj⟩ := hnode.2 hop
  rw [valueAt_num, hj] at hneg
  exact absurd hneg (not_lt.mpr (Nat.cast_nonneg j))

/-- The value of a polynomial tree is the value of its polynomial. -/
theorem eval_toPolynomial {e : Expr α} (h : e.IsPolynomial) (ρ : String → ℚ) :
    eval ρ e.toPolynomial = e.valueAt ρ := by
  unfold toPolynomial
  induction e with
  | num v => simp [asPolynomial]
  | var x => simp [asPolynomial]
  | bin op l r ihl ihr =>
    obtain ⟨⟨hdiv, hpow⟩, hl, hr⟩ := h
    have ihl := ihl hl
    have ihr := ihr hr
    cases op with
    | add => rw [denote, map_add, ihl, ihr, valueAt_add]
    | sub => rw [denote, map_sub, ihl, ihr, valueAt_sub]
    | mul => rw [denote, map_mul, ihl, ihr, valueAt_mul]
    | div => exact absurd rfl hdiv
    | pow =>
      obtain ⟨k, rfl, j, -, hj⟩ := hpow rfl
      have hexp : integer k = j := integer_of_value_eq (by rw [hj]; rfl)
      have hpower : denote asPolynomial (bin .pow l (num k)) =
          denote asPolynomial l ^ (integer k).toNat := by
        show denote asPolynomial l ^ (constantCoeff (C (value k) : MvPolynomial String ℚ)).num.toNat = _
        rw [constantCoeff_C]
        rfl
      rw [hpower, map_pow, ihl, valueAt_pow, hexp, Int.toNat_natCast, zpow_natCast]
    | other c => simp [asPolynomial, valueAt, atPoint]
  | pending t ih => simp [asPolynomial, valueAt, atPoint]
  | hole => simp [valueAt]

end Expr

/-! ## Monomials -/

/-- A variable with a natural number for exponent. -/
def Key.IsPower (k : Key α) (e : α) : Prop := (∃ x, k = .atom x) ∧ ∃ j : ℕ, value e = j

/-- Every factor of every term is a power of a variable. -/
def Terms.Monomial (ts : List (Term α)) : Prop := Terms.Every Unstructured Key.IsPower ts

theorem Key.IsPower.add {k k' : Key α} {e e' : α} (h : k.IsPower e) (h' : k'.IsPower e') :
    k.IsPower (e + e') := by
  obtain ⟨hatom, j, hj⟩ := h
  obtain ⟨-, j', hj'⟩ := h'
  exact ⟨hatom, j + j', by rw [value_add, hj, hj', Nat.cast_add]⟩

theorem Terms.Monomial.group {ts : List (Term α)} (h : Terms.Monomial ts) :
    Terms.Monomial (Terms.group ts) := by
  refine Terms.Every.group (fun k k' e e' _ _ hk hk' _ => hk.add hk') (fun us e _ hf => ?_) h
  obtain ⟨⟨x, hx⟩, -⟩ := hf
  cases hx

theorem Terms.Monomial.mul {ts us : List (Term α)} (hts : Terms.Monomial ts)
    (hus : Terms.Monomial us) : Terms.Monomial (Terms.mul ts us) := by
  refine Terms.every_iff.mpr fun v hv => ?_
  obtain ⟨t, ht, hv⟩ := List.mem_flatMap.mp hv
  obtain ⟨u, hu, rfl⟩ := List.mem_map.mp hv
  have hft := Factors.every_iff.mp (Terms.every_iff.mp hts t ht)
  have hfu := Factors.every_iff.mp (Terms.every_iff.mp hus u hu)
  refine Factors.every_iff.mpr (Factors.forall_insertAll ?_ hft hfu)
  intro f g hf hg _
  exact ⟨hg.1, hg.2.add hf.2⟩

/-- The power zero of a sum, if it exists, has no factors that matter. -/
theorem Terms.Monomial.pow {ts us : List (Term α)} {e : α} (he : value e = 0)
    (hts : Terms.Monomial ts) (h : Terms.pow ts e = .ok us) : Terms.Monomial us := by
  unfold Terms.pow at h
  split at h
  · split at h
    · cases h
      trivial
    · cases h
  · rename_i t hone
    obtain ⟨u, hu, rfl⟩ := map_eq_ok.mp h
    have ht : Factors.Every Unstructured Key.IsPower t.factors :=
      Terms.every_iff.mp hts.group t (by rw [hone]; exact List.mem_singleton_self t)
    obtain rfl := Term.eq_of_pow hu
    refine Terms.every_iff.mpr fun u hu => ?_
    rw [List.mem_singleton.mp hu]
    refine Factors.every_iff.mpr fun g hg => ?_
    obtain ⟨f, hf, rfl⟩ := List.mem_map.mp hg
    obtain ⟨hkey, hatom, -⟩ := Factors.every_iff.mp ht f hf
    exact ⟨hkey, hatom, 0, by rw [value_mul, he, mul_zero, Nat.cast_zero]⟩
  · cases h
    have hzero : (e == 0) = true := (beq_zero_iff e).mpr he
    have hdrop : Factors.insertAll Key.canonical [] [(⟨.composite (Terms.group ts), e⟩ : Factor α)] =
        [] := by
      simp [Factors.insertAll, Factors.insert, Factors.insertNamed, Factor.keep, hzero]
    refine Terms.every_iff.mpr fun u hu => ?_
    rw [List.mem_singleton.mp hu, Term.ofFactors, hdrop]
    trivial

namespace Expr

/-- Multiplied out: no quotient is left, and the only powers left have exponent zero. -/
def MultipliedOut (e : Expr α) : Prop :=
  e.EveryNode fun op _ r => op ≠ .div ∧ (op = .pow → ∃ k : α, r = num k ∧ value k = 0)

/-- Outside of divisors every power from one to ten is written out. -/
theorem IsPolynomial.multipliedOut {e e' : Expr α} (he : e.IsPolynomial)
    (h : e.distribute = .ok e') : e'.MultipliedOut := by
  unfold distribute at h
  induction e generalizing e' with
  | num v => cases h; trivial
  | var x => cases h; trivial
  | bin op l r ihl ihr =>
    obtain ⟨⟨hdiv, hpow⟩, hl, hr⟩ := he
    obtain ⟨l', r', hl', hr', rfl⟩ := distributeIn_bin h
    have hright : (false || decide (op = .div)) = false := by simp [hdiv]
    rw [hright] at hr'
    refine EveryNode.distributeNode (by simp) (by simp) (by simp) (ihl hl hl') (ihr hr hr') ?_
    intro hsmall
    refine ⟨hdiv, fun hop => ?_⟩
    obtain ⟨k, rfl, j, hj, hk⟩ := hpow hop
    cases hr'
    refine ⟨k, rfl, ?_⟩
    have hnone := hsmall k hop rfl rfl
    by_cases hpos : 1 ≤ j
    · have hsome : Scalar.smallPower? k = some j :=
        (smallPower?_eq_some_iff k j).mpr ⟨⟨hpos, hj⟩, hk⟩
      rw [hnone] at hsome
      cases hsome
    · have hj0 : j = 0 := by omega
      rw [hk, hj0, Nat.cast_zero]
  | pending t ih =>
    obtain ⟨t', ht, rfl⟩ := distributeIn_pending h
    show t'.MultipliedOut
    exact ih he ht
  | hole => cases h

theorem MultipliedOut.removeDivision {e e' : Expr α} (he : e.MultipliedOut)
    (h : e.removeDivision = .ok e') : e' = e := by
  induction e generalizing e' with
  | num v => cases h; rfl
  | var x => cases h; rfl
  | bin op l r ihl ihr =>
    obtain ⟨⟨hdiv, -⟩, hl, hr⟩ := he
    obtain ⟨l', r', hl', hr', rfl⟩ := removeDivision_bin h
    rw [if_neg hdiv, ihl hl hl', ihr hr hr']
  | pending t ih => cases h
  | hole => cases h

theorem MultipliedOut.monomial {e : Expr α} {ts : List (Term α)} (he : e.MultipliedOut)
    (hx : e.Lettered) (h : e.decompose = .ok ts) : Terms.Monomial ts := by
  induction e generalizing ts with
  | num v =>
    cases h
    exact ⟨trivial, trivial⟩
  | var x =>
    cases h
    have hplain : Unstructured x := unstructured_of_letters (hx x (by simp [names]))
    refine Terms.every_iff.mpr fun u hu => ?_
    rw [List.mem_singleton.mp hu]
    refine Factors.every_iff.mpr (Factors.forall_insertAll ?_ (by simp) ?_)
    · intro f g hf hg _
      exact ⟨hg.1, hg.2.add hf.2⟩
    · intro g hg
      rw [List.mem_singleton.mp hg]
      exact ⟨hplain, ⟨x, rfl⟩, 1, by simp⟩
  | bin op l r ihl ihr =>
    obtain ⟨⟨-, hpow⟩, hl, hr⟩ := he
    obtain ⟨hxl, hxr⟩ := lettered_bin.mp hx
    obtain ⟨us, hus, ⟨rfl, e, rfl, hts⟩ | ⟨vs, hvs, hop⟩⟩ := decompose_bin h
    · obtain ⟨k, hk, hzero⟩ := hpow rfl
      cases hk
      exact (ihl hl hxl hus).pow hzero hts
    · have hmus := ihl hl hxl hus
      have hmvs := ihr hr hxr hvs
      rcases hop with ⟨-, rfl⟩ | ⟨-, rfl⟩ | ⟨-, rfl⟩
      · exact Terms.every_append.mpr ⟨hmus, hmvs⟩
      · refine Terms.every_append.mpr ⟨hmus, Terms.every_iff.mpr fun u hu => ?_⟩
        obtain ⟨v, hv, rfl⟩ := List.mem_map.mp hu
        exact Terms.every_iff.mp hmvs v hv
      · exact hmus.mul hmvs
  | pending t ih => cases h
  | hole => cases h

end Expr

/-! ## Monomials and signatures -/

namespace Term

/-- The exponents of a term by variable. -/
noncomputable def exponents (t : Term α) : String →₀ ℕ :=
  ((t.factors.map fun f => (f.key.canonical, (integer f.exponent).toNat)).map
    fun p => Finsupp.single p.1 p.2).sum

/-- The monomial that a term is. -/
noncomputable def toPolynomial (t : Term α) : MvPolynomial String ℚ :=
  monomial t.exponents (value t.coefficient)

theorem exponents_cons (c : α) (f : Factor α) (fs : List (Factor α)) :
    exponents ⟨c, f :: fs⟩ =
      Finsupp.single f.key.canonical (integer f.exponent).toNat + exponents ⟨c, fs⟩ := by
  simp [exponents]

/-- The value of a term is the value of its monomial. -/
theorem eval_toPolynomial {t : Term α} (ht : Factors.Every Unstructured Key.IsPower t.factors)
    (ρ : String → ℚ) :
    eval ρ t.toPolynomial = value t.coefficient * Factors.valueAt ρ t.factors := by
  obtain ⟨c, fs⟩ := t
  unfold toPolynomial
  induction fs with
  | nil => simp [exponents]
  | cons f fs ih =>
    obtain ⟨hf, hfs⟩ := List.forall_mem_cons.mp (Factors.every_iff.mp ht)
    have ih := ih (Factors.every_iff.mpr hfs)
    obtain ⟨-, ⟨x, hx⟩, j, hj⟩ := hf
    have hexp : integer f.exponent = j := integer_of_value_eq (by rw [hj]; rfl)
    have hkey : f.key.valueAt ρ = ρ x := by
      rw [hx]
      rfl
    dsimp only at ih ⊢
    rw [exponents_cons, monomial_single_add, map_mul, map_pow, eval_X, ih, Factors.valueAt_cons, hkey,
      hexp, hx, Key.canonical_atom, Int.toNat_natCast, zpow_natCast]
    ring

/-- In a reduced term the exponents are listed by variable, none of them zero. -/
theorem Reduced.exponents_listed {t : Term α} (hred : t.Reduced)
    (ht : Factors.Every Unstructured Key.IsPower t.factors) :
    ((t.factors.map fun f => (f.key.canonical, (integer f.exponent).toNat)).map Prod.fst).Nodup ∧
      ∀ p ∈ t.factors.map fun f => (f.key.canonical, (integer f.exponent).toNat), p.2 ≠ 0 := by
  constructor
  · rw [List.map_map]
    exact hred.names
  · intro p hp
    obtain ⟨f, hf, rfl⟩ := List.mem_map.mp hp
    obtain ⟨-, -, j, hj⟩ := Factors.every_iff.mp ht f hf
    have hexp : integer f.exponent = j := integer_of_value_eq (by rw [hj]; rfl)
    have hne := hred.exponents f hf
    rw [Bool.eq_false_iff, ne_eq, beq_zero_iff, hj] at hne
    dsimp only
    rw [hexp, Int.toNat_natCast]
    exact fun hj0 => hne (by rw [hj0, Nat.cast_zero])

/-- Reduced terms are alike exactly when they are the same monomial up to the coefficient. -/
theorem Reduced.signature_eq_iff {t u : Term α} (htr : t.Reduced) (hur : u.Reduced)
    (ht : Factors.Every Unstructured Key.IsPower t.factors)
    (hu : Factors.Every Unstructured Key.IsPower u.factors) :
    t.signature = u.signature ↔ t.exponents = u.exponents := by
  have hplain : ∀ v : Term α, Factors.Every Unstructured Key.IsPower v.factors →
      ∀ f ∈ v.factors, Closed ['*', '+', '^'] f.key.canonical := by
    intro v hv f hf
    obtain ⟨hkey, ⟨x, hx⟩, -⟩ := Factors.every_iff.mp hv f hf
    rw [hx] at hkey ⊢
    exact Key.Plain.closed_canonical hkey
  have hlabel : ∀ f ∈ t.factors, ∀ g ∈ u.factors,
      (f.label Key.canonical = g.label Key.canonical ↔
        (f.key.canonical, (integer f.exponent).toNat) =
          (g.key.canonical, (integer g.exponent).toNat)) := by
    intro f hf g hg
    obtain ⟨-, -, j, hj⟩ := Factors.every_iff.mp ht f hf
    obtain ⟨-, -, k, hk⟩ := Factors.every_iff.mp hu g hg
    have hexpf : integer f.exponent = j := integer_of_value_eq (by rw [hj]; rfl)
    have hexpg : integer g.exponent = k := integer_of_value_eq (by rw [hk]; rfl)
    rw [Factor.label_eq_iff ((hplain t ht f hf).mono (by simp)) ((hplain u hu g hg).mono (by simp)),
      text_eq_iff, Prod.mk.injEq, hexpf, hexpg, Int.toNat_natCast, Int.toNat_natCast, hj, hk,
      Nat.cast_inj]
  rw [Term.signature_eq_iff
    (fun f hf => Factor.closed_label (hplain t ht f hf) (closed_text (by decide) _))
    fun f hf => Factor.closed_label (hplain u hu f hf) (closed_text (by decide) _)]
  constructor
  · intro hperm
    have hpairs := perm_map_of_perm_label hperm fun f hf g hg => (hlabel f hf g hg).mp
    exact (hpairs.map fun p => Finsupp.single p.1 p.2).sum_eq
  · intro hexp
    obtain ⟨hnodup, hne⟩ := htr.exponents_listed ht
    obtain ⟨hnodup', hne'⟩ := hur.exponents_listed hu
    have hsingle : ∀ (i j : String) (m : ℕ),
        Finsupp.applyAddHom i (Finsupp.single j m) = if j = i then m else 0 := fun i j m =>
      Finsupp.single_apply
    have hperm := perm_of_sum_eq hsingle hnodup hnodup' hne hne' hexp
    exact perm_map_of_perm_label hperm fun f hf g hg => (hlabel f hf g hg).mpr

end Term

/-! ## The normal form -/

theorem Terms.Monomial.eval_sum {ts : List (Term α)} (h : Terms.Monomial ts) (ρ : String → ℚ) :
    eval ρ (ts.map Term.toPolynomial).sum = Terms.valueAt ρ ts := by
  induction ts with
  | nil => simp
  | cons t ts ih =>
    obtain ⟨ht, hts⟩ := List.forall_mem_cons.mp (Terms.every_iff.mp h)
    rw [List.map_cons, List.sum_cons, map_add, Term.eval_toPolynomial ht,
      ih (Terms.every_iff.mpr hts), Terms.valueAt_cons]

/-- The canonical terms of a polynomial tree are different monomials, none of them zero, that add up to
the polynomial. -/
theorem Expr.IsPolynomial.canonicalTerms {n : Expr α} {ts : List (Term α)} (hn : n.IsPolynomial)
    (hx : n.Lettered) (h : n.canonicalTerms = .ok ts) :
    Terms.Monomial ts ∧ (∀ t ∈ ts, t.Reduced) ∧ (ts.map Term.signature).Nodup ∧
      n.toPolynomial = (ts.map Term.toPolynomial).sum := by
  have hvalue : ∀ ρ, Terms.valueAt ρ ts = n.valueAt ρ := fun ρ =>
    (Expr.canonicalTerms_sound hx hn.integerPowers (hn.poleFree ρ) h).2
  obtain ⟨e, e', us, hd, hr, hu, rfl⟩ := Expr.canonicalTerms_eq_ok.mp h
  have hout := hn.multipliedOut hd
  obtain rfl := hout.removeDivision hr
  have hmono : Terms.Monomial (Terms.group us) :=
    (hout.monomial (Expr.hereditary_lettered.distributeIn hx hd) hu).group
  refine ⟨hmono, fun t ht => Terms.reduced_of_mem_group ht, Terms.nodup_signature_group us, ?_⟩
  -- polynomials over an infinite field are equal if they have the same values
  refine MvPolynomial.funext fun ρ => ?_
  rw [Expr.eval_toPolynomial hn, hmono.eval_sum, hvalue]

/-- Terms that are reduced and not alike are different monomials. -/
theorem Terms.Monomial.nodup_exponents {ts : List (Term α)} (h : Terms.Monomial ts)
    (hred : ∀ t ∈ ts, t.Reduced) (hsig : (ts.map Term.signature).Nodup) :
    (ts.map Term.exponents).Nodup := by
  unfold List.Nodup at hsig ⊢
  rw [List.pairwise_map] at hsig ⊢
  refine hsig.imp_of_mem ?_
  intro t u ht hu hne hexp
  exact hne (((hred t ht).signature_eq_iff (hred u hu) (Terms.every_iff.mp h t ht)
    (Terms.every_iff.mp h u hu)).mpr hexp)

/-- Two polynomial trees denote the same polynomial exactly when their canonical terms have the same
coefficients and signatures up to order. -/
theorem Expr.toPolynomial_eq_iff (n m : Expr α) (ts us : List (Term α)) (hn : n.IsPolynomial)
    (hm : m.IsPolynomial) (hxn : n.Lettered) (hxm : m.Lettered) (hts : n.canonicalTerms = .ok ts)
    (hus : m.canonicalTerms = .ok us) :
    n.toPolynomial = m.toPolynomial ↔
      (ts.map fun t => (value t.coefficient, t.signature)).Perm
        (us.map fun u => (value u.coefficient, u.signature)) := by
  obtain ⟨hmts, hrts, hsts, hpn⟩ := hn.canonicalTerms hxn hts
  obtain ⟨hmus, hrus, hsus, hpm⟩ := hm.canonicalTerms hxm hus
  have hsig : ∀ t ∈ ts, ∀ u ∈ us, (t.signature = u.signature ↔ t.exponents = u.exponents) :=
    fun t ht u hu => (hrts t ht).signature_eq_iff (hrus u hu) (Terms.every_iff.mp hmts t ht)
      (Terms.every_iff.mp hmus u hu)
  rw [hpn, hpm]
  constructor
  · intro hsum
    have hcoeff : ∀ (i j : String →₀ ℕ) (c : ℚ),
        coeffAddMonoidHom i (monomial j c) = if j = i then c else 0 :=
      fun i j c => coeff_monomial i j c
    have hnonzero : ∀ vs : List (Term α), (∀ t ∈ vs, t.Reduced) →
        ∀ p ∈ vs.map fun t => (t.exponents, value t.coefficient), p.2 ≠ 0 := by
      intro vs hvs p hp
      obtain ⟨t, ht, rfl⟩ := List.mem_map.mp hp
      have hne := (hvs t ht).coefficient
      rw [Bool.eq_false_iff, ne_eq, beq_zero_iff] at hne
      exact hne
    have hperm : (ts.map fun t => (t.exponents, value t.coefficient)).Perm
        (us.map fun u => (u.exponents, value u.coefficient)) := by
      refine perm_of_sum_eq hcoeff ?_ ?_ (hnonzero ts hrts) (hnonzero us hrus) ?_
      · rw [List.map_map]
        exact hmts.nodup_exponents hrts hsts
      · rw [List.map_map]
        exact hmus.nodup_exponents hrus hsus
      · rw [List.map_map, List.map_map]
        exact hsum
    refine perm_map_of_perm_label hperm fun t ht u hu hpair => ?_
    obtain ⟨hexp, hvalue⟩ := Prod.mk.inj hpair
    rw [hvalue, (hsig t ht u hu).mpr hexp]
  · intro hperm
    refine (perm_map_of_perm_label hperm fun t ht u hu hpair => ?_).sum_eq
    obtain ⟨hvalue, hsigeq⟩ := Prod.mk.inj hpair
    unfold Term.toPolynomial
    rw [hvalue, (hsig t ht u hu).mp hsigeq]

section Rational

open scoped Rational

/-- The square of a sum, times a power zero, has the canonical terms of its expansion. -/
theorem Expr.toPolynomial_eq_iff_square :
    ∃ ts us, (mul (pow (add (var "x") (var "y")) 2) (pow (add (var "x") (num 1)) 0) :
        Expr ℚ).canonicalTerms = .ok ts ∧
      (add (pow (var "y") 2) (mul (var "x") (add (var "x") (mul (num 2) (var "y")))) :
        Expr ℚ).canonicalTerms = .ok us ∧
      (ts.map fun t => (value t.coefficient, t.signature)).Perm
        (us.map fun u => (value u.coefficient, u.signature)) := by
  obtain ⟨ts, hts⟩ := exists_ok_of_isOk (x := (mul (pow (add (var "x") (var "y")) 2)
    (pow (add (var "x") (num 1)) 0) : Expr ℚ).canonicalTerms) (by decide +kernel)
  obtain ⟨us, hus⟩ := exists_ok_of_isOk (x := (add (pow (var "y") 2)
    (mul (var "x") (add (var "x") (mul (num 2) (var "y")))) : Expr ℚ).canonicalTerms)
    (by decide +kernel)
  refine ⟨ts, us, hts, hus, (toPolynomial_eq_iff _ _ ts us (by decide +kernel) (by decide +kernel)
    (by decide +kernel) (by decide +kernel) hts hus).mp ?_⟩
  have htwo : (value (2 : ℚ)).num.toNat = 2 := rfl
  have hzero : (value (0 : ℚ)).num.toNat = 0 := rfl
  have hconst : (C (value (2 : ℚ)) : MvPolynomial String ℚ) = 2 := map_ofNat C 2
  simp only [toPolynomial, denote, asPolynomial, constantCoeff_C, htwo, hzero]
  rw [hconst]
  ring

end Rational

end Fluxion
