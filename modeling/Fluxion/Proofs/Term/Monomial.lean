import Fluxion.Proofs.NormalForm
import Fluxion.Proofs.Term.Built

/-!
# Terms multiply like monomials

With exact numbers, the exponents of a term by the names of its keys add up in products, whatever is merged
and cancelled on the way, and are scaled by powers. A term whose factors all have different names and
exponents other than zero has its factors written in them, up to order. So the laws of monomials hold for
terms as soon as they hold for coefficients and exponents, although the order of the factors and the way a
key is written depend on how a product was put together.
-/

namespace Fluxion

open ExactScalar

variable {α : Type}

/-! ## Equivalent terms -/

/-- The signature of a term forgets the order of its factors. -/
theorem Term.signature_eq_of_perm [Scalar α] {t u : Term α}
    (h : (t.factors.map (Factor.label Key.canonical)).Perm
      (u.factors.map (Factor.label Key.canonical))) : t.signature = u.signature := by
  have hempty := h.isEmpty_eq
  rw [List.isEmpty_map, List.isEmpty_map] at hempty
  rw [Term.signature, Term.signature, Term.signatureWith, Term.signatureWith, hempty,
    sortTexts_eq_iff.mpr h]

variable [ExactScalar α]

/-- The two terms have equal coefficients and equal signatures. -/
structure Term.Equivalent (t u : Term α) : Prop where
  coefficient : value t.coefficient = value u.coefficient
  signature : t.signature = u.signature

/-! ## Exponents by key -/

/-- What the exponents of the factors add up to, by the names of their keys. -/
noncomputable def Factors.degrees (fs : List (Factor α)) : String →₀ ℚ :=
  (fs.map fun f => Finsupp.single f.key.canonical (value f.exponent)).sum

namespace Factors

@[simp] theorem degrees_nil : degrees ([] : List (Factor α)) = 0 := rfl

@[simp] theorem degrees_cons (f : Factor α) (fs : List (Factor α)) :
    degrees (f :: fs) = Finsupp.single f.key.canonical (value f.exponent) + degrees fs := by
  simp [degrees]

@[simp] theorem degrees_append (fs gs : List (Factor α)) :
    degrees (fs ++ gs) = degrees fs + degrees gs := by
  simp [degrees]

/-- Dropping a factor whose exponent is zero changes nothing. -/
@[simp] theorem degrees_keep (f : Factor α) :
    degrees f.keep = Finsupp.single f.key.canonical (value f.exponent) := by
  unfold Factor.keep
  split
  · rename_i hzero
    rw [(beq_zero_iff _).mp hzero, Finsupp.single_zero, degrees_nil]
  · rw [degrees_cons, degrees_nil, add_zero]

@[simp] theorem degrees_flatMap_keep (fs : List (Factor α)) :
    degrees (fs.flatMap Factor.keep) = degrees fs := by
  induction fs with
  | nil => rfl
  | cons f fs ih => rw [List.flatMap_cons, degrees_append, degrees_keep, ih, degrees_cons]

theorem degrees_insert (f : Factor α) (fs : List (Factor α)) :
    degrees (insert Key.canonical f fs) =
      degrees fs + Finsupp.single f.key.canonical (value f.exponent) := by
  unfold insert
  induction fs with
  | nil => rw [insertNamed, degrees_keep, degrees_nil, zero_add]
  | cons g fs ih =>
    rw [insertNamed]
    split
    · rename_i hname
      rw [degrees_append, degrees_keep, degrees_flatMap_keep, degrees_cons, value_add,
        Finsupp.single_add, beq_iff_eq.mp hname]
      exact add_right_comm _ _ _
    · rw [degrees_append, degrees_keep, ih, degrees_cons, add_assoc]

/-- However factors are merged, the exponents of each key add up. -/
theorem degrees_insertAll (start fs : List (Factor α)) :
    degrees (insertAll Key.canonical start fs) = degrees start + degrees fs := by
  induction fs generalizing start with
  | nil => rw [degrees_nil, add_zero]; rfl
  | cons f fs ih =>
    have hstep : insertAll Key.canonical start (f :: fs) =
        insertAll Key.canonical (insert Key.canonical f start) fs := rfl
    rw [hstep, ih, degrees_insert, degrees_cons, add_assoc]

theorem degrees_map_exponent (fs : List (Factor α)) (e : α) :
    degrees (fs.map fun f => ⟨f.key, f.exponent * e⟩) = value e • degrees fs := by
  induction fs with
  | nil => simp
  | cons f fs ih =>
    rw [List.map_cons, degrees_cons, degrees_cons, ih, smul_add, Finsupp.smul_single, value_mul,
      smul_eq_mul, mul_comm]

end Factors

namespace Term

/-- The exponents of a term by the names of its keys. -/
noncomputable def degrees (t : Term α) : String →₀ ℚ := Factors.degrees t.factors

theorem value_coefficient_mul (t u : Term α) :
    value (t.mul u).coefficient = value t.coefficient * value u.coefficient := value_mul _ _

theorem degrees_mul (t u : Term α) : (t.mul u).degrees = t.degrees + u.degrees :=
  Factors.degrees_insertAll t.factors u.factors

theorem degrees_pow {t u : Term α} {e : α} (h : t.pow e = .ok u) :
    u.degrees = value e • t.degrees := by
  rw [degrees, factors_of_pow h]
  exact Factors.degrees_map_exponent t.factors e

theorem degrees_ofFactors_nil (c : α) : (ofFactors c []).degrees = 0 := rfl

/-- Tidy terms with the same exponents by key have the same signature. -/
theorem Tidy.signature_eq {t u : Term α} (ht : t.Tidy) (hu : u.Tidy) (h : t.degrees = u.degrees) :
    t.signature = u.signature := by
  let pair (f : Factor α) : String × ℚ := (f.key.canonical, value f.exponent)
  have hnames (v : Term α) (hv : v.Tidy) : ((v.factors.map pair).map Prod.fst).Nodup := by
    rw [List.map_map]
    exact hv.names
  have hne (v : Term α) (hv : v.Tidy) : ∀ p ∈ v.factors.map pair, p.2 ≠ 0 := by
    refine List.forall_mem_map.mpr fun f hf hzero => ?_
    exact Bool.eq_false_iff.mp (hv.exponents f hf) ((beq_zero_iff _).mpr hzero)
  have hsum : ((t.factors.map pair).map fun p => Finsupp.single p.1 p.2).sum =
      ((u.factors.map pair).map fun p => Finsupp.single p.1 p.2).sum := by
    rw [List.map_map, List.map_map]
    exact h
  have hcoefficient (i j : String) (m : ℚ) :
      Finsupp.applyAddHom i (Finsupp.single j m) = if j = i then m else 0 := Finsupp.single_apply
  have hperm := perm_of_sum_eq hcoefficient (hnames t ht) (hnames u hu) (hne t ht) (hne u hu) hsum
  refine signature_eq_of_perm (perm_map_of_perm_label hperm fun f _ g _ hpair => ?_)
  obtain ⟨hname, hexponent⟩ := Prod.mk.inj hpair
  rw [Factor.label, Factor.label, hname, (text_eq_iff _ _).mpr hexponent]

theorem Tidy.equivalent {t u : Term α} (ht : t.Tidy) (hu : u.Tidy)
    (hc : value t.coefficient = value u.coefficient) (h : t.degrees = u.degrees) : t.Equivalent u :=
  ⟨hc, ht.signature_eq hu h⟩

/-! ## Powers -/

/-- A nonzero integer power of a tidy term that is not zero: its coefficient and its exponents. -/
theorem Tidy.exists_pow (hfinite : ∀ v : α, Scalar.isFinite v = true) {t : Term α} (ht : t.Tidy)
    (hc : value t.coefficient ≠ 0) {e : α} (he : IsInteger e) (hne : value e ≠ 0) :
    ∃ u, t.pow e = .ok u ∧ u.Tidy ∧ value u.coefficient = value t.coefficient ^ integer e ∧
      u.degrees = value e • t.degrees := by
  have hzero (a b : α) (h : (a * b == 0) = true) : (a == 0) = true ∨ (b == 0) = true := by
    rw [beq_zero_iff, value_mul, mul_eq_zero] at h
    simpa using h
  have hpow : t.pow e = .ok ⟨Scalar.pow t.coefficient e,
      t.factors.map fun f => ⟨f.key, f.exponent * e⟩⟩ := by
    rw [Term.pow]
    exact if_pos (hfinite _)
  refine ⟨_, hpow, ?_, value_pow _ _ _ he.value_eq fun _ => hc, degrees_pow hpow⟩
  refine (Distinct.tidy_pow_iff ht.names hpow).mpr (ht.keepsFactors hzero ?_)
  rw [Bool.eq_false_iff, ne_eq, beq_zero_iff]
  exact hne

/-! ## The laws -/

/-- Up to the order of factors and the way keys are written, products of tidy terms are commutative and
associative, one is neutral, the opposite is the product with minus one, and powers with integer exponents
other than zero are those of monomials. Without overflow all these powers exist. What stands last in a product
of three is merged into the others, so it need not be tidy. -/
theorem equivalent_monomial_laws (hfinite : ∀ v : α, Scalar.isFinite v = true) (a b c : Term α)
    (ha : a.Tidy) (hb : b.Tidy) :
    (a.mul b).Equivalent (b.mul a) ∧
    ((a.mul b).mul c).Equivalent (a.mul (b.mul c)) ∧
    (a.mul (ofFactors 1 [])).Equivalent a ∧ ((ofFactors 1 []).mul a).Equivalent a ∧
    a.neg.Equivalent ((ofFactors (-1) []).mul a) ∧
    (value a.coefficient ≠ 0 → value b.coefficient ≠ 0 →
      ∀ j k : α, IsInteger j → IsInteger k → value j ≠ 0 → value k ≠ 0 →
      (∃ p q r, (a.mul b).pow k = .ok p ∧ a.pow k = .ok q ∧ b.pow k = .ok r ∧
        p.Equivalent (q.mul r)) ∧
      ∃ p q r, a.pow j = .ok p ∧ p.pow k = .ok q ∧ a.pow (j * k) = .ok r ∧ q.Equivalent r) := by
  have hnumber (v : α) : (ofFactors v []).Tidy := tidy_ofFactors v []
  refine ⟨?_, ?_, ?_, ?_, ?_, fun hca hcb j k hj hk hj0 hk0 => ⟨?_, ?_⟩⟩
  · refine (ha.mul b).equivalent (hb.mul a) ?_ ?_
    · rw [value_coefficient_mul, value_coefficient_mul, mul_comm]
    · rw [degrees_mul, degrees_mul, add_comm]
  · refine ((ha.mul b).mul c).equivalent (ha.mul (b.mul c)) ?_ ?_
    · simp only [value_coefficient_mul, mul_assoc]
    · simp only [degrees_mul, add_assoc]
  · refine (ha.mul _).equivalent ha ?_ ?_
    · rw [value_coefficient_mul, ofFactors, value_one, mul_one]
    · rw [degrees_mul, degrees_ofFactors_nil, add_zero]
  · refine ((hnumber 1).mul a).equivalent ha ?_ ?_
    · rw [value_coefficient_mul, ofFactors, value_one, one_mul]
    · rw [degrees_mul, degrees_ofFactors_nil, zero_add]
  · refine ha.neg.equivalent ((hnumber (-1)).mul a) ?_ ?_
    · rw [value_coefficient_mul, ofFactors, neg, value_neg, value_neg, value_one, neg_one_mul]
    · rw [degrees_mul, degrees_ofFactors_nil, zero_add]
      rfl
  · have hcab : value (a.mul b).coefficient ≠ 0 := by
      rw [value_coefficient_mul]
      exact mul_ne_zero hca hcb
    obtain ⟨p, hp, hpt, hpc, hpd⟩ := (ha.mul b).exists_pow hfinite hcab hk hk0
    obtain ⟨q, hq, hqt, hqc, hqd⟩ := ha.exists_pow hfinite hca hk hk0
    obtain ⟨r, hr, -, hrc, hrd⟩ := hb.exists_pow hfinite hcb hk hk0
    refine ⟨p, q, r, hp, hq, hr, hpt.equivalent (hqt.mul r) ?_ ?_⟩
    · rw [hpc, value_coefficient_mul, value_coefficient_mul, hqc, hrc, mul_zpow]
    · rw [hpd, degrees_mul, degrees_mul, hqd, hrd, smul_add]
  · obtain ⟨p, hp, hpt, hpc, hpd⟩ := ha.exists_pow hfinite hca hj hj0
    have hcp : value p.coefficient ≠ 0 := by
      rw [hpc]
      exact zpow_ne_zero _ hca
    have hjk0 : value (j * k) ≠ 0 := by
      rw [value_mul]
      exact mul_ne_zero hj0 hk0
    obtain ⟨q, hq, hqt, hqc, hqd⟩ := hpt.exists_pow hfinite hcp hk hk0
    obtain ⟨r, hr, hrt, hrc, hrd⟩ := ha.exists_pow hfinite hca (hj.mul hk) hjk0
    refine ⟨p, q, r, hp, hq, hr, hqt.equivalent hrt ?_ ?_⟩
    · rw [hqc, hpc, hrc, hj.integer_mul hk, zpow_mul]
    · rw [hqd, hpd, hrd, value_mul, smul_smul, mul_comm]

section Rational

open scoped Rational

theorem pow_eq_ok {t : Term ℚ} {e c : ℚ} {fs : List (Factor ℚ)} (hc : Scalar.pow t.coefficient e = c)
    (hfs : (t.factors.map fun f => ⟨f.key, f.exponent * e⟩) = fs) : t.pow e = .ok ⟨c, fs⟩ := by
  subst hc hfs
  rfl

/-- A base with a power of a sum inside, written in two ways, that cancels when two of the terms are
multiplied and comes back with the third. -/
theorem equivalent_monomial_laws_nested :
    let sum : List (Term ℚ) := [⟨1, [⟨.atom "x", 1⟩]⟩, ⟨1, []⟩]
    let outer : Key ℚ := .composite [⟨1, [⟨.composite sum, -2⟩]⟩, ⟨3, []⟩]
    let turned : Key ℚ := .composite [⟨3, []⟩, ⟨1, [⟨.composite sum, -2⟩]⟩]
    let a : Term ℚ := ⟨2, [⟨.atom "x", 1⟩, ⟨outer, -1⟩]⟩
    let b : Term ℚ := ⟨-3, [⟨turned, 1⟩, ⟨.atom "y", 3⟩]⟩
    let c : Term ℚ := ⟨1 / 2, [⟨turned, 2⟩]⟩
    let ab : Term ℚ := ⟨-6, [⟨.atom "x", 1⟩, ⟨.atom "y", 3⟩]⟩
    let abSquare : Term ℚ := ⟨36, [⟨.atom "x", 2⟩, ⟨.atom "y", 6⟩]⟩
    let aSquare : Term ℚ := ⟨4, [⟨.atom "x", 2⟩, ⟨outer, -2⟩]⟩
    let bSquare : Term ℚ := ⟨9, [⟨turned, 2⟩, ⟨.atom "y", 6⟩]⟩
    let aInverse : Term ℚ := ⟨1 / 2, [⟨.atom "x", -1⟩, ⟨outer, 1⟩]⟩
    let aInverseSquare : Term ℚ := ⟨1 / 4, [⟨.atom "x", -2⟩, ⟨outer, 2⟩]⟩
    (outer.same turned = true ∧ a.Tidy ∧ b.Tidy ∧ a.mul b = ab) ∧
    ((a.mul b).mul c).Equivalent (a.mul (b.mul c)) ∧
    (ab.pow 2 = .ok abSquare ∧ a.pow 2 = .ok aSquare ∧ b.pow 2 = .ok bSquare ∧
      abSquare.Equivalent (aSquare.mul bSquare)) ∧
    a.pow (-1) = .ok aInverse ∧ aInverse.pow 2 = .ok aInverseSquare ∧ a.pow (-1 * 2) = .ok aInverseSquare := by
  intro sum outer turned a b c ab abSquare aSquare bSquare aInverse aInverseSquare
  have hsame : outer.same turned = true :=
    beq_iff_eq.mpr (Key.canonical_composite_of_perm
      (Terms.perm_group_of_total_eq (Terms.Rearranges.perm (.swap ..)).total_eq))
  have ha : a.Tidy := by decide +kernel
  have hb : b.Tidy := by decide +kernel
  have hmul : a.mul b = ab := by
    have hnames : outer.canonical = turned.canonical := beq_iff_eq.mp hsame
    have hx : (Key.atom "x" : Key ℚ).canonical ≠ turned.canonical := by decide +kernel
    have hy : (Key.atom "x" : Key ℚ).canonical ≠ (Key.atom "y" : Key ℚ).canonical := by decide +kernel
    norm_num [mul, a, b, ab, Factors.insertAll, Factors.insert, Factors.insertNamed, Factor.keep, hnames, hx, hy]
  have hab2 : ab.pow 2 = .ok abSquare := pow_eq_ok (by decide +kernel) (by norm_num [ab])
  have ha2 : a.pow 2 = .ok aSquare := pow_eq_ok (by decide +kernel) (by norm_num [a])
  have hb2 : b.pow 2 = .ok bSquare := pow_eq_ok (by decide +kernel) (by norm_num [b])
  have hinverse : a.pow (-1) = .ok aInverse := pow_eq_ok (by decide +kernel) (by norm_num [a])
  have hsquare : aInverse.pow 2 = .ok aInverseSquare :=
    pow_eq_ok (by decide +kernel) (by norm_num [aInverse])
  have hpower : a.pow (-1 * 2) = .ok aInverseSquare := pow_eq_ok (by decide +kernel) (by norm_num [a])
  obtain ⟨-, hassoc, -, -, -, hpowers⟩ := equivalent_monomial_laws (fun _ => rfl) a b c ha hb
  obtain ⟨⟨p, q, r, hp, hq, hr, hproduct⟩, -⟩ := hpowers (by decide +kernel) (by decide +kernel) (-1) 2
    ⟨-1, rfl⟩ ⟨2, rfl⟩ (by decide +kernel) (by decide +kernel)
  rw [hmul] at hp
  cases hab2.symm.trans hp
  cases ha2.symm.trans hq
  cases hb2.symm.trans hr
  exact ⟨⟨hsame, ha, hb, hmul⟩, hassoc, ⟨hab2, ha2, hb2, hproduct⟩, hinverse, hsquare, hpower⟩

end Rational

end Term

end Fluxion
