import Fluxion.Proofs.Evaluate
import Fluxion.Proofs.Shape
import Fluxion.Proofs.Term.Recovery

/-!
# Where negative powers survive

Restoring quotients goes through the summands of a tree, through the factors of a product and into the bases
of powers. It does not go into a factor that is a sum. Terms have such a factor when a composite key has lost
its exponent, because its powers were merged to the exponent one, and what is negative inside stays negative.
Nothing else does.
-/

namespace Fluxion

variable {α : Type}

namespace Expr

instance {P : α → Prop} [DecidablePred P] (r : Expr α) : Decidable (∀ k : α, r = num k → P k) :=
  match r with
  | num k => decidable_of_iff (P k) (by simp)
  | var _ => .isTrue (by simp)
  | bin .. => .isTrue (by simp)
  | pending _ => .isTrue (by simp)
  | hole => .isTrue (by simp)

theorem Fraction.every_append {P : Expr α → Prop} (f g : Fraction α) :
    (f.append g).Every P ↔ f.Every P ∧ g.Every P := by
  simp only [append, Every, List.forall_mem_append]
  exact and_and_and_comm

theorem Fraction.every_singleton {P : Expr α → Prop} (e : Expr α) :
    Fraction.Every P ⟨[e], []⟩ ↔ P e := by
  simp [Every]

theorem not_isSum_foldl_mul {e : Expr α} (he : ¬e.IsSum) (es : List (Expr α)) :
    ¬(es.foldl mul e).IsSum := by
  induction es generalizing e with
  | nil => exact he
  | cons a es ih => exact ih Bool.false_ne_true

variable [Scalar α]

/-- No power in the tree has a negative number for its exponent. -/
def NoNegativePower (e : Expr α) : Prop :=
  e.EveryNode fun op _ r => op = .pow → ∀ k : α, r = num k → Scalar.isNegative k = false

instance (e : Expr α) : Decidable e.NoNegativePower := inferInstanceAs (Decidable (e.EveryNode _))

section NoNegativePower

variable {l r b : Expr α} {k : α}

@[simp] theorem noNegativePower_add :
    (add l r).NoNegativePower ↔ l.NoNegativePower ∧ r.NoNegativePower := by
  simp [NoNegativePower]

@[simp] theorem noNegativePower_sub :
    (sub l r).NoNegativePower ↔ l.NoNegativePower ∧ r.NoNegativePower := by
  simp [NoNegativePower]

@[simp] theorem noNegativePower_mul :
    (mul l r).NoNegativePower ↔ l.NoNegativePower ∧ r.NoNegativePower := by
  simp [NoNegativePower]

@[simp] theorem noNegativePower_div :
    (div l r).NoNegativePower ↔ l.NoNegativePower ∧ r.NoNegativePower := by
  simp [NoNegativePower]

@[simp] theorem noNegativePower_pow :
    (pow b k).NoNegativePower ↔ Scalar.isNegative k = false ∧ b.NoNegativePower := by
  simp [NoNegativePower]

@[simp] theorem noNegativePower_num (v : α) : (num v).NoNegativePower := trivial

@[simp] theorem noNegativePower_var (x : String) : (var x : Expr α).NoNegativePower := trivial

theorem noNegativePower_foldl_mul (es : List (Expr α)) (e : Expr α) :
    (es.foldl mul e).NoNegativePower ↔ e.NoNegativePower ∧ ∀ a ∈ es, a.NoNegativePower := by
  induction es generalizing e with
  | nil => simp
  | cons a es ih => rw [List.foldl_cons, ih, noNegativePower_mul, List.forall_mem_cons, and_assoc]

theorem noNegativePower_powerExpr :
    (powerExpr b k).NoNegativePower ↔
      b.NoNegativePower ∧ ((k == 1) = true ∨ Scalar.isNegative k = false) := by
  unfold powerExpr
  split_ifs with hone
  · simp [hone]
  · rw [noNegativePower_pow, and_comm, or_iff_right hone]

end NoNegativePower

/-! ## Fractions -/

theorem noNegativePower_product (es : List (Expr α)) :
    (product es).NoNegativePower ↔ ∀ e ∈ es, e.NoNegativePower := by
  cases es with
  | nil => simp [product]
  | cons e es => rw [product, noNegativePower_foldl_mul, List.forall_mem_cons]

theorem noNegativePower_toExpr (f : Fraction α) :
    f.toExpr.NoNegativePower ↔ f.Every NoNegativePower := by
  unfold Fraction.toExpr Fraction.Every
  split
  · rename_i hbelow
    simp [noNegativePower_product, hbelow]
  · rw [noNegativePower_div, noNegativePower_product, noNegativePower_product]

/-- A power puts no negative power above or below the line, except those in its base. -/
theorem Fraction.noNegativePower_ofPower
    (hneg : ∀ k : α, Scalar.isNegative k = true → Scalar.isNegative (-k) = false) (b : Expr α) (k : α) :
    (Fraction.ofPower b k).Every NoNegativePower ↔ b.NoNegativePower := by
  unfold ofPower
  split_ifs with hminus hnegative
  · simp [Every]
  · simp [Every, hneg k hnegative]
  · simp [Every, hnegative]

/-! ## Products and sums -/

/-- A sum is one factor of a product. -/
theorem IsSum.fraction_eq {e : Expr α} (he : e.IsSum) : e.fraction = ⟨[e], []⟩ := by
  cases e with
  | bin op l r =>
    cases op with
    | add => rfl
    | sub => rfl
    | _ => cases he
  | _ => cases he

theorem restoreDivision_eq_toExpr {e : Expr α} (he : ¬e.IsSum) :
    e.restoreDivision = e.fraction.toExpr := by
  cases e with
  | bin op l r =>
    cases op with
    | add => exact absurd rfl he
    | sub => exact absurd rfl he
    | pow => cases r <;> rfl
    | _ => rfl
  | _ => rfl

/-- Outside of sums, restoring quotients clears all factors or none. -/
theorem noNegativePower_restoreDivision {e : Expr α} (he : ¬e.IsSum) :
    e.restoreDivision.NoNegativePower ↔ e.fraction.Every NoNegativePower := by
  rw [restoreDivision_eq_toExpr he, noNegativePower_toExpr]

theorem every_fraction_foldl_mul {P : Expr α → Prop} (es : List (Expr α)) (e : Expr α) :
    (es.foldl mul e).fraction.Every P ↔
      e.fraction.Every P ∧ ∀ a ∈ es, a.fraction.Every P := by
  induction es generalizing e with
  | nil => simp
  | cons a es ih =>
    have hfraction : (mul e a).fraction = e.fraction.append a.fraction := by rw [fraction]
    rw [List.foldl_cons, ih, hfraction, Fraction.every_append, List.forall_mem_cons, and_assoc]

end Expr

/-! ## Terms -/

variable [Scalar α]

theorem Factors.toExprs_eq_map (fs : List (Factor α)) :
    Factors.toExprs fs = fs.map fun f => powerExpr f.key.toExpr f.exponent := by
  induction fs with
  | nil => rfl
  | cons f fs ih =>
    obtain ⟨k, e⟩ := f
    rw [Factors.toExprs, ih, List.map_cons]

namespace Terms

/-- What holds of a sum or difference exactly if it holds of both sides, and of a number times some factors
exactly if `R` holds of them, holds of a list of terms exactly if `R` holds of the factors of each. -/
theorem toExpr_iff {Q : Expr α → Prop} {R : List (Expr α) → Prop}
    (hadd : ∀ l r, Q (.add l r) ↔ Q l ∧ Q r) (hsub : ∀ l r, Q (.sub l r) ↔ Q l ∧ Q r)
    (hzero : Q (.num 0)) (hterm : ∀ c es, Q (monomialExpr c es) ↔ R es) (ts : List (Term α)) :
    Q (toExpr ts) ↔ ∀ t ∈ ts, R (Factors.toExprs t.factors) := by
  have haddTo (ts : List (Term α)) (e : Expr α) :
      Q (addTo e ts) ↔ Q e ∧ ∀ t ∈ ts, R (Factors.toExprs t.factors) := by
    induction ts generalizing e with
    | nil => simp [addTo]
    | cons t ts ih =>
      obtain ⟨c, fs⟩ := t
      rw [addTo, List.forall_mem_cons]
      split
      · rw [ih, hadd, hterm, and_assoc]
      · rw [ih, hsub, hterm, and_assoc]
  cases ts with
  | nil => exact iff_of_true hzero (by simp)
  | cons t ts =>
    obtain ⟨c, fs⟩ := t
    rw [toExpr, haddTo, hterm, List.forall_mem_cons]

theorem isSum_addTo {e : Expr α} {ts : List (Term α)} (h : e.IsSum ∨ ts ≠ []) : (addTo e ts).IsSum := by
  induction ts generalizing e with
  | nil => exact h.resolve_right (not_not.mpr rfl)
  | cons t ts ih =>
    obtain ⟨c, fs⟩ := t
    rw [addTo]
    split
    · exact ih (Or.inl rfl)
    · exact ih (Or.inl rfl)

/-- Two terms or more make a sum, fewer do not. -/
theorem isSum_toExpr_iff (ts : List (Term α)) : (toExpr ts).IsSum ↔ 2 ≤ ts.length := by
  have hnum (v : α) : ¬(Expr.num v).IsSum := id
  match ts with
  | [] => exact iff_of_false (hnum 0) (by simp)
  | [⟨c, fs⟩] => exact iff_of_false (Expr.not_isSum_foldl_mul (hnum c) _) (by simp)
  | ⟨c, fs⟩ :: u :: ts => exact iff_of_true (isSum_addTo (Or.inr (List.cons_ne_nil u ts))) (by simp)

/-- No exponent at any depth is negative, unless it is not written because it is one. -/
def NonnegativePowers (ts : List (Term α)) : Prop :=
  Every (fun _ => True) (fun _ e => (e == 1) = true ∨ Scalar.isNegative e = false) ts

/-- The key has an exponent other than one, or is no sum of two or more terms with a negative exponent
inside. -/
def Reached : Key α → α → Prop
  | .atom _, _ => True
  | .composite us, e => (e == 1) = true → 2 ≤ us.length → NonnegativePowers us

/-- No sum that stands without an exponent, at any depth, has a negative exponent inside. -/
def Restorable (ts : List (Term α)) : Prop := Every (fun _ => True) Reached ts

theorem NonnegativePowers.restorable {ts : List (Term α)} (h : NonnegativePowers ts) : Restorable ts := by
  induction ts using nested_induction with
  | step ts ih =>
    refine every_iff.mpr fun t ht => Factors.every_iff.mpr fun f hf => ?_
    obtain ⟨hkey, -⟩ := Factors.every_iff.mp (every_iff.mp h t ht) f hf
    cases hk : f.key with
    | atom x => exact ⟨trivial, trivial⟩
    | composite us =>
      rw [hk] at hkey
      exact ⟨ih t ht f hf us hk hkey, fun _ _ => hkey⟩

/-- Before quotients are restored, the exponents that are written are those of the terms. -/
theorem noNegativePower_toExpr_iff (ts : List (Term α)) :
    (toExpr ts).NoNegativePower ↔ NonnegativePowers ts := by
  induction ts using nested_induction with
  | step ts ih =>
    rw [toExpr_iff (R := fun es => ∀ e ∈ es, e.NoNegativePower) (fun _ _ => Expr.noNegativePower_add)
      (fun _ _ => Expr.noNegativePower_sub) (Expr.noNegativePower_num 0) fun c es => ?_]
    · unfold NonnegativePowers
      rw [every_iff]
      refine forall₂_congr fun t ht => ?_
      rw [Factors.every_iff, Factors.toExprs_eq_map, List.forall_mem_map]
      refine forall₂_congr fun f hf => ?_
      rw [Expr.noNegativePower_powerExpr]
      refine and_congr_left' ?_
      cases hk : f.key with
      | atom x => exact iff_of_true trivial trivial
      | composite us => exact ih t ht f hf us hk
    · rw [monomialExpr, Expr.noNegativePower_foldl_mul, and_iff_right (Expr.noNegativePower_num c)]

section Restored

variable (hneg : ∀ v : α, Scalar.isNegative v = true → Scalar.isNegative (-v) = false)

include hneg

/-- A factor is cleared exactly if its base is, unless that is a sum without an exponent. -/
theorem every_fraction_powerExpr_iff {k : Key α} (e : α)
    (hbase : ∀ us, k = .composite us →
      ((toExpr us).restoreDivision.NoNegativePower ↔ Restorable us)) :
    (powerExpr k.toExpr e).fraction.Every Expr.NoNegativePower ↔
      k.Every (fun _ => True) Reached ∧ Reached k e := by
  unfold powerExpr
  cases k with
  | atom x =>
    refine iff_of_true ?_ ⟨trivial, trivial⟩
    split_ifs
    · exact (Expr.Fraction.every_singleton _).mpr trivial
    · exact (Expr.Fraction.noNegativePower_ofPower hneg _ e).mpr trivial
  | composite us =>
    have hrestored := hbase us rfl
    split_ifs with hone
    · by_cases hsum : 2 ≤ us.length
      -- a sum is one factor and stays as it is
      · have hfraction := Expr.IsSum.fraction_eq ((isSum_toExpr_iff us).mpr hsum)
        rw [Key.toExpr, hfraction, Expr.Fraction.every_singleton, noNegativePower_toExpr_iff]
        exact ⟨fun h => ⟨h.restorable, fun _ _ => h⟩, fun h => h.2 hone hsum⟩
      -- the factors of a single term are factors of the product
      · have hsingle := Expr.noNegativePower_restoreDivision (mt (isSum_toExpr_iff us).mp hsum)
        rw [Key.toExpr, ← hsingle, hrestored]
        exact (and_iff_left fun _ hlength => absurd hlength hsum).symm
    · have hpower := Expr.Fraction.noNegativePower_ofPower hneg (toExpr us).restoreDivision e
      exact (hpower.trans hrestored).trans (and_iff_left fun h => absurd h hone).symm

theorem noNegativePower_restoreDivision_toExpr_iff (ts : List (Term α)) :
    (toExpr ts).restoreDivision.NoNegativePower ↔ Restorable ts := by
  induction ts using nested_induction with
  | step ts ih =>
    have hterm (c : α) (es : List (Expr α)) :
        (monomialExpr c es).restoreDivision.NoNegativePower ↔
          ∀ e ∈ es, e.fraction.Every Expr.NoNegativePower := by
      have hnum : (Expr.num c).fraction.Every Expr.NoNegativePower :=
        (Expr.Fraction.every_singleton _).mpr trivial
      rw [monomialExpr, Expr.noNegativePower_restoreDivision (Expr.not_isSum_foldl_mul id es),
        Expr.every_fraction_foldl_mul, and_iff_right hnum]
    rw [toExpr_iff (Q := fun e => e.restoreDivision.NoNegativePower)
      (fun _ _ => Expr.noNegativePower_add) (fun _ _ => Expr.noNegativePower_sub) trivial hterm]
    unfold Restorable
    rw [every_iff]
    refine forall₂_congr fun t ht => ?_
    rw [Factors.every_iff, Factors.toExprs_eq_map, List.forall_mem_map]
    exact forall₂_congr fun f hf => every_fraction_powerExpr_iff hneg f.exponent (ih t ht f hf)

end Restored

end Terms

/-! ## Derivatives -/

/-- Evaluation brings in no exponents. -/
theorem Expr.NoNegativePower.evaluate {x : String} {e r : Expr α} (he : e.NoNegativePower)
    (hshape : e.Arithmetic) (h : e.evaluate x = .ok r) : r.NoNegativePower := by
  induction hshape generalizing r with
  | num v => cases h; trivial
  | var y => cases h; trivial
  | @join op l r hop hl hr ihl ihr =>
    obtain ⟨l', r', hl', hr', hm⟩ := evaluate_bin h
    have hnotPow : op ≠ .pow := by
      rintro rfl
      simp [Operator.joins] at hop
    exact EveryNode.evaluateNode (ihl he.2.1 hl') (ihr he.2.2 hr') (fun hop => absurd hop hnotPow) hm
  | power hb ih =>
    obtain ⟨b', k, hb', hk, hm⟩ := evaluate_bin h
    cases hk
    exact EveryNode.evaluateNode (ih he.2.1 hb') (noNegativePower_num _) he.1 hm
  | marker ht => exact ht.elim

/-- After quotients are restored, the tree of some terms has no negative power exactly if no sum among them
stands without an exponent and has a negative exponent inside. A derivative is the restored tree of its terms,
evaluated, and has no negative power if its terms are such. -/
theorem noNegativePower_iff_restorable
    (hneg : ∀ v : α, Scalar.isNegative v = true → Scalar.isNegative (-v) = false) :
    (∀ ts : List (Term α), (Terms.toExpr ts).restoreDivision.NoNegativePower ↔ Terms.Restorable ts) ∧
    ∀ (options : Options) (text : List UInt8) (x : String) (s : Solution α),
      options.restoreDivision = true → (differentiate options text x).outcome = .ok s →
      ∃ (p n m e : Expr α) (k : ℕ) (ts : List (Term α)), Expr.parse text = .ok p ∧
        p.distribute = .ok n ∧ n.derive k = .ok m ∧ m.evaluate x = .ok e ∧ e.canonicalTerms = .ok ts ∧
        (Terms.toExpr ts).restoreDivision.evaluate x = .ok s.expr ∧
        (Terms.Restorable ts → s.expr.NoNegativePower) := by
  have hterms := Terms.noNegativePower_restoreDivision_toExpr_iff hneg
  refine ⟨hterms, fun options text x s hrestore hs => ?_⟩
  obtain ⟨p, n, m, k, hparse, hdist, hderive, hfinish⟩ :=
    Differentiation.pipeline_eq_ok (differentiate_eq_ok hs)
  obtain ⟨e, ts, hev, hts, hresult⟩ := Differentiation.finish_eq_ok_canonicalTerms hfinish
  rw [if_pos hrestore] at hresult
  refine ⟨p, n, m, e, k, ts, hparse, hdist, hderive, hev, hts, hresult, fun hrestorable => ?_⟩
  have hshape := Expr.fractional_arithmetic.restoreDivision (Terms.undivided_toExpr ts).arithmetic
  exact ((hterms ts).mpr hrestorable).evaluate hshape hresult

section Rational

open scoped Rational

/-- A product with a quotient inside a divisor. -/
def quotientInDivisor : Expr ℚ :=
  .mul (.var "x") (.pow (.add (.div (.num 1) (.var "y")) (.num 1)) (-1))

/-- The derivative cannot be evaluated before the last layer has been reached. -/
theorem evaluate_derive_quotientInDivisor {m e : Expr ℚ} {k : ℕ} (hm : quotientInDivisor.derive k = .ok m)
    (he : m.evaluate "x" = .ok e) : e = .pow (.add (.div (.num 1) (.var "y")) (.num 1)) (-1) := by
  have hshape : quotientInDivisor.Arithmetic :=
    .join (by decide) (.var _) (.power (.join (by decide) (.join (by decide) (.num _) (.var _)) (.num _)))
  have hearly : ∀ j : Fin 4, (quotientInDivisor.derive (j : ℕ) >>= Expr.evaluate "x").isOk = false := by
    decide +kernel
  have hlate : (quotientInDivisor.derive 4 >>= Expr.evaluate "x") =
      .ok (.pow (.add (.div (.num 1) (.var "y")) (.num 1)) (-1)) := by
    decide +kernel
  have hrun : (quotientInDivisor.derive k >>= Expr.evaluate "x") = .ok e := by rw [hm]; exact he
  obtain hk | hk := Nat.lt_or_ge k 4
  · have hfails := hearly ⟨k, hk⟩
    rw [hrun] at hfails
    cases hfails
  · rw [hshape.derive_congr (Int.ofNat_le.mpr hk) (le_refl 4), hlate] at hrun
    exact (Except.ok.inj hrun).symm

/-- Terms with a negative exponent inside a base that has an exponent itself and inside a single term, and a
derivative with a quotient inside a divisor. -/
theorem noNegativePower_iff_restorable_divisor :
    let terms : List (Term Float) :=
      [⟨3, [⟨.atom "x", -2⟩, ⟨.composite [⟨1, [⟨.atom "y", -1⟩]⟩, ⟨1, []⟩], -1⟩]⟩,
        ⟨-2, [⟨.composite [⟨5, [⟨.atom "z", -1⟩]⟩], 1⟩]⟩]
    let composed : Expr ℚ :=
      .mul (.num 1) (.pow (.add (.mul (.num 1) (.pow (.var "y") (-1))) (.num 1)) (-1))
    (∀ v : Float, Scalar.isNegative v = true → Scalar.isNegative (-v) = false) ∧
    Terms.Restorable terms ∧ (Terms.toExpr terms).restoreDivision.NoNegativePower ∧
    ∃ (s : Solution ℚ) (ts : List (Term ℚ)),
      (differentiate {} (Utf8.bytes "x*(1/y+1)^-1") "x").outcome = .ok s ∧
      Terms.toExpr ts = composed ∧ Terms.Restorable ts ∧
      composed.restoreDivision.evaluate "x" = .ok s.expr ∧
      s.expr = .div (.num 1) (.add (.div (.num 1) (.var "y")) (.num 1)) ∧ s.expr.NoNegativePower := by
  intro terms composed
  have hexponents : ((-2 : Float) == 1) = false ∧ ((-1 : Float) == 1) = false := by decide +kernel
  have hterms : Terms.Restorable terms := by
    simp [Terms.Restorable, Terms.Every, Factors.Every, Key.Every, Terms.Reached, terms, hexponents]
  refine ⟨fun _ => Floating.isNegative_neg, hterms,
    ((noNegativePower_iff_restorable fun _ => Floating.isNegative_neg).1 terms).mpr hterms, ?_⟩
  have hneg (v : ℚ) (hv : Scalar.isNegative v = true) : Scalar.isNegative (-v) = false := by
    rw [ExactScalar.isNegative_iff] at hv
    rw [Bool.eq_false_iff, ne_eq, ExactScalar.isNegative_iff, ExactScalar.value_neg]
    exact not_lt.mpr (neg_nonneg.mpr hv.le)
  obtain ⟨s, hs⟩ := exists_ok_of_isOk
    (x := (differentiate (α := ℚ) {} (Utf8.bytes "x*(1/y+1)^-1") "x").outcome) (by decide +kernel)
  obtain ⟨p, n, m, e, k, ts, hparse, hdist, hderive, hev, hts, hresult, hrestorable⟩ :=
    (noNegativePower_iff_restorable hneg).2 {} _ "x" s rfl hs
  have hparsed : Expr.parse (Utf8.bytes "x*(1/y+1)^-1") = .ok quotientInDivisor := by decide +kernel
  have hdistributed : quotientInDivisor.distribute = .ok quotientInDivisor := by decide +kernel
  cases hparsed.symm.trans hparse
  cases hdistributed.symm.trans hdist
  obtain rfl := evaluate_derive_quotientInDivisor hderive hev
  have hcomposed : Terms.toExpr ts = composed := by
    have hrun : Except.map Terms.toExpr (.ok ts) = (.ok composed : Except (PassError ℚ) (Expr ℚ)) := by
      rw [← hts]
      decide +kernel
    exact Except.ok.inj hrun
  have hsafe : Terms.Restorable ts := by
    rw [← (noNegativePower_iff_restorable hneg).1, hcomposed]
    decide +kernel
  rw [hcomposed] at hresult
  have hsimplified : composed.restoreDivision.evaluate "x" =
      .ok (.div (.num 1) (.add (.div (.num 1) (.var "y")) (.num 1))) := by
    decide +kernel
  exact ⟨s, ts, hs, hcomposed, hsafe, hresult, Except.ok.inj (hresult.symm.trans hsimplified),
    hrestorable hsafe⟩

/-- A negative exponent inside a sum that stands without an exponent is not restored, and a derivative may
have such a sum. -/
theorem negative_power_survives :
    ¬(Terms.toExpr [⟨2, [⟨.composite [⟨1, [⟨.atom "y", -1⟩]⟩, ⟨1, []⟩], 1⟩]⟩] :
      Expr Float).restoreDivision.NoNegativePower ∧
    ∃ s : Solution ℚ, (differentiate {} (Utf8.bytes "x*((1/y+1)^-1)^-1") "x").outcome = .ok s ∧
      ¬s.expr.NoNegativePower :=
  ⟨by decide +kernel, exists_ok_and_not (by decide +kernel)⟩

end Rational

end Fluxion
