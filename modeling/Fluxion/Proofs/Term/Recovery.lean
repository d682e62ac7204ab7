import Fluxion.Term.Recompose
import Fluxion.Proofs.Overflow
import Fluxion.Proofs.Term.Grouped
import Fluxion.Proofs.Term.Names

/-!
# Taking apart what was put together

Grouped terms can be read off the expression that is built from them. A coefficient and its powers are
multiplied from the left, so that their product is one term again with the factors in the same order; a sum
lists the terms one after the other; and a term that is subtracted has lost its sign before and gets it back.
A composite key comes back as it was, because the terms inside it are recovered first and are grouped
already. Only the empty list is not recovered: its expression is the number zero, which is a term.
-/

namespace Fluxion

variable {α : Type}

/-! ## Signs and the number one -/

/-- Finite scalars that compare with zero and one as numbers do. -/
class SignedScalar (α : Type) extends FiniteScalar α where
  zero_eq_zero : ((0 : α) == 0) = true
  one_ne_zero : ((1 : α) == 0) = false
  eq_one {v : α} : (v == 1) = true → v = 1
  neg_eq_zero {v : α} : Scalar.IsFinite v → (-v == 0) = (v == 0)
  isNegative_eq {v : α} : Scalar.IsFinite v → (v == 0) = false →
    Scalar.isNegative v = !Scalar.isPositive v
  text_zero : Scalar.text (0 : α) = "0"

/-- The laws of arithmetic that taking terms apart relies on. -/
structure Scalar.Unital (α : Type) [Scalar α] : Prop where
  mul_one {v : α} : Scalar.IsFinite v → v * 1 = v
  one_mul {v : α} : Scalar.IsFinite v → 1 * v = v
  one_pow {v : α} : Scalar.IsFinite v → Scalar.pow 1 v = 1
  neg_neg {v : α} : Scalar.IsFinite v → -(-v) = v

namespace Floating

theorem eq_one_of_beq {x : Float} (h : (x == 1) = true) : x = 1 :=
  (eq_or_zero_of_beq h).resolve_right fun hzero => absurd hzero.2 (by decide +kernel)

theorem isNegative_eq {x : Float} (hx : x.isFinite = true) (hzero : (x == 0) = false) :
    Scalar.isNegative x = !Scalar.isPositive x := by
  have hfinite : x.toModel.unpack.isFinite = true := hx
  have hunpack : (0 : Float).toModel.unpack = .zero .positive := rfl
  show decide (x < 0) = !decide (0 < x)
  rw [Bool.eq_iff_iff, Bool.not_eq_true', decide_eq_true_iff, decide_eq_false_iff_not, lt_iff, lt_iff,
    hunpack]
  cases hu : x.toModel.unpack with
  | notANumber =>
    rw [hu] at hfinite
    cases hfinite
  | infinity s =>
    rw [hu] at hfinite
    cases hfinite
  | zero s =>
    rw [(beq_zero_iff x).mpr ⟨s, hu⟩] at hzero
    cases hzero
  | finite s m e hm =>
    cases s with
    | negative => exact iff_of_true rfl Bool.false_ne_true
    | positive => exact iff_of_false Bool.false_ne_true fun hnot => hnot rfl

end Floating

instance : SignedScalar Float where
  zero_eq_zero := by decide +kernel
  one_ne_zero := by decide +kernel
  eq_one := Floating.eq_one_of_beq
  neg_eq_zero {x} _ := Floating.neg_beq_zero x
  isNegative_eq := Floating.isNegative_eq
  text_zero := by decide +kernel

/-! ## Presentable terms -/

/-- A composite key has at least two terms and an exponent other than one. -/
def Terms.Compound [Scalar α] (ts : List (Term α)) : Prop :=
  ∀ t ∈ ts, ∀ f ∈ t.factors, ∀ us, f.key = .composite us →
    2 ≤ us.length ∧ (f.exponent == 1) = false

/-- Grouped terms with finite numbers, in which every composite key needs to be one. -/
structure Terms.Presentable [Scalar α] (ts : List (Term α)) : Prop where
  grouped : Terms.group ts = ts
  finite : Terms.IsFinite ts
  compound : Terms.Throughout Terms.Compound ts

namespace Terms.Presentable

section Scalar

variable [Scalar α] {ts : List (Term α)} (h : Terms.Presentable ts)

include h

theorem reduced {t : Term α} (ht : t ∈ ts) : t.Reduced :=
  (Terms.grouped_iff.mpr h.grouped).here.reduced t ht

theorem isFinite_coefficient {t : Term α} (ht : t ∈ ts) : Scalar.IsFinite t.coefficient :=
  (Terms.everyNumber_iff.mp h.finite t ht).1

theorem isFinite_exponent {t : Term α} (ht : t ∈ ts) {f : Factor α} (hf : f ∈ t.factors) :
    Scalar.IsFinite f.exponent :=
  (Factors.everyNumber_iff.mp (Terms.everyNumber_iff.mp h.finite t ht).2 f hf).2

theorem inside {t : Term α} (ht : t ∈ ts) {f : Factor α} (hf : f ∈ t.factors) {us : List (Term α)}
    (hk : f.key = .composite us) : Terms.Presentable us := by
  have hkey := (Factors.everyNumber_iff.mp (Terms.everyNumber_iff.mp h.finite t ht).2 f hf).1
  have hgrouped : Terms.Grouped ts := Terms.grouped_iff.mpr h.grouped
  rw [hk] at hkey
  exact ⟨Terms.grouped_iff.mp (hgrouped.inside ht hf hk), hkey, h.compound.inside ht hf hk⟩

end Scalar

/-- Grouped terms over variables only. -/
theorem of_depth_eq_zero [Scalar α] {ts : List (Term α)} (hgroup : Terms.group ts = ts)
    (h : ∀ t ∈ ts, Scalar.IsFinite t.coefficient ∧
      ∀ f ∈ t.factors, f.key.depth = 0 ∧ Scalar.IsFinite f.exponent) :
    Terms.Presentable ts := by
  have hatom : ∀ t ∈ ts, ∀ f ∈ t.factors, ∀ us, f.key ≠ .composite us := by
    intro t ht f hf us hk
    have hdepth := ((h t ht).2 f hf).1
    rw [hk] at hdepth
    exact Nat.succ_ne_zero _ hdepth
  have hfinite : Terms.IsFinite ts := by
    refine Terms.everyNumber_iff.mpr fun t ht => ⟨(h t ht).1, ?_⟩
    refine Factors.everyNumber_iff.mpr fun f hf => ⟨?_, ((h t ht).2 f hf).2⟩
    cases hk : f.key with
    | atom y => trivial
    | composite us => exact absurd hk (hatom t ht f hf us)
  exact ⟨hgroup, hfinite, .intro (fun t ht f hf us hk => absurd hk (hatom t ht f hf us))
    fun t ht f hf us hk => absurd hk (hatom t ht f hf us)⟩

end Terms.Presentable

/-! ## Recovering terms -/

section Nodes

variable [Scalar α] {l r : Expr α} {ts us : List (Term α)} (hl : l.decompose = .ok ts)
  (hr : r.decompose = .ok us)

include hl hr

theorem Expr.decompose_add : (Expr.add l r).decompose = .ok (ts ++ us) := by
  rw [Expr.decompose, hl]
  show (do let us ← r.decompose; _) = _
  rw [hr]
  rfl

theorem Expr.decompose_sub : (Expr.sub l r).decompose = .ok (ts ++ us.map Term.neg) := by
  rw [Expr.decompose, hl]
  show (do let us ← r.decompose; _) = _
  rw [hr]
  rfl

theorem Expr.decompose_mul : (Expr.mul l r).decompose = .ok (Terms.mul ts us) := by
  rw [Expr.decompose, hl]
  show (do let us ← r.decompose; _) = _
  rw [hr]
  rfl

end Nodes

section Recovery

variable [SignedScalar α]

theorem Term.ofFactors_single (c : α) {f : Factor α} (h : (f.exponent == 0) = false) :
    Term.ofFactors c [f] = ⟨c, [f]⟩ := by
  have hinsert : Factors.insertAll Key.canonical [] [f] = [f] :=
    Factors.insertAll_eq_append (by simp) (by simpa using h)
  rw [Term.ofFactors, hinsert]

/-- A variable on its own is a grouped list of terms. -/
theorem Terms.group_variable (x : String) :
    Terms.group [⟨1, [⟨.atom x, 1⟩]⟩] = ([⟨1, [⟨.atom x, 1⟩]⟩] : List (Term α)) := by
  refine Terms.Grouped.group_eq (.intro ⟨by simp, ?_⟩ (by simp))
  refine List.forall_mem_singleton.mpr ⟨SignedScalar.one_ne_zero, by simp, ?_⟩
  exact List.forall_mem_singleton.mpr SignedScalar.one_ne_zero

variable (hlaws : Scalar.Unital α)

include hlaws

theorem Terms.pow_variable (x : String) {e : α} (he : Scalar.IsFinite e) :
    Terms.pow [⟨1, [⟨.atom x, 1⟩]⟩] e = .ok [⟨1, [⟨.atom x, e⟩]⟩] := by
  have hfinite : Scalar.isFinite (1 : α) = true := FiniteScalar.isFinite_one
  unfold Terms.pow Term.pow
  rw [Terms.group_variable]
  dsimp only
  rw [hlaws.one_pow he, if_pos hfinite, List.map_singleton, hlaws.one_mul he]
  rfl

/-- A power is recovered if the terms of its base are. -/
theorem Factor.decompose_powerExpr {f : Factor α} (hfinite : Scalar.IsFinite f.exponent)
    (hne : (f.exponent == 0) = false)
    (hkey : ∀ us, f.key = .composite us → (Terms.toExpr us).decompose = .ok us ∧
      Terms.group us = us ∧ 2 ≤ us.length ∧ (f.exponent == 1) = false) :
    (powerExpr f.key.toExpr f.exponent).decompose = .ok [⟨1, [f]⟩] := by
  obtain ⟨k, e⟩ := f
  dsimp only at hfinite hne hkey ⊢
  cases k with
  | atom x =>
    have hvar : (Expr.var x : Expr α).decompose = .ok [⟨1, [⟨.atom x, 1⟩]⟩] := by
      rw [Expr.decompose, Term.ofFactors_single _ SignedScalar.one_ne_zero]
    unfold powerExpr
    split
    · rename_i hone
      rw [SignedScalar.eq_one hone]
      exact hvar
    · show (Expr.pow (.var x) e).decompose = _
      rw [Expr.decompose, hvar]
      exact Terms.pow_variable hlaws x hfinite
  | composite us =>
    obtain ⟨hus, hgroup, hlength, hone⟩ := hkey us rfl
    have hpow : Terms.pow us e = .ok [⟨1, [⟨.composite us, e⟩]⟩] := by
      unfold Terms.pow
      rw [hgroup]
      -- a base of one term would be raised factor by factor
      rcases us with _ | ⟨t, _ | ⟨u, us⟩⟩
      · simp at hlength
      · simp at hlength
      · exact congrArg (fun v => Except.ok [v]) (Term.ofFactors_single 1 hne)
    unfold powerExpr
    rw [hone]
    show (Expr.pow (Terms.toExpr us) e).decompose = _
    rw [Expr.decompose, hus]
    exact hpow

/-- Multiplying by powers one after the other appends their factors. -/
theorem Factors.decompose_foldl {c : α} (hc : Scalar.IsFinite c) {gs fs : List (Factor α)}
    {e : Expr α} (he : e.decompose = .ok [⟨c, gs⟩])
    (hnames : ((gs ++ fs).map fun f => f.key.canonical).Nodup)
    (hexponents : ∀ f ∈ gs ++ fs, (f.exponent == 0) = false)
    (hpower : ∀ f ∈ fs, (powerExpr f.key.toExpr f.exponent).decompose = .ok [⟨1, [f]⟩]) :
    ((Factors.toExprs fs).foldl .mul e).decompose = .ok [⟨c, gs ++ fs⟩] := by
  -- what has been multiplied so far stays a single term, with the factors met so far
  induction fs generalizing gs e with
  | nil => rw [Factors.toExprs, List.append_nil]; exact he
  | cons f fs ih =>
    obtain ⟨hf, hfs⟩ := List.forall_mem_cons.mp hpower
    have hmove : gs ++ [f] ++ fs = gs ++ f :: fs := by simp
    have happend : Factors.insertAll Key.canonical gs [f] = gs ++ [f] := by
      rw [← hmove, List.map_append] at hnames
      rw [← hmove] at hexponents
      exact Factors.insertAll_eq_append (List.nodup_append.mp hnames).1
        fun g hg => hexponents g (List.mem_append_left _ hg)
    have hproduct : (Expr.mul e (powerExpr f.key.toExpr f.exponent)).decompose =
        .ok [⟨c, gs ++ [f]⟩] := by
      have hmul : Terms.mul [⟨c, gs⟩] [⟨1, [f]⟩] = [⟨c, gs ++ [f]⟩] := by
        simp [Terms.mul, Term.mul, happend, hlaws.mul_one hc]
      rw [← hmul]
      exact Expr.decompose_mul he hf
    obtain ⟨k, x⟩ := f
    rw [Factors.toExprs, List.foldl_cons, ← hmove]
    exact ih hproduct (by rwa [hmove]) (by rwa [hmove]) hfs

/-- A term is recovered if its powers are. -/
theorem Term.decompose_monomialExpr {c : α} (hc : Scalar.IsFinite c) {fs : List (Factor α)}
    (hnames : (fs.map fun f => f.key.canonical).Nodup)
    (hexponents : ∀ f ∈ fs, (f.exponent == 0) = false)
    (hpower : ∀ f ∈ fs, (powerExpr f.key.toExpr f.exponent).decompose = .ok [⟨1, [f]⟩]) :
    (monomialExpr c (Factors.toExprs fs)).decompose = .ok [⟨c, fs⟩] := by
  have hnumber : (Expr.num c).decompose = .ok [⟨c, []⟩] := rfl
  exact Factors.decompose_foldl hlaws hc hnumber hnames hexponents hpower

/-- Terms that are added to an expression follow its own. -/
theorem Terms.decompose_addTo {e : Expr α} {ts us : List (Term α)} (he : e.decompose = .ok us)
    (hts : ∀ t ∈ ts, Scalar.IsFinite t.coefficient ∧ ∀ c, Scalar.IsFinite c →
      (monomialExpr c (Factors.toExprs t.factors)).decompose = .ok [⟨c, t.factors⟩]) :
    (Terms.addTo e ts).decompose = .ok (us ++ ts) := by
  induction ts generalizing e us with
  | nil => rw [Terms.addTo, List.append_nil]; exact he
  | cons t ts ih =>
    obtain ⟨c, fs⟩ := t
    obtain ⟨⟨hc, ht⟩, hts⟩ := List.forall_mem_cons.mp hts
    have hmove : us ++ [⟨c, fs⟩] ++ ts = us ++ ⟨c, fs⟩ :: ts := by simp
    rw [Terms.addTo, ← hmove]
    split
    · exact ih (Expr.decompose_add he (ht c hc)) hts
    -- a term that is subtracted is built without its sign and negated when it is read
    · have hneg : Term.neg ⟨-c, fs⟩ = ⟨c, fs⟩ := by rw [Term.neg, hlaws.neg_neg hc]
      rw [← hneg]
      exact ih (Expr.decompose_sub he (ht (-c) (FiniteScalar.isFinite_neg hc))) hts

/-- Terms that are not empty are recovered. -/
theorem Terms.Presentable.decompose_eq {ts : List (Term α)} (h : Terms.Presentable ts)
    (hne : ts ≠ []) : (Terms.toExpr ts).decompose = .ok ts := by
  induction ts using Terms.nested_induction with
  | step ts ih =>
    have hpower : ∀ t ∈ ts, ∀ f ∈ t.factors,
        (powerExpr f.key.toExpr f.exponent).decompose = .ok [⟨1, [f]⟩] := by
      intro t ht f hf
      refine Factor.decompose_powerExpr hlaws (h.isFinite_exponent ht hf)
        ((h.reduced ht).exponents f hf) fun us hk => ?_
      obtain ⟨hlength, hone⟩ := h.compound.here t ht f hf us hk
      have hus : us ≠ [] := by
        rintro rfl
        simp at hlength
      exact ⟨ih t ht f hf us hk (h.inside ht hf hk) hus, (h.inside ht hf hk).grouped, hlength, hone⟩
    have hterm : ∀ t ∈ ts, ∀ c, Scalar.IsFinite c →
        (monomialExpr c (Factors.toExprs t.factors)).decompose = .ok [⟨c, t.factors⟩] :=
      fun t ht c hc => Term.decompose_monomialExpr hlaws hc (h.reduced ht).names
        (h.reduced ht).exponents (hpower t ht)
    cases ts with
    | nil => exact absurd rfl hne
    | cons t ts =>
      obtain ⟨c, fs⟩ := t
      have hc : Scalar.IsFinite c := h.isFinite_coefficient (List.mem_cons_self ..)
      rw [Terms.toExpr]
      refine Terms.decompose_addTo hlaws (hterm _ (List.mem_cons_self ..) c hc) fun t ht => ?_
      exact ⟨h.isFinite_coefficient (List.mem_cons_of_mem _ ht), hterm t (List.mem_cons_of_mem _ ht)⟩

end Recovery

/-- Whatever the numbers are, the number zero is a term and groups to none. -/
theorem Terms.group_zero [SignedScalar α] : Terms.group ([.constant 0] : List (Term α)) = [] := by
  rw [Terms.group_constant, if_pos SignedScalar.zero_eq_zero]

/-- Grouped terms with finite numbers and proper composite keys are recovered from their expression, term by
term and factor by factor, unless there are none: then the expression is taken apart into the term zero.
Grouping what was recovered gives the terms in either case. -/
theorem Terms.decompose_toExpr [SignedScalar α] (hlaws : Scalar.Unital α) (ts : List (Term α))
    (h : Terms.Presentable ts) :
    (ts ≠ [] → (Terms.toExpr ts).decompose = .ok ts) ∧
      (ts = [] → (Terms.toExpr ts).decompose = .ok [.constant 0]) ∧
      (Terms.toExpr ts).decompose.map Terms.group = .ok ts := by
  refine ⟨h.decompose_eq hlaws, ?_, ?_⟩
  · rintro rfl
    rfl
  · by_cases hts : ts = []
    · subst hts
      exact congrArg Except.ok Terms.group_zero
    · rw [h.decompose_eq hlaws hts]
      exact congrArg Except.ok h.grouped

/-! ## Whole numbers -/

namespace Integral

/-- Integers, a literal being rounded to the nearest one. -/
scoped instance : Scalar ℤ where
  pow a e := a ^ e.toNat
  less a b := decide (a < b)
  isFinite _ := true
  text := Int.repr
  ofDecimal? digits places := some ((2 * digits + 10 ^ places) / (2 * 10 ^ places) : ℕ)

scoped instance : SignedScalar ℤ where
  isFinite_zero := rfl
  isFinite_one := rfl
  isFinite_two := rfl
  isFinite_ofDecimal _ := rfl
  isFinite_neg _ := rfl
  beq_zero_of_not_isFinite h := absurd rfl h
  zero_eq_zero := rfl
  one_ne_zero := rfl
  eq_one h := beq_iff_eq.mp h
  neg_eq_zero {v} _ := by
    rw [Bool.eq_iff_iff, beq_iff_eq, beq_iff_eq]
    exact neg_eq_zero
  isNegative_eq {v} _ hv := by
    have hne : v ≠ 0 := by simpa using hv
    show decide (v < 0) = !decide (0 < v)
    rw [Bool.eq_iff_iff, Bool.not_eq_true', decide_eq_true_iff, decide_eq_false_iff_not]
    omega
  text_zero := by decide +kernel

theorem unital : Scalar.Unital ℤ where
  mul_one _ := Int.mul_one _
  one_mul _ := Int.one_mul _
  one_pow {v} _ := one_pow v.toNat
  neg_neg _ := Int.neg_neg _

end Integral

section Integral

open scoped Integral

/-- The empty list is not recovered, with whole numbers no more than with floating point numbers. -/
theorem Terms.decompose_toExpr_nil :
    (Scalar.Unital ℤ ∧ Terms.Lettered ([] : List (Term ℤ)) ∧ Terms.Presentable ([] : List (Term ℤ)) ∧
      (Terms.toExpr ([] : List (Term ℤ))).decompose ≠ .ok []) ∧
    Terms.Lettered ([] : List (Term Float)) ∧ Terms.Presentable ([] : List (Term Float)) ∧
      (Terms.toExpr ([] : List (Term Float))).decompose ≠ .ok [] := by
  have hpresentable : ∀ (β : Type) [Scalar β], Terms.Presentable ([] : List (Term β)) := by
    intro β _
    exact ⟨rfl, trivial, .intro (by simp [Terms.Compound]) (by simp)⟩
  exact ⟨⟨Integral.unital, trivial, hpresentable ℤ, nofun⟩, trivial, hpresentable Float, nofun⟩

/-- Terms that start with a negative coefficient, with a power of a sum among the factors, and end with a
constant that is subtracted. -/
def Integral.mixedTerms : List (Term ℤ) :=
  [⟨-3, [⟨.atom "x", 2⟩, ⟨.composite [⟨1, [⟨.atom "x", 1⟩]⟩, ⟨-1, []⟩], -2⟩]⟩, ⟨-1, []⟩]

theorem Integral.presentable_mixedTerms : Terms.Presentable mixedTerms := by
  have hmerged : Terms.Merged mixedTerms := by
    have hconstant : (⟨-1, []⟩ : Term ℤ).signature = "constant" := Term.signature_of_nil rfl
    refine ⟨List.nodup_cons.mpr ⟨?_, List.nodup_singleton _⟩, by decide +kernel⟩
    rw [List.map_singleton, hconstant, List.mem_singleton]
    exact Term.signature_ne_constant (by simp)
  have hgrouped : Terms.Grouped mixedTerms := by
    have hinside : Terms.Grouped ([⟨1, [⟨.atom "x", 1⟩]⟩, ⟨-1, []⟩] : List (Term ℤ)) :=
      .intro (by decide +kernel) (by simp)
    exact .intro hmerged (by simpa [mixedTerms, Terms.Grouped] using hinside)
  have hcompound : Terms.Throughout Terms.Compound mixedTerms := by
    have hinside : Terms.Throughout Terms.Compound
        ([⟨1, [⟨.atom "x", 1⟩]⟩, ⟨-1, []⟩] : List (Term ℤ)) :=
      .intro (by simp [Terms.Compound]) (by simp)
    exact .intro (by simp [Terms.Compound, mixedTerms]) (by simpa [mixedTerms] using hinside)
  exact ⟨hgrouped.group_eq, Terms.everyNumber_of_forall (fun _ => rfl) _, hcompound⟩

theorem Terms.decompose_toExpr_mixed : Terms.Presentable Integral.mixedTerms ∧
    (Terms.toExpr Integral.mixedTerms).decompose = .ok Integral.mixedTerms :=
  ⟨Integral.presentable_mixedTerms,
    (Terms.decompose_toExpr Integral.unital _ Integral.presentable_mixedTerms).1 (by decide)⟩

end Integral

end Fluxion
