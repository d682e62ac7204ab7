import Fluxion.Proofs.Decimal.Reading
import Fluxion.Proofs.Settling

/-!
# Numbers that are not finite

Evaluation refuses a result that is not finite, and so does the power of a term. Products of
coefficients, sums of exponents and sums of like terms are not looked at. So the terms of a tree with
finite numbers are finite exactly as long as finite numbers have finite sums and products, and it is
from its terms that a derivative gets what is not finite. Floating point numbers overflow, and an
infinite coefficient is returned as if nothing had happened.
-/

namespace Fluxion

variable {α : Type}

/-- The scalar is neither infinite nor undefined. -/
def Scalar.IsFinite [Scalar α] (v : α) : Prop := Scalar.isFinite v = true

instance [Scalar α] (v : α) : Decidable (Scalar.IsFinite v) :=
  inferInstanceAs (Decidable (Scalar.isFinite v = true))

/-- The tree has finite numbers only. -/
abbrev Expr.IsFinite [Scalar α] (e : Expr α) : Prop := e.EveryNumber Scalar.IsFinite

/-- The terms have finite coefficients and exponents only, those inside composite keys included. -/
abbrev Terms.IsFinite [Scalar α] (ts : List (Term α)) : Prop := Terms.EveryNumber Scalar.IsFinite ts

/-- Scalars for which the numbers that a computation starts from are finite, opposites of finite numbers
are finite, and what is not finite is not taken for zero. -/
class FiniteScalar (α : Type) extends Scalar α where
  isFinite_zero : Scalar.IsFinite (0 : α)
  isFinite_one : Scalar.IsFinite (1 : α)
  isFinite_two : Scalar.IsFinite (Scalar.two : α)
  isFinite_ofDecimal {digits places : ℕ} {v : α} :
    Scalar.ofDecimal? digits places = some v → Scalar.IsFinite v
  isFinite_neg {v : α} : Scalar.IsFinite v → Scalar.IsFinite (-v)
  beq_zero_of_not_isFinite {v : α} : ¬Scalar.IsFinite v → (v == 0) = false

/-! ## Floating point numbers -/

instance : FiniteScalar Float where
  isFinite_zero := by decide +kernel
  isFinite_one := by decide +kernel
  isFinite_two := by decide +kernel
  isFinite_ofDecimal := Floating.isFinite_of_ofDecimal
  isFinite_neg := Floating.isFinite_neg
  beq_zero_of_not_isFinite h :=
    Bool.eq_false_iff.mpr fun hzero => h (Floating.isFinite_of_beq_zero hzero)

/-! ## Terms -/

section Constants

variable [Scalar α]

/-- A number is a term, unless it is zero. -/
theorem Terms.group_constant (v : α) :
    Terms.group [.constant v] = if v == 0 then [] else [.constant v] := by
  rw [Terms.group_eq]
  cases hzero : v == 0 <;>
    simp [Terms.groupWith, Terms.mergeWith, Terms.insertSigned, Term.canonicalWith, Term.constant,
      Factors.insertAll, hzero]

/-- Two numbers that are multiplied become one term, unless their product is zero. -/
theorem Expr.canonicalTerms_mul_num (a b : α) :
    (Expr.mul (.num a) (.num b)).canonicalTerms =
      .ok (if a * b == 0 then [] else [⟨a * b, []⟩]) :=
  congrArg Except.ok (Terms.group_constant (a * b))

/-- Two numbers that are added become one term, unless their sum is zero. -/
theorem Expr.canonicalTerms_add_num (a b : α) :
    (Expr.add (.num a) (.num b)).canonicalTerms =
      .ok (if a + b == 0 then [] else [⟨a + b, []⟩]) := by
  show Except.ok (Terms.group [⟨a, []⟩, ⟨b, []⟩]) = _
  rw [Terms.group_eq]
  cases hzero : a + b == 0 <;>
    simp [Terms.groupWith, Terms.mergeWith, Terms.insertSigned, Term.canonicalWith,
      Factors.insertAll, Term.signatureWith, hzero]

end Constants

section Finite

variable [FiniteScalar α]

/-- Without overflow, finite numbers stay finite in all that is computed with terms. -/
theorem FiniteScalar.closed (h : ∀ a b : α, Scalar.IsFinite a → Scalar.IsFinite b →
    Scalar.IsFinite (a + b) ∧ Scalar.IsFinite (a * b)) : Scalar.Closed (Scalar.IsFinite : α → Prop) where
  one := isFinite_one
  neg := isFinite_neg
  add ha hb := (h _ _ ha hb).1
  mul ha hb := (h _ _ ha hb).2
  finite hv := hv

/-- A number that is not finite is not dropped from a list of terms. -/
theorem FiniteScalar.isFinite_of_terms {v : α}
    (h : Terms.IsFinite (if v == 0 then [] else [⟨v, []⟩])) : Scalar.IsFinite v := by
  by_contra hv
  rw [beq_zero_of_not_isFinite hv] at h
  exact hv h.1.1

theorem Expr.IsFinite.evaluate {e r : Expr α} {x : String} (he : e.IsFinite)
    (h : e.evaluate x = .ok r) : r.IsFinite :=
  (EveryNumber.endsIn_evaluate FiniteScalar.isFinite_zero FiniteScalar.isFinite_one (fun _ hv => hv) he
    x).of_ok h

/-- The last stages put the result together from the terms of the evaluated tree, and bring in no number
that is not finite. -/
theorem Differentiation.exists_terms_of_finish {options : Options} {x : String} {m r : Expr α}
    (h : (finish options x m).outcome = .ok r) :
    ∃ (e : Expr α) (ts : List (Term α)), m.evaluate x = .ok e ∧ e.canonicalTerms = .ok ts ∧
      (Terms.IsFinite ts → r.IsFinite) := by
  obtain ⟨evaluated, terms, hev, hterms, hr⟩ := finish_eq_ok_canonicalTerms h
  refine ⟨evaluated, terms, hev, hterms, fun hfinite => ?_⟩
  have hneg (v : α) : Scalar.IsFinite v → Scalar.IsFinite (-v) := FiniteScalar.isFinite_neg
  have hnames : Terms.Named (fun _ => True) terms :=
    Terms.every_of_forall (fun _ => trivial) (fun _ _ => trivial) _
  have hcomposed := (composes_everyNumber FiniteScalar.isFinite_zero hneg).toExpr hnames hfinite
  split at hr
  · exact Expr.IsFinite.evaluate
      ((Expr.fractional_everyNumber FiniteScalar.isFinite_one hneg).restoreDivision hcomposed) hr
  · exact Expr.IsFinite.evaluate hcomposed hr

theorem exists_terms_of_differentiate {options : Options} {text : List UInt8} {x : String}
    {s : Solution α} (hs : (differentiate options text x).outcome = .ok s) :
    ∃ (p n m e : Expr α) (k : ℕ) (ts : List (Term α)), Expr.parse text = .ok p ∧
      p.distribute = .ok n ∧ n.derive k = .ok m ∧ m.evaluate x = .ok e ∧
      e.canonicalTerms = .ok ts ∧ (Terms.IsFinite ts → s.expr.IsFinite) := by
  obtain ⟨p, n, m, k, hparse, hdist, hderive, hfinish⟩ :=
    Differentiation.pipeline_eq_ok (differentiate_eq_ok hs)
  obtain ⟨e, ts, hev, hts, hfinite⟩ := Differentiation.exists_terms_of_finish hfinish
  exact ⟨p, n, m, e, k, ts, hparse, hdist, hderive, hev, hts, hfinite⟩

/-- What evaluation computes from finite numbers is finite. The terms of every tree with finite numbers are
finite exactly when sums and products of finite numbers are. A derivative is finite if the terms that it was
put together from are; so every derivative is, if sums, differences and products of finite numbers are. -/
theorem isFinite_iff_no_overflow :
    (∀ (e r : Expr α) (x : String), e.IsFinite → e.evaluate x = .ok r → r.IsFinite) ∧
    ((∀ (n : Expr α) (ts : List (Term α)), n.IsFinite → n.canonicalTerms = .ok ts →
        Terms.IsFinite ts) ↔
      ∀ a b : α, Scalar.IsFinite a → Scalar.IsFinite b →
        Scalar.IsFinite (a + b) ∧ Scalar.IsFinite (a * b)) ∧
    (∀ (options : Options) (text : List UInt8) (x : String) (s : Solution α),
      (differentiate options text x).outcome = .ok s →
      ∃ (p n m e : Expr α) (k : ℕ) (ts : List (Term α)), Expr.parse text = .ok p ∧
        p.distribute = .ok n ∧ n.derive k = .ok m ∧ m.evaluate x = .ok e ∧
        e.canonicalTerms = .ok ts ∧ (Terms.IsFinite ts → s.expr.IsFinite)) ∧
    ((∀ a b : α, Scalar.IsFinite a → Scalar.IsFinite b →
        Scalar.IsFinite (a + b) ∧ Scalar.IsFinite (a - b) ∧ Scalar.IsFinite (a * b)) →
      ∀ (options : Options) (text : List UInt8) (x : String) (s : Solution α),
        (differentiate options text x).outcome = .ok s → s.expr.IsFinite) := by
  refine ⟨fun e r x he h => he.evaluate h, ⟨fun h a b ha hb => ⟨?_, ?_⟩, fun h n ts hn hts => ?_⟩,
    fun _ _ _ _ => exists_terms_of_differentiate, fun h options text x s hs => ?_⟩
  · exact FiniteScalar.isFinite_of_terms (h (.add (.num a) (.num b)) _ ⟨ha, hb⟩
      (Expr.canonicalTerms_add_num a b))
  · exact FiniteScalar.isFinite_of_terms (h (.mul (.num a) (.num b)) _ ⟨ha, hb⟩
      (Expr.canonicalTerms_mul_num a b))
  · exact (Expr.EveryNumber.canonicalTerms (FiniteScalar.closed h) hn).of_ok hts
  · have hQ : Scalar.Closed (Scalar.IsFinite : α → Prop) :=
      FiniteScalar.closed fun a b ha hb => ⟨(h a b ha hb).1, (h a b ha hb).2.2⟩
    have hliteral (v : α) (hv : Numeral.IsValue v) : Scalar.IsFinite v := by
      obtain ⟨literal, hv⟩ := hv
      exact FiniteScalar.isFinite_ofDecimal hv
    obtain ⟨p, n, m, e, k, ts, hparse, hdist, hderive, hev, hts, hfinite⟩ :=
      exists_terms_of_differentiate hs
    have hp := (Expr.grammatical_parse hparse).everyNumber hliteral fun _ => hQ.neg
    have hn := (Expr.hereditary_everyNumber _).distributeIn hp hdist
    have hm := hn.derive (fun v hv => (h v 1 hv hQ.one).2.1) FiniteScalar.isFinite_two hderive
    exact hfinite ((Expr.EveryNumber.canonicalTerms hQ (Expr.IsFinite.evaluate hm hev)).of_ok hts)

end Finite

/-- Floating point numbers do overflow: a product of two finite numbers has a term that is not finite, and
the derivative of a text may have a number that is not finite. -/
theorem overflow_not_reported :
    (∃ (n : Expr Float) (ts : List (Term Float)), n.IsFinite ∧ n.canonicalTerms = .ok ts ∧
      ¬Terms.IsFinite ts) ∧
    ∃ s : Solution Float, (differentiate {}
      (Utf8.bytes "(10000000000000000000000000000000*x)^10") "x").outcome = .ok s ∧
      ¬s.expr.IsFinite := by
  constructor
  · have hfinite : Scalar.IsFinite (1e200 : Float) := by decide +kernel
    have hover : ¬Scalar.IsFinite (1e200 * 1e200 : Float) := by decide +kernel
    generalize (1e200 : Float) = v at hfinite hover
    exact ⟨.mul (.num v) (.num v), _, ⟨hfinite, hfinite⟩, Expr.canonicalTerms_mul_num v v,
      fun h => hover (FiniteScalar.isFinite_of_terms h)⟩
  · have hover : ((differentiate (α := Float) {}
        (Utf8.bytes "(10000000000000000000000000000000*x)^10") "x").outcome.map
          fun s => decide s.expr.IsFinite).toOption = some false := by
      decide +kernel
    generalize (differentiate (α := Float) {} _ "x").outcome = outcome at hover
    cases outcome with
    | error f => cases hover
    | ok s => exact ⟨s, rfl, of_decide_eq_false (Option.some.inj hover)⟩

end Fluxion
