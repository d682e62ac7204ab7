import Fluxion.Differentiation
import Fluxion.Proofs.Derive
import Fluxion.Proofs.Parse
import Fluxion.Proofs.Term.Recompose

/-!
# The derivative is right

Every stage of a differentiation keeps the value of the tree, or turns it into the value of the
derivative, and keeps the conditions that the next stage relies on. Put one after the other: whatever a
differentiation returns has the derivative of what was read as its value, at every point where nothing
in what was read is undefined.
-/

namespace Fluxion

open ExactScalar

variable {α : Type}

namespace Differentiation

section Stages

variable [Scalar α]

@[simp] theorem outcome_showing {stage : Stage} {depth : ℕ} {e e' : Expr α} :
    (showing stage depth e).outcome = .ok e' ↔ e = e' := by
  rw [showing, Except.ok.injEq]

@[simp] theorem outcome_runPass {stage : Stage} {depth : ℕ} {r : Except (PassError α) (Expr α)}
    {e : Expr α} : (runPass stage depth r).outcome = .ok e ↔ r = .ok e := by
  simp [runPass]

/-- What the search for a fixed point returns was derived at the depth that it reports. -/
theorem settle_eq_ok {limit : ℕ} {e : Expr α} {remaining depth : ℕ} {previous : Option (Expr α)}
    {d : Derivative α} (h : (settle limit e remaining depth previous).outcome = .ok d) :
    e.derive d.iterations = .ok d.expr := by
  induction remaining generalizing depth previous with
  | zero => cases h
  | succ remaining ih =>
    rw [settle, Traced.outcome_bind] at h
    obtain ⟨current, hcurrent, h⟩ := h
    rw [outcome_runPass] at hcurrent
    cases previous with
    | none => exact ih h
    | some p =>
      dsimp only at h
      split at h
      · cases h
        exact hcurrent
      · exact ih h

/-- The passes behind the last stages. -/
theorem finish_eq_ok {options : Options} {x : String} {m r : Expr α}
    (h : (finish options x m).outcome = .ok r) :
    ∃ evaluated expanded undivided terms, m.evaluate x = .ok evaluated ∧
      evaluated.distribute = .ok expanded ∧ expanded.removeDivision = .ok undivided ∧
      undivided.decompose = .ok terms ∧
      (if options.restoreDivision then (Terms.toExpr (Terms.group terms)).restoreDivision
        else Terms.toExpr (Terms.group terms)).evaluate x = .ok r := by
  simp only [finish, Traced.outcome_bind, outcome_runPass, Traced.outcome_lift, mapError_eq_ok,
    outcome_showing, Traced.outcome_record] at h
  obtain ⟨evaluated, hev, expanded, hex, undivided, hun, terms, hterms, -, -, composed, rfl, hr⟩ := h
  refine ⟨evaluated, expanded, undivided, terms, hev, hex, hun, hterms, ?_⟩
  split at hr
  · rename_i hopt
    simp only [Traced.outcome_bind, outcome_showing, outcome_runPass] at hr
    obtain ⟨restored, rfl, hr⟩ := hr
    rw [if_pos hopt]
    exact hr
  · rename_i hopt
    simp only [Traced.outcome_bind, Traced.outcome_pure, Except.ok.injEq, outcome_runPass] at hr
    obtain ⟨restored, rfl, hr⟩ := hr
    rw [if_neg hopt]
    exact hr

/-- The last stages put their result together from the canonical terms of the evaluated tree. -/
theorem finish_eq_ok_canonicalTerms {options : Options} {x : String} {m r : Expr α}
    (h : (finish options x m).outcome = .ok r) :
    ∃ evaluated terms, m.evaluate x = .ok evaluated ∧ evaluated.canonicalTerms = .ok terms ∧
      (if options.restoreDivision then (Terms.toExpr terms).restoreDivision
        else Terms.toExpr terms).evaluate x = .ok r := by
  obtain ⟨evaluated, expanded, undivided, terms, hev, hex, hun, hterms, hr⟩ := finish_eq_ok h
  exact ⟨evaluated, Terms.group terms, hev,
    Expr.canonicalTerms_eq_ok.mpr ⟨expanded, undivided, terms, hex, hun, hterms, rfl⟩, hr⟩

/-- The passes behind all stages, the last of which record what the whole records last. -/
theorem exists_passes_of_pipeline {options : Options} {text : List UInt8} {x : String}
    {d : Derivative α} (h : (pipeline options text x).outcome = .ok d) :
    ∃ parsed distributed derived, Expr.parse text = .ok parsed ∧
      parsed.distribute = .ok distributed ∧ distributed.derive d.iterations = .ok derived ∧
      (finish options x derived).outcome = .ok d.expr ∧
      (finish options x derived).steps <:+ (pipeline (α := α) options text x).steps := by
  rw [pipeline] at h ⊢
  split at h
  · rename_i hx
    rw [if_pos hx]
    simp only [Traced.outcome_bind, Traced.outcome_lift, outcome_showing, outcome_runPass,
      Traced.outcome_pure, Except.ok.injEq] at h
    obtain ⟨parsed, hparsed, _, rfl, distributed, hdist, derived, hderived, result, hresult, rfl⟩ := h
    refine ⟨parsed, distributed, derived.expr, mapError_eq_ok.mp hparsed, hdist,
      settle_eq_ok hderived, hresult, ?_⟩
    refine Traced.suffix_steps_bind hparsed (Traced.suffix_steps_bind rfl
      (Traced.suffix_steps_bind (outcome_runPass.mpr hdist) (Traced.suffix_steps_bind hderived ?_)))
    rw [Traced.steps_bind_pure]
  · cases h

/-- The passes behind all stages. -/
theorem pipeline_eq_ok {options : Options} {text : List UInt8} {x : String} {d : Derivative α}
    (h : (pipeline options text x).outcome = .ok d) :
    ∃ parsed distributed derived, ∃ k : ℕ, Expr.parse text = .ok parsed ∧
      parsed.distribute = .ok distributed ∧ distributed.derive k = .ok derived ∧
      (finish options x derived).outcome = .ok d.expr := by
  obtain ⟨parsed, distributed, derived, hparsed, hdist, hderived, hresult, -⟩ :=
    exists_passes_of_pipeline h
  exact ⟨parsed, distributed, derived, d.iterations, hparsed, hdist, hderived, hresult⟩

end Stages

variable [ExactScalar α] {ρ : String → ℚ} {x : String}

/-- The last stages turn markers into numbers and keep the value from there on. -/
theorem finish_sound {options : Options} {m r : Expr α} (hx : m.Lettered) (hint : m.IntegerPowers)
    (hg : m.Guarded ρ x) (h : (finish options x m).outcome = .ok r) :
    r.valueAt ρ = m.denote (resolvedAt ρ x) ∧ r.PoleFree ρ := by
  obtain ⟨evaluated, expanded, undivided, terms, hev, hex, hun, hterms, hr⟩ := finish_eq_ok h
  obtain ⟨hvalue, hint', hpole'⟩ := Expr.evaluate_sound hint hg hev
  have hx' : evaluated.Lettered := fun y hy => hx y (Expr.names_evaluate_subset hev hy)
  obtain ⟨hsound, hgroup⟩ := Expr.group_decompose_sound
    (Expr.hereditary_lettered.distributeIn hx' hex) (hint'.distributeIn hex)
    (hpole'.distributeIn hex) hun hterms
  obtain ⟨hreg, hcomposed⟩ := hsound.toExpr_represents
  rw [hgroup, Expr.valueAt_distributeIn hex, hvalue] at hcomposed
  -- with or without restored quotients, a regular tree of the same value is simplified
  have hfinal : ∀ e : Expr α, e.Regular ρ → e.valueAt ρ = m.denote (resolvedAt ρ x) →
      e.evaluate x = .ok r → r.valueAt ρ = m.denote (resolvedAt ρ x) ∧ r.PoleFree ρ := by
    intro e ⟨hmark, hinte, hpolee⟩ he her
    obtain ⟨hvr, -, hpr⟩ := Expr.evaluate_sound hinte (hpolee.guarded hmark) her
    rw [Expr.denote_resolvedAt hmark] at hvr
    exact ⟨hvr.trans he, hpr⟩
  split at hr
  · exact hfinal _ hreg.restoreDivision (by rw [Expr.valueAt_restoreDivision, hcomposed]) hr
  · exact hfinal _ hreg hcomposed hr

end Differentiation

/-! ## From text to derivative -/

/-- The result of a differentiation has the derivative of the text as its value, at every point where
no divisor and no base of a negative power in the text is zero, whichever options were chosen. -/
theorem differentiate_valueAt [ExactScalar α] (options : Options) (text : List UInt8) (x : String)
    (n : Expr α) (s : Solution α) (ρ : String → ℚ) (hparse : Expr.parse text = .ok n)
    (hint : n.IntegerPowers) (hpole : n.PoleFree ρ)
    (h : (differentiate options text x).outcome = .ok s) :
    s.expr.valueAt ρ = n.derivativeAt ρ x ∧ s.expr.PoleFree ρ := by
  rw [differentiate] at h
  dsimp only at h
  split at h
  · rename_i d hd
    cases h
    obtain ⟨parsed, n', m, k, hparsed, hdist, hderive, hfinish⟩ := Differentiation.pipeline_eq_ok hd
    rw [hparse] at hparsed
    cases hparsed
    have hgram := Expr.grammatical_parse hparse
    have hx' := Expr.hereditary_lettered.distributeIn hgram.lettered hdist
    have hm' := Expr.hereditary_markerFree.distributeIn hgram.markerFree hdist
    obtain ⟨hvalue, hguard, hintm⟩ := Expr.derive_sound (ρ := ρ) (x := x) hm'
      (hint.distributeIn hdist) (hpole.distributeIn hdist) hderive
    rw [Expr.derivativeAt_distributeIn hdist] at hvalue
    rw [← hvalue]
    exact Differentiation.finish_sound (fun y hy => hx' y (Expr.names_derive_subset hderive hy))
      hintm hguard hfinish
  · cases h

section Rational

open scoped Rational

/-- A quotient and a power at `x = 1`, `y = 2`, through all the stages. -/
theorem differentiate_valueAt_quotient :
    ∃ s : Solution ℚ, (differentiate {} (Utf8.bytes "1/(x+y)+x^3") "x").outcome = .ok s ∧
      s.expr.valueAt (fun z => if z = "x" then 1 else 2) = 26 / 9 := by
  obtain ⟨s, hs⟩ := exists_ok_of_isOk
    (x := (differentiate (α := ℚ) {} (Utf8.bytes "1/(x+y)+x^3") "x").outcome) (by decide +kernel)
  have hparse : Expr.parse (Utf8.bytes "1/(x+y)+x^3") = .ok (.add
      (.div (.num 1) (.add (.var "x") (.var "y"))) (.pow (.var "x") 3) : Expr ℚ) := by
    decide +kernel
  obtain ⟨hvalue, -⟩ := differentiate_valueAt {} (Utf8.bytes "1/(x+y)+x^3") "x" _ s
    (fun z => if z = "x" then 1 else 2) hparse (by decide +kernel) (by decide +kernel) hs
  refine ⟨s, hs, hvalue.trans ?_⟩
  have hthree : integer (3 : ℚ) = 3 := integer_of_value_eq rfl
  have hone : value (1 : ℚ) = 1 := rfl
  have hne : "y" ≠ "x" := by decide
  rw [Expr.derivativeAt_add, Expr.derivativeAt_div _ _ _ _ (by decide +kernel),
    Expr.derivativeAt_pow _ _ _ _ (by decide +kernel)]
  simp only [Expr.derivativeAt_num, Expr.derivativeAt_add, Expr.derivativeAt_var, Expr.valueAt_num,
    Expr.valueAt_add, Expr.valueAt_var, hthree, hone]
  norm_num [hne]

end Rational

end Fluxion
