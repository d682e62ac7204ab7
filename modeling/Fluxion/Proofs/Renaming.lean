import Fluxion.Scalar.Float
import Fluxion.Proofs.Renaming.Reading

/-!
# Results do not depend on names

Stage by stage, a differentiation of the renamed text with respect to the renamed variable does what the
differentiation of the text does: it fails at the same stage, or it arrives at the renamed tree after the
same number of depths.
-/

namespace Fluxion

variable {α : Type}

/-- A derivative with its variables renamed. -/
def Derivative.rename (f : String → String) (d : Derivative α) : Derivative α :=
  ⟨d.expr.rename f, d.iterations⟩

namespace Differentiation

variable {β β' γ γ' ε : Type}

theorem mirrors_bind {g : β → β'} {h : γ → γ'} {m : Traced ε β} {m' : Traced ε β'}
    (hm : Mirrors g m.outcome m'.outcome) {k : β → Traced ε γ} {k' : β' → Traced ε γ'}
    (hk : ∀ b, m.outcome = .ok b → Mirrors h (k b).outcome (k' (g b)).outcome) :
    Mirrors h (m >>= k).outcome (m' >>= k').outcome := by
  rw [Traced.outcome_bind_eq, Traced.outcome_bind_eq]
  exact hm.bind hk

theorem bound_rename (options : Options) (e : Expr α) (f : String → String) :
    bound options (e.rename f) = bound options e := by
  rw [bound, bound, Expr.depth_rename]

variable [Scalar α]

theorem mirrors_runPass {g : Expr α → Expr α} {r r' : Except (PassError α) (Expr α)}
    (h : Mirrors g r r') (stage : Stage) (depth : ℕ) :
    Mirrors g (runPass stage depth r).outcome (runPass stage depth r').outcome := by
  refine mirrors_bind (g := g) ?_ fun e _ => rfl
  exact h.mapError

variable {f : String → String}

/-- One depth after the other, the search does the same on renamed trees. -/
theorem mirrors_settle (hf : Function.Injective f) (limit : ℕ) (e : Expr α) (remaining depth : ℕ)
    (previous : Option (Expr α)) :
    Mirrors (Derivative.rename f) (settle limit e remaining depth previous).outcome
      (settle limit (e.rename f) remaining depth (previous.map (Expr.rename f))).outcome := by
  induction remaining generalizing depth previous with
  | zero => rfl
  | succ remaining ih =>
    refine mirrors_bind (mirrors_runPass (e.mirrors_derive depth) .derive depth) fun current _ => ?_
    cases previous with
    | none => exact ih (depth + 1) (some current)
    | some p =>
      show Mirrors _ (if p.same current then _ else _ : Traced _ _).outcome
        (if (p.rename f).same (current.rename f) then _ else _ : Traced _ _).outcome
      rw [Expr.same_rename hf]
      split
      · rfl
      · exact ih (depth + 1) (some current)

theorem mirrors_fixedPoint (hf : Function.Injective f) (options : Options) (e : Expr α) :
    Mirrors (Derivative.rename f) (fixedPoint options e).outcome
      (fixedPoint options (e.rename f)).outcome := by
  rw [fixedPoint, fixedPoint, bound_rename]
  exact mirrors_settle hf _ e _ 1 none

end Differentiation

section Legible

variable [LegibleScalar α] (σ : Renaming)

namespace Differentiation

theorem mirrors_finish (options : Options) (x : String) {e : Expr α} (he : e.Lettered) :
    Mirrors (Expr.rename σ.apply) (finish options x e).outcome
      (finish options (σ.apply x) (e.rename σ.apply)).outcome := by
  have hevaluate (e : Expr α) := e.mirrors_evaluate σ.apply_injective x
  refine mirrors_bind (mirrors_runPass (hevaluate e) .evaluate 0) fun evaluated h => ?_
  have he : evaluated.Lettered := fun y hy =>
    he y (Expr.names_evaluate_subset (outcome_runPass.mp h) hy)
  refine mirrors_bind (mirrors_runPass evaluated.mirrors_distribute .expand 0) fun expanded h => ?_
  have he := Expr.hereditary_lettered.distributeIn he (outcome_runPass.mp h)
  refine mirrors_bind (mirrors_runPass expanded.mirrors_removeDivision .removeDivision 0)
    fun undivided h => ?_
  have he := he.removeDivision (outcome_runPass.mp h)
  refine mirrors_bind (g := List.map (Term.rename σ.apply))
    (Expr.mirrors_decompose σ he).mapError fun terms h => ?_
  have hterms := he.endsIn_decompose.of_ok (mapError_eq_ok.mp h)
  dsimp only
  rw [Terms.group_rename σ hterms, Terms.toExpr_rename]
  refine mirrors_bind (g := id) ?_ fun _ _ => mirrors_bind (g := Expr.rename σ.apply) ?_
    fun composed _ => ?_
  · rfl
  · rfl
  split
  · refine mirrors_bind (g := Expr.rename σ.apply) ?_ fun restored _ =>
      mirrors_runPass (hevaluate restored) .simplify 0
    rw [Expr.restoreDivision_rename]
    rfl
  · refine mirrors_bind (g := Expr.rename σ.apply) ?_ fun restored _ =>
      mirrors_runPass (hevaluate restored) .simplify 0
    rfl

theorem mirrors_pipeline (options : Options) (text : List UInt8) (x : String) :
    Mirrors (Derivative.rename σ.apply) (pipeline (α := α) options text x).outcome
      (pipeline options (σ.text text) (σ.apply x)).outcome := by
  rw [pipeline, pipeline, σ.isIdentifier_apply]
  split
  · refine mirrors_bind (g := Expr.rename σ.apply) (Expr.mirrors_parse σ text).mapError
      fun parsed h => ?_
    have hparsed := (Expr.grammatical_parse (mapError_eq_ok.mp h)).lettered
    refine mirrors_bind (g := Expr.rename σ.apply) ?_ fun e h => ?_
    · rfl
    rw [outcome_showing] at h
    subst h
    refine mirrors_bind (mirrors_runPass parsed.mirrors_distribute .distribute 0)
      fun distributed h => ?_
    have hdistributed := Expr.hereditary_lettered.distributeIn hparsed (outcome_runPass.mp h)
    refine mirrors_bind (mirrors_fixedPoint σ.apply_injective options distributed)
      fun derived h => ?_
    refine mirrors_bind (mirrors_finish σ options x fun y hy =>
      hdistributed y (Expr.names_derive_subset (settle_eq_ok h) hy)) fun result _ => rfl
  · rfl

end Differentiation

/-- Results do not depend on how variables are spelled. Differentiating the renamed text fails exactly when
differentiating the text does, and otherwise gives the renamed tree after the same number of depths; the
terms of a renamed tree, and renamed terms once they are grouped, are the renamed ones in the same
order. -/
theorem differentiate_rename :
    (∀ (options : Options) (text : List UInt8) (x : String),
      Mirrors (fun s : Solution α => (s.expr.rename σ.apply, s.iterations))
        (differentiate options text x).outcome
        ((differentiate (α := α) options (σ.text text) (σ.apply x)).outcome.map
          fun s => (s.expr, s.iterations))) ∧
    (∀ e : Expr α, e.Lettered →
      Mirrors (List.map (Term.rename σ.apply)) e.canonicalTerms (e.rename σ.apply).canonicalTerms) ∧
    ∀ ts : List (Term α), Terms.Lettered ts →
      Terms.group (ts.map (Term.rename σ.apply)) = (Terms.group ts).map (Term.rename σ.apply) := by
  refine ⟨fun options text x => ?_, fun e => Expr.mirrors_canonicalTerms σ,
    fun ts => Terms.group_rename σ⟩
  have h := Differentiation.mirrors_pipeline (α := α) σ options text x
  rw [differentiate, differentiate]
  generalize Differentiation.pipeline (α := α) options text x = run at h ⊢
  generalize Differentiation.pipeline (α := α) options (σ.text text) (σ.apply x) = run' at h ⊢
  obtain ⟨steps, outcome⟩ := run
  obtain ⟨steps', outcome'⟩ := run'
  cases outcome with
  | error cause =>
    cases outcome' with
    | error cause' => rfl
    | ok d => cases h
  | ok d =>
    cases h.eq_ok rfl
    rfl

end Legible

/-- Two identifiers exchange their names. -/
def Renaming.exchange {x y : String} (hx : isIdentifier x = true) (hy : isIdentifier y = true) :
    Renaming where
  map := Equiv.swap x y
  isIdentifier_map {z} hz := by
    rw [Equiv.swap_apply_def]
    split_ifs
    · exact hy
    · exact hx
    · exact hz
  map_injective _ _ h := (Equiv.swap x y).injective h

/-- With the names of two variables exchanged, the derivative of a sum comes out with the names exchanged,
and so do the terms of a tree and terms with a composite key. -/
theorem differentiate_rename_exchange :
    let σ := Renaming.exchange (x := "x") (y := "y") (by decide +kernel) (by decide +kernel)
    let e : Expr Float := .add (.mul (.var "x") (.num 2)) (.var "y")
    let ts : List (Term Float) := [⟨1, [⟨.atom "y", 1⟩]⟩, ⟨2, [⟨.composite [⟨1, [⟨.atom "x", 1⟩]⟩], -1⟩]⟩]
    (∃ s s' : Solution Float,
      (differentiate {} (Utf8.bytes "x*y+x^3") "x").outcome = .ok s ∧
      (differentiate {} (Utf8.bytes "y*x+y^3") "y").outcome = .ok s' ∧
      s'.expr = s.expr.rename σ.apply ∧ s'.iterations = s.iterations) ∧
    (e.Lettered ∧ ∃ us, e.canonicalTerms = .ok us ∧
      (e.rename σ.apply).canonicalTerms = .ok (us.map (Term.rename σ.apply))) ∧
    Terms.Lettered ts ∧
      Terms.group (ts.map (Term.rename σ.apply)) = (Terms.group ts).map (Term.rename σ.apply) := by
  intro σ e ts
  obtain ⟨hdifferentiate, hterms, hgroup⟩ := differentiate_rename (α := Float) σ
  have hletters : LettersOnly "x" ∧ LettersOnly "y" := by
    unfold LettersOnly
    decide +kernel
  have he : e.Lettered := by
    intro y hy
    have hnames : y = "x" ∨ y = "y" := by simpa [e, Expr.names] using hy
    rcases hnames with rfl | rfl
    · exact hletters.1
    · exact hletters.2
  have hts : Terms.Lettered ts :=
    ⟨⟨⟨hletters.2, trivial⟩, trivial⟩, ⟨⟨⟨⟨⟨hletters.1, trivial⟩, trivial⟩, trivial⟩, trivial⟩, trivial⟩,
      trivial⟩
  refine ⟨?_, ⟨he, ?_⟩, hts, hgroup ts hts⟩
  · have htext : σ.text (Utf8.bytes "x*y+x^3") = Utf8.bytes "y*x+y^3" := by decide +kernel
    have hx : σ.apply "x" = "y" := by decide +kernel
    obtain ⟨s, hs⟩ := exists_ok_of_isOk
      (x := (differentiate (α := Float) {} (Utf8.bytes "x*y+x^3") "x").outcome) (by decide +kernel)
    have hrenamed := (hdifferentiate {} (Utf8.bytes "x*y+x^3") "x").eq_ok hs
    rw [htext, hx] at hrenamed
    obtain ⟨s', hs', hsame⟩ := map_eq_ok.mp hrenamed
    obtain ⟨hexpr, hiterations⟩ := Prod.mk.inj hsame
    exact ⟨s, s', hs, hs', hexpr, hiterations⟩
  · obtain ⟨us, hus⟩ := exists_ok_of_isOk (x := e.canonicalTerms) (by decide +kernel)
    exact ⟨us, hus, (hterms e he).eq_ok hus⟩

end Fluxion
