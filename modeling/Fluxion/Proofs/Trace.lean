import Fluxion.Scalar.Float
import Fluxion.Session
import Fluxion.Proofs.Differentiation

/-!
# What a differentiation records

A differentiation is its stages, performed one after the other on what the stage before left: `perform` is
one stage with the step that it records, and `follow` a list of stages up to the first that fails. The
whole pipeline follows `Stage.order options k` for the depth `k` at which the derivative settles, so what
it records is a beginning of that list, complete exactly if it succeeds (`Faithful`). A session adds the
steps of its differentiations to those that its recorder holds.
-/

namespace Fluxion

variable {α : Type}

namespace Traced

variable {ε β γ : Type}

instance : LawfulMonad (Traced ε) := LawfulMonad.mk' _
  (fun m => by
    obtain ⟨steps, outcome⟩ := m
    cases outcome with
    | error err => rfl
    | ok b => exact congrArg (Traced.mk · (.ok b)) (List.append_nil steps))
  (fun b f => rfl)
  (fun m f g => by
    obtain ⟨steps, outcome⟩ := m
    cases outcome with
    | error err => rfl
    | ok b =>
      show Traced.bind (Traced.bind _ f) g = Traced.bind _ fun b => Traced.bind (f b) g
      simp only [Traced.bind]
      cases (f b).outcome with
      | error err => rfl
      | ok c => simp [List.append_assoc])

/-- What comes after a computation matters only for the value that it returns. -/
theorem bind_congr_outcome {m : Traced ε β} {f g : β → Traced ε γ}
    (h : ∀ b, m.outcome = .ok b → f b = g b) : (m >>= f) = (m >>= g) := by
  obtain ⟨steps, outcome⟩ := m
  cases outcome with
  | error err => rfl
  | ok b =>
    show Traced.bind _ f = Traced.bind _ g
    simp only [Traced.bind, h b rfl]

end Traced

/-! ## The order of the stages -/

namespace Stage

/-- The stages before the rules of differentiation are applied. -/
def opening : List (Stage × ℕ) := [(parse, 0), (distribute, 0)]

/-- The rules at `count` depths from `first` on. -/
def derivations (first count : ℕ) : List (Stage × ℕ) := (List.range' first count).map (derive, ·)

/-- The stages after the derivative has settled. -/
def closing (options : Options) : List (Stage × ℕ) :=
  [(evaluate, 0), (expand, 0), (removeDivision, 0), (group, 0), (compose, 0)] ++
    (if options.restoreDivision then [(restoreDivision, 0)] else []) ++ [(simplify, 0)]

/-- All stages in order, each with its depth, when the derivative settles at depth `k`. -/
def order (options : Options) (k : ℕ) : List (Stage × ℕ) :=
  opening ++ derivations 1 k ++ closing options

end Stage

/-- The stage of a step and its depth. -/
def Step.place (s : Step) : Stage × ℕ := (s.stage, s.depth)

/-! ## One stage after the other -/

/-- What the stages work on. -/
structure Work (α : Type) where
  /-- The tree that the rules of differentiation are applied to. -/
  start : Expr α
  /-- The tree that the last stage left. -/
  current : Expr α

/-- Before anything has been read. -/
def Work.blank : Work α := ⟨.hole, .hole⟩

namespace Differentiation

variable [Scalar α] (text : List UInt8) (x : String)

/-- One stage by itself: what it makes of the work so far, and the step that it records. -/
def perform (place : Stage × ℕ) (w : Work α) : Traced (Cause α) (Work α) :=
  match place.1 with
  | .parse => do
    let e ← Traced.lift ((Expr.parse text).mapError Cause.source)
    let e ← showing .parse place.2 e
    return ⟨e, e⟩
  | .distribute => do
    let e ← runPass .distribute place.2 w.current.distribute
    return ⟨e, e⟩
  | .derive => Work.mk w.start <$> runPass .derive place.2 (w.start.derive place.2)
  | .evaluate => Work.mk w.start <$> runPass .evaluate place.2 (w.current.evaluate x)
  | .expand => Work.mk w.start <$> runPass .expand place.2 w.current.distribute
  | .removeDivision => Work.mk w.start <$> runPass .removeDivision place.2 w.current.removeDivision
  | .group => do
    let terms ← Traced.lift (w.current.decompose.mapError Cause.pass)
    let grouped := Terms.group terms
    Traced.record ⟨.group, place.2, Terms.format grouped, (Terms.toExpr grouped).latex⟩
    return ⟨w.start, Terms.toExpr grouped⟩
  | .compose => Work.mk w.start <$> showing .compose place.2 w.current
  | .restoreDivision =>
    Work.mk w.start <$> showing .restoreDivision place.2 w.current.restoreDivision
  | .simplify => Work.mk w.start <$> runPass .simplify place.2 (w.current.evaluate x)

/-- Stages one after the other, up to the first that fails. -/
def follow : List (Stage × ℕ) → Work α → Traced (Cause α) (Work α)
  | [], w => pure w
  | place :: rest, w => do
    let w' ← perform text x place w
    follow rest w'

theorem follow_append (ps qs : List (Stage × ℕ)) (w : Work α) :
    follow text x (ps ++ qs) w = (follow text x ps w >>= follow text x qs) := by
  induction ps generalizing w with
  | nil => simp [follow]
  | cons p ps ih => simp [follow, ih]

/-- One stage can fail for the cause: the text cannot be read, or a pass fails. -/
def StageCause : Cause α → Prop
  | .source err => Expr.parse text = (.error err : Except ParseError (Expr α))
  | .pass _ => True
  | .invalidVariable _ => False
  | .iterationLimit _ => False

/-- A stage records one step, which stands at its place and shows the tree that it leaves; a stage that
fails records nothing. -/
theorem perform_cases (place : Stage × ℕ) (w : Work α) :
    (∃ cause, perform text x place w = ⟨[], .error cause⟩ ∧ StageCause text cause) ∨
    ∃ s w', perform text x place w = ⟨[s], .ok w'⟩ ∧ s.place = place ∧
      s.latex = w'.current.latex ∧ (place.1 ≠ .group → s.text = w'.current.print) := by
  -- a pass that leaves a tree behind is recorded with it
  have hpass (stage : Stage) (depth : ℕ) (r : Except (PassError α) (Expr α)) :
      (∃ cause, Work.mk w.start <$> runPass stage depth r = ⟨[], .error cause⟩ ∧
        StageCause text cause) ∨
      ∃ s w', Work.mk w.start <$> runPass stage depth r = ⟨[s], .ok w'⟩ ∧ s.place = (stage, depth) ∧
        s.latex = w'.current.latex ∧ (stage ≠ .group → s.text = w'.current.print) := by
    cases r with
    | error err => exact Or.inl ⟨_, rfl, trivial⟩
    | ok e => exact Or.inr ⟨_, _, rfl, rfl, rfl, fun _ => rfl⟩
  obtain ⟨stage, depth⟩ := place
  cases stage with
  | parse =>
    unfold perform
    cases hparse : (Expr.parse text : Except ParseError (Expr α)) with
    | error err => exact Or.inl ⟨_, rfl, hparse⟩
    | ok e => exact Or.inr ⟨_, _, rfl, rfl, rfl, fun _ => rfl⟩
  | distribute =>
    unfold perform
    cases w.current.distribute with
    | error err => exact Or.inl ⟨_, rfl, trivial⟩
    | ok e => exact Or.inr ⟨_, _, rfl, rfl, rfl, fun _ => rfl⟩
  | group =>
    unfold perform
    cases w.current.decompose with
    | error err => exact Or.inl ⟨_, rfl, trivial⟩
    | ok ts => exact Or.inr ⟨_, _, rfl, rfl, rfl, fun h => absurd rfl h⟩
  | compose => exact Or.inr ⟨_, _, rfl, rfl, rfl, fun _ => rfl⟩
  | restoreDivision => exact Or.inr ⟨_, _, rfl, rfl, rfl, fun _ => rfl⟩
  | derive => exact hpass .derive depth (w.start.derive depth)
  | evaluate => exact hpass .evaluate depth (w.current.evaluate x)
  | expand => exact hpass .expand depth w.current.distribute
  | removeDivision => exact hpass .removeDivision depth w.current.removeDivision
  | simplify => exact hpass .simplify depth (w.current.evaluate x)

/-- The steps are what the first stages of `order` record, and the next stage fails for the given cause. -/
def FailsAfter (order : List (Stage × ℕ)) (steps : List Step) (w : Work α) (cause : Cause α) : Prop :=
  ∃ place rest w', order = steps.map Step.place ++ place :: rest ∧
    follow text x (steps.map Step.place) w = ⟨steps, .ok w'⟩ ∧
    (perform text x place w').outcome = .error cause

theorem FailsAfter.stageCause {order : List (Stage × ℕ)} {steps : List Step} {w : Work α}
    {cause : Cause α} (h : FailsAfter text x order steps w cause) : StageCause text cause := by
  obtain ⟨place, rest, w', -, -, hfail⟩ := h
  rcases perform_cases text x place w' with ⟨c, hp, hc⟩ | ⟨s, w'', hp, -⟩
  · rw [hp] at hfail
    cases hfail
    exact hc
  · rw [hp] at hfail
    cases hfail

theorem follow_cons_of_ok {place : Stage × ℕ} {ps : List (Stage × ℕ)} {w w' : Work α} {s : Step}
    (h : perform text x place w = ⟨[s], .ok w'⟩) :
    follow text x (place :: ps) w =
      ⟨s :: (follow text x ps w').steps, (follow text x ps w').outcome⟩ := by
  rw [follow, h]
  rfl

/-- Every stage up to the first that fails is recorded, and no other. -/
theorem follow_cases (ps : List (Stage × ℕ)) (w : Work α) :
    (∃ steps w', follow text x ps w = ⟨steps, .ok w'⟩ ∧ steps.map Step.place = ps) ∨
    ∃ steps cause, follow text x ps w = ⟨steps, .error cause⟩ ∧
      FailsAfter text x ps steps w cause := by
  induction ps generalizing w with
  | nil => exact Or.inl ⟨[], w, rfl, rfl⟩
  | cons p ps ih =>
    rcases perform_cases text x p w with ⟨cause, hp, -⟩ | ⟨s, w₁, hp, hplace, -⟩
    · refine Or.inr ⟨[], cause, ?_, p, ps, w, rfl, rfl, by rw [hp]⟩
      rw [follow, hp]
      rfl
    · rw [follow_cons_of_ok text x hp]
      rcases ih w₁ with ⟨steps, w', hrest, hsteps⟩ | ⟨steps, cause, hrest, q, qs, w', hps, hdone, hq⟩
      · exact Or.inl ⟨s :: steps, w', by rw [hrest], by rw [List.map_cons, hplace, hsteps]⟩
      · refine Or.inr ⟨s :: steps, cause, by rw [hrest], q, qs, w', ?_, ?_, hq⟩
        · rw [List.map_cons, hplace, hps]
          rfl
        · rw [List.map_cons, hplace, follow_cons_of_ok text x hp, hdone]

/-- The last step shows the tree that the last stage leaves. -/
theorem follow_last {ps : List (Stage × ℕ)} {p : Stage × ℕ} (hp : p.1 ≠ .group) {w w' : Work α}
    (h : (follow text x (ps ++ [p]) w).outcome = .ok w') :
    ∃ s, (follow text x (ps ++ [p]) w).steps.getLast? = some s ∧ s.text = w'.current.print ∧
      s.latex = w'.current.latex := by
  induction ps generalizing w with
  | nil =>
    rcases perform_cases text x p w with ⟨cause, hlast, -⟩ | ⟨s, w₁, hlast, -, hlatex, htext⟩
    · rw [List.nil_append, follow, hlast] at h
      cases h
    · rw [List.nil_append, follow_cons_of_ok text x hlast] at h ⊢
      cases h
      exact ⟨s, rfl, htext hp, hlatex⟩
  | cons q ps ih =>
    rcases perform_cases text x q w with ⟨cause, hq, -⟩ | ⟨s, w₁, hq, -⟩
    · rw [List.cons_append, follow, hq] at h
      cases h
    · rw [List.cons_append, follow_cons_of_ok text x hq] at h ⊢
      obtain ⟨last, hlast, hshown⟩ := ih h
      exact ⟨last, by rw [List.getLast?_cons, hlast]; rfl, hshown⟩

theorem finish_eq_follow (options : Options) (n derived : Expr α) :
    finish options x derived =
      (Work.current <$> follow text x (Stage.closing options) ⟨n, derived⟩) := by
  rw [finish, Stage.closing]
  cases options.restoreDivision <;> simp [follow, perform]

/-! ### The search for a fixed point -/

section Search

variable {text x} {n e current : Expr α} {limit remaining depth : ℕ} {previous : Option (Expr α)}
  {err : PassError α}

theorem settle_of_ok (h : n.derive depth = .ok current) :
    settle limit n (remaining + 1) depth previous =
      (showing .derive depth current >>= fun _ =>
        if previous.any (·.same current) then pure ⟨current, depth⟩
        else settle limit n remaining (depth + 1) (some current)) := by
  rw [settle, h]
  cases previous <;> rfl

theorem settle_of_error (h : n.derive depth = .error err) :
    settle limit n (remaining + 1) depth previous = Traced.lift (.error (.pass err)) := by
  rw [settle, h]
  rfl

theorem follow_derivations_of_ok (h : n.derive depth = .ok current) :
    follow text x (Stage.derivations depth (remaining + 1)) ⟨n, e⟩ =
      (showing .derive depth current >>= fun _ =>
        follow text x (Stage.derivations (depth + 1) remaining) ⟨n, current⟩) := by
  rw [Stage.derivations, List.range'_succ, List.map_cons, follow]
  simp only [perform, h]
  rfl

theorem follow_derivations_of_error (h : n.derive depth = .error err) :
    follow text x (Stage.derivations depth (remaining + 1)) ⟨n, e⟩ =
      Traced.lift (.error (.pass err)) := by
  rw [Stage.derivations, List.range'_succ, List.map_cons, follow]
  simp only [perform, h]
  rfl

variable (text x) in
/-- The search applies the rules at one depth after the other. It returns the tree of the last depth,
unless it has tried all depths that it may. -/
theorem settle_eq_follow (limit : ℕ) (n : Expr α) (remaining depth : ℕ) (previous : Option (Expr α))
    (e : Expr α) :
    (∃ k, settle limit n remaining (depth + 1) previous =
      (follow text x (Stage.derivations (depth + 1) k) ⟨n, e⟩ >>= fun w =>
        pure ⟨w.current, depth + k⟩)) ∨
    settle limit n remaining (depth + 1) previous =
      (follow text x (Stage.derivations (depth + 1) remaining) ⟨n, e⟩ >>= fun _ =>
        Traced.lift (.error (.iterationLimit limit))) := by
  induction remaining generalizing depth previous e with
  | zero => exact Or.inr rfl
  | succ remaining ih =>
    cases hd : n.derive (depth + 1 : ℕ) with
    | error err =>
      right
      rw [settle_of_error hd, follow_derivations_of_error hd]
      rfl
    | ok current =>
      rw [settle_of_ok hd]
      cases hlast : previous.any (·.same current) with
      | true =>
        refine Or.inl ⟨1, ?_⟩
        rw [follow_derivations_of_ok hd, bind_assoc]
        rfl
      | false =>
        rcases ih (depth + 1) (some current) current with ⟨k, hk⟩ | hk
        · refine Or.inl ⟨k + 1, ?_⟩
          rw [follow_derivations_of_ok hd, bind_assoc, hk, Nat.add_right_comm depth 1 k]
          rfl
        · right
          rw [follow_derivations_of_ok hd, bind_assoc, hk]
          rfl

end Search

theorem pipeline_eq_opening (hx : isIdentifier x = true) (options : Options) :
    pipeline (α := α) options text x =
      (follow text x Stage.opening .blank >>= fun w =>
        fixedPoint options w.start >>= fun d =>
          finish options x d.expr >>= fun r => pure ⟨r, d.iterations⟩) := by
  rw [pipeline, if_pos hx]
  simp [Stage.opening, follow, perform]

/-- A differentiation goes through the stages in order, or it stops when the rules have been applied at all
depths that may be tried. -/
theorem pipeline_eq_follow (hx : isIdentifier x = true) (options : Options) :
    (∃ k, pipeline (α := α) options text x =
      (follow text x (Stage.order options k) .blank >>= fun w => pure ⟨w.current, k⟩)) ∨
    ∃ limit, pipeline (α := α) options text x =
      (follow text x (Stage.opening ++ Stage.derivations 1 limit) .blank >>= fun _ =>
        Traced.lift (.error (.iterationLimit limit))) := by
  rw [pipeline_eq_opening text x hx]
  cases hopen : (follow (α := α) text x Stage.opening .blank).outcome with
  | error cause =>
    refine Or.inl ⟨0, ?_⟩
    rw [Stage.order, List.append_assoc, follow_append, bind_assoc]
    refine Traced.bind_congr_outcome fun w hw => ?_
    rw [hopen] at hw
    cases hw
  | ok w =>
    rcases settle_eq_follow text x (bound options w.start) w.start
      (bound options w.start) 0 none w.current with ⟨k, hk⟩ | hlimit
    · refine Or.inl ⟨k, ?_⟩
      rw [Stage.order, List.append_assoc, follow_append, bind_assoc]
      refine Traced.bind_congr_outcome fun w' hw' => ?_
      cases hopen.symm.trans hw'
      rw [fixedPoint, hk, follow_append, bind_assoc, bind_assoc]
      refine Traced.bind_congr_outcome fun v hv => ?_
      rw [pure_bind, finish_eq_follow text x options v.start]
      simp
    · refine Or.inr ⟨bound options w.start, ?_⟩
      rw [follow_append, bind_assoc]
      refine Traced.bind_congr_outcome fun w' hw' => ?_
      cases hopen.symm.trans hw'
      rw [fixedPoint, hlimit, bind_assoc]
      rfl

end Differentiation

/-! ## Complete and incomplete traces -/

namespace Stage

/-- The stages before the last one. -/
def beforeLast (options : Options) (k : ℕ) : List (Stage × ℕ) :=
  opening ++ derivations 1 k ++
    ([(evaluate, 0), (expand, 0), (removeDivision, 0), (group, 0), (compose, 0)] ++
      if options.restoreDivision then [(restoreDivision, 0)] else [])

theorem order_eq (options : Options) (k : ℕ) :
    order options k = beforeLast options k ++ [(simplify, 0)] := by
  simp [order, beforeLast, closing]

theorem simplify_not_mem_beforeLast (options : Options) (k : ℕ) :
    (simplify, 0) ∉ beforeLast options k := by
  cases h : options.restoreDivision <;> simp [beforeLast, opening, derivations, h]

/-- What is followed by another stage does not include the last one. -/
theorem simplify_not_mem {options : Options} {k : ℕ} {done rest : List (Stage × ℕ)}
    {place : Stage × ℕ} (h : order options k = done ++ place :: rest) : (simplify, 0) ∉ done := by
  intro hmem
  rw [order_eq] at h
  have hbefore : beforeLast options k = done ++ (place :: rest).dropLast := by
    have hdrop := congrArg List.dropLast h
    rwa [List.dropLast_concat, List.dropLast_append_of_ne_nil (List.cons_ne_nil _ _)] at hdrop
  refine simplify_not_mem_beforeLast options k ?_
  rw [hbefore]
  exact List.mem_append_left _ hmem

theorem simplify_mem_order (options : Options) (k : ℕ) : (simplify, 0) ∈ order options k := by
  rw [order_eq]
  exact List.mem_append_right _ (List.mem_singleton_self _)

end Stage

namespace Differentiation

variable [Scalar α] {text : List UInt8} {x : String}

theorem FailsAfter.append {order more : List (Stage × ℕ)} {steps : List Step} {w : Work α}
    {cause : Cause α} (h : FailsAfter text x order steps w cause) :
    FailsAfter text x (order ++ more) steps w cause := by
  obtain ⟨place, rest, w', rfl, hdone, hfail⟩ := h
  exact ⟨place, rest ++ more, w', by simp, hdone, hfail⟩

/-- A text that cannot be read stops everything before the first step. -/
theorem FailsAfter.eq_nil_of_source {options : Options} {k : ℕ} {steps : List Step}
    {w : Work α} {err : ParseError}
    (h : FailsAfter text x (Stage.order options k) steps w (.source err)) : steps = [] := by
  have hparse : Expr.parse text = (.error err : Except ParseError (Expr α)) := h.stageCause
  obtain ⟨place, rest, w', horder, hdone, -⟩ := h
  cases steps with
  | nil => rfl
  | cons first steps =>
    have hfirst : first.place = (.parse, 0) := (List.cons.inj horder).1.symm
    rw [List.map_cons, hfirst, follow, perform, hparse] at hdone
    cases hdone

variable (text) in
/-- How a differentiation with respect to an identifier can end. -/
theorem pipeline_cases (hx : isIdentifier x = true) (options : Options) :
    (∃ k steps w, pipeline (α := α) options text x = ⟨steps, .ok ⟨w.current, k⟩⟩ ∧
      follow text x (Stage.order options k) .blank = ⟨steps, .ok w⟩ ∧
      steps.map Step.place = Stage.order options k) ∨
    (∃ k steps cause, pipeline (α := α) options text x = ⟨steps, .error cause⟩ ∧
      FailsAfter text x (Stage.order options k) steps .blank cause) ∨
    ∃ limit steps w, pipeline (α := α) options text x = ⟨steps, .error (.iterationLimit limit)⟩ ∧
      follow (α := α) text x (Stage.opening ++ Stage.derivations 1 limit) .blank = ⟨steps, .ok w⟩ ∧
      steps.map Step.place = Stage.opening ++ Stage.derivations 1 limit := by
  rcases pipeline_eq_follow (α := α) text x hx options with ⟨k, hk⟩ | ⟨limit, hlimit⟩
  · rw [hk]
    rcases follow_cases text x (Stage.order options k) (.blank : Work α) with
      ⟨steps, w, hrun, hplaces⟩ | ⟨steps, cause, hrun, hfails⟩
    · refine Or.inl ⟨k, steps, w, ?_, hrun, hplaces⟩
      rw [hrun]
      exact congrArg (Traced.mk · _) (List.append_nil steps)
    · refine Or.inr (Or.inl ⟨k, steps, cause, ?_, hfails⟩)
      rw [hrun]
      rfl
  · rw [hlimit]
    rcases follow_cases text x (Stage.opening ++ Stage.derivations 1 limit) (.blank : Work α) with
      ⟨steps, w, hrun, hplaces⟩ | ⟨steps, cause, hrun, hfails⟩
    · refine Or.inr (Or.inr ⟨limit, steps, w, ?_, hrun, hplaces⟩)
      rw [hrun]
      exact congrArg (Traced.mk · _) (List.append_nil steps)
    · refine Or.inr (Or.inl ⟨limit, steps, cause, ?_, hfails.append⟩)
      rw [hrun]
      rfl

end Differentiation

section Faithful

variable [Scalar α]

/-- The trace of a differentiation tells what happened: the steps stand in the order of the stages, all of
them if it succeeded, and otherwise exactly those before the stage that failed. -/
structure Faithful (options : Options) (text : List UInt8) (x : String)
    (run : Traced (Failure α) (Solution α)) : Prop where
  inOrder : ∃ k, run.steps.map Step.place <+: Stage.order options k
  /-- Each step is the one that its stage records after the stages before it. -/
  shown : ∃ w : Work α, Differentiation.follow text x (run.steps.map Step.place) .blank =
    ⟨run.steps, .ok w⟩
  succeeds_iff : (∃ s, run.outcome = .ok s) ↔ ∃ k, run.steps.map Step.place = Stage.order options k
  /-- The solution repeats the steps, and the last of them shows the derivative. -/
  solution {s : Solution α} : run.outcome = .ok s →
    run.steps.map Step.place = Stage.order options s.iterations ∧ s.steps = run.steps ∧
      ∃ last, run.steps.getLast? = some last ∧ last.text = s.text ∧ last.latex = s.latex
  invalid {f : Failure α} {name : String} : run.outcome = .error f → f.cause = .invalidVariable name →
    run.steps = []
  unreadable {f : Failure α} {err : ParseError} : run.outcome = .error f → f.cause = .source err →
    run.steps = []
  failed {f : Failure α} {err : PassError α} : run.outcome = .error f → f.cause = .pass err →
    ∃ k, Differentiation.FailsAfter text x (Stage.order options k) run.steps .blank f.cause
  limited {f : Failure α} {limit : ℕ} : run.outcome = .error f → f.cause = .iterationLimit limit →
    run.steps.map Step.place = Stage.opening ++ Stage.derivations 1 limit

variable {options : Options} {text : List UInt8} {x : String}

theorem differentiate_of_ok {steps : List Step} {d : Derivative α}
    (h : Differentiation.pipeline options text x = ⟨steps, .ok d⟩) :
    differentiate options text x = ⟨steps, .ok ⟨text, x, d.expr, d.expr.print, d.expr.latex, steps,
      d.iterations⟩⟩ := by
  rw [differentiate, h]

theorem differentiate_of_error {steps : List Step} {cause : Cause α}
    (h : Differentiation.pipeline options text x = ⟨steps, .error cause⟩) :
    differentiate options text x = ⟨steps, .error ⟨text, x, cause⟩⟩ := by
  rw [differentiate, h]

/-- A run that fails has not reached the last stage, and its cause goes with what it recorded. -/
theorem Faithful.of_error {steps : List Step} {cause : Cause α}
    (horder : ∃ k, steps.map Step.place <+: Stage.order options k)
    (hshown : ∃ w : Work α, Differentiation.follow text x (steps.map Step.place) .blank =
      ⟨steps, .ok w⟩)
    (hlast : (.simplify, 0) ∉ steps.map Step.place)
    (hcause : match cause with
      | .invalidVariable _ => steps = []
      | .source _ => steps = []
      | .pass err => ∃ k, Differentiation.FailsAfter text x (Stage.order options k) steps .blank
          (.pass err)
      | .iterationLimit limit =>
        steps.map Step.place = Stage.opening ++ Stage.derivations 1 limit) :
    Faithful options text x ⟨steps, .error ⟨text, x, cause⟩⟩ where
  inOrder := horder
  shown := hshown
  succeeds_iff := by
    constructor
    · rintro ⟨s, hs⟩
      cases hs
    · rintro ⟨k, hk⟩
      dsimp only at hk
      exact absurd (hk ▸ Stage.simplify_mem_order options k) hlast
  solution h := by cases h
  invalid h hc := by cases h; cases hc; exact hcause
  unreadable h hc := by cases h; cases hc; exact hcause
  failed h hc := by cases h; cases hc; exact hcause
  limited h hc := by cases h; cases hc; exact hcause

theorem faithful_differentiate (options : Options) (text : List UInt8) (x : String) :
    Faithful options text x (differentiate (α := α) options text x) := by
  cases hx : isIdentifier x with
  | false =>
    have hrun : Differentiation.pipeline (α := α) options text x =
        ⟨[], .error (.invalidVariable x)⟩ := by
      rw [Differentiation.pipeline, if_neg (by simp [hx])]
      rfl
    rw [differentiate_of_error hrun]
    exact .of_error ⟨0, List.nil_prefix⟩ ⟨.blank, rfl⟩ List.not_mem_nil rfl
  | true =>
    rcases Differentiation.pipeline_cases (α := α) text hx options with
      ⟨k, steps, w, hrun, hfollow, hplaces⟩ | ⟨k, steps, cause, hrun, hfails⟩ |
      ⟨limit, steps, w, hrun, hfollow, hplaces⟩
    · rw [differentiate_of_ok hrun]
      have hcomplete : (Differentiation.follow text x
          (Stage.beforeLast options k ++ [(.simplify, 0)]) .blank).outcome = .ok w := by
        rw [← Stage.order_eq, hfollow]
      obtain ⟨last, hlast, hshown⟩ := Differentiation.follow_last text x (by decide) hcomplete
      rw [← Stage.order_eq, hfollow] at hlast
      exact {
        inOrder := ⟨k, by rw [hplaces]⟩
        shown := ⟨w, by rw [hplaces, hfollow]⟩
        succeeds_iff := ⟨fun _ => ⟨k, hplaces⟩, fun _ => ⟨_, rfl⟩⟩
        solution := fun h => by cases h; exact ⟨hplaces, rfl, last, hlast, hshown⟩
        invalid := fun h => by cases h
        unreadable := fun h => by cases h
        failed := fun h => by cases h
        limited := fun h => by cases h }
    · rw [differentiate_of_error hrun]
      have hcause := hfails.stageCause
      obtain ⟨place, rest, w, horder, hdone, -⟩ := id hfails
      refine .of_error ⟨k, horder ▸ List.prefix_append _ _⟩ ⟨w, hdone⟩ (Stage.simplify_not_mem horder) ?_
      cases cause with
      | pass err => exact ⟨k, hfails⟩
      | source err => exact hfails.eq_nil_of_source
      | invalidVariable name => exact hcause.elim
      | iterationLimit limit => exact hcause.elim
    · rw [differentiate_of_error hrun]
      refine .of_error ⟨limit, ?_⟩ ⟨w, hplaces ▸ hfollow⟩ ?_ hplaces
      · rw [hplaces]
        exact List.prefix_append _ _
      · rw [hplaces]
        simp [Stage.opening, Stage.derivations]

end Faithful

/-! ## Sessions -/

namespace Session

/-- What can be done with a session. -/
inductive Action where
  /-- Differentiate a text with respect to a variable. -/
  | differentiate (text : List UInt8) (variableName : String)
  /-- Empty the recorder. -/
  | reset

variable (α) [Scalar α]

/-- The session after an action. -/
def act (s : Session) : Action → Session
  | .differentiate text x => (s.differentiate (α := α) text x).2
  | .reset => s.reset

/-- The session after some actions. -/
def replay (s : Session) (actions : List Action) : Session := actions.foldl (act α) s

/-- The steps that an action hands to the recorder. -/
def Action.steps (options : Options) : Action → List Step
  | .differentiate text x => (Fluxion.differentiate (α := α) options text x).steps
  | .reset => []

theorem options_replay (s : Session) (actions : List Action) :
    (s.replay α actions).options = s.options := by
  induction actions generalizing s with
  | nil => rfl
  | cons a actions ih =>
    refine (ih (s.act α a)).trans ?_
    cases a <;> rfl

/-- Without a reset, the recorder goes on from what it holds. -/
theorem steps_replay {actions : List Action} (h : .reset ∉ actions) (s : Session) :
    (s.replay α actions).recorder.steps =
      s.recorder.steps ++ actions.flatMap (Action.steps α s.options) := by
  induction actions generalizing s with
  | nil => exact (List.append_nil _).symm
  | cons a actions ih =>
    rw [List.mem_cons, not_or] at h
    cases a with
    | reset => exact absurd rfl h.1
    | differentiate text x =>
      refine (ih h.2 (s.act α (.differentiate text x))).trans ?_
      rw [List.flatMap_cons, ← List.append_assoc]
      rfl

end Session

/-- Every differentiation leaves a faithful trace. In a session its outcome does not depend on what came
before, and the recorder holds the steps of the differentiations since it was last emptied, one after the
other. -/
theorem differentiate_faithful [Scalar α] :
    (∀ (options : Options) (text : List UInt8) (x : String),
      Faithful options text x (differentiate (α := α) options text x)) ∧
    ∀ (s : Session) (before after : List Session.Action), .reset ∉ after →
      (∀ text x, ((s.replay α (before ++ after)).differentiate (α := α) text x).1 =
        (differentiate s.options text x).outcome) ∧
      (s.replay α after).recorder.steps =
        s.recorder.steps ++ after.flatMap (Session.Action.steps α s.options) ∧
      (s.replay α (before ++ .reset :: after)).recorder.steps =
        after.flatMap (Session.Action.steps α s.options) := by
  refine ⟨faithful_differentiate, fun s before after h => ⟨fun text x => ?_, ?_, ?_⟩⟩
  · rw [Session.differentiate, Session.options_replay]
  · exact Session.steps_replay α h s
  · have hreplay : s.replay α (before ++ .reset :: after) =
        ((s.replay α before).reset).replay α after := by
      simp [Session.replay, Session.act]
    rw [hreplay, Session.steps_replay α h]
    show [] ++ after.flatMap (Session.Action.steps α (s.replay α before).options) = _
    rw [Session.options_replay, List.nil_append]

/-- A square goes through all stages, or is stopped after one depth; a reset makes the recorder forget what
came before. -/
theorem differentiate_faithful_square :
    (∃ s : Solution Float, (differentiate {} (Utf8.bytes "x*x") "x").outcome = .ok s ∧
      s.steps.map Step.place = Stage.order {} s.iterations) ∧
    (∃ f : Failure Float, (differentiate ⟨1, true⟩ (Utf8.bytes "x*x") "x").outcome = .error f ∧
      f.cause = .iterationLimit 1 ∧
      (differentiate (α := Float) ⟨1, true⟩ (Utf8.bytes "x*x") "x").steps.map Step.place =
        [(.parse, 0), (.distribute, 0), (.derive, 1)]) ∧
    (({ options := {} } : Session).replay Float [.differentiate (Utf8.bytes "x") "x", .reset,
        .differentiate (Utf8.bytes "x*x") "x"]).recorder.steps =
      (differentiate (α := Float) {} (Utf8.bytes "x*x") "x").steps := by
  refine ⟨?_, ?_, ?_⟩
  · obtain ⟨s, hs⟩ := exists_ok_of_isOk
      (x := (differentiate (α := Float) {} (Utf8.bytes "x*x") "x").outcome) (by decide +kernel)
    obtain ⟨hplaces, hsteps, -⟩ := (differentiate_faithful.1 {} (Utf8.bytes "x*x") "x").solution hs
    exact ⟨s, hs, by rw [hsteps, hplaces]⟩
  · obtain ⟨f, hf⟩ := exists_error_of_not_isOk
      (x := (differentiate (α := Float) ⟨1, true⟩ (Utf8.bytes "x*x") "x").outcome) (by decide +kernel)
    have hcause : f.cause = .iterationLimit 1 := by
      have hlimit : (match (differentiate (α := Float) ⟨1, true⟩ (Utf8.bytes "x*x") "x").outcome with
          | .error f => decide (f.cause = .iterationLimit 1)
          | .ok _ => false) = true := by decide +kernel
      rw [hf] at hlimit
      exact of_decide_eq_true hlimit
    exact ⟨f, hf, hcause, (differentiate_faithful.1 ⟨1, true⟩ (Utf8.bytes "x*x") "x").limited hf hcause⟩
  · have h := (differentiate_faithful (α := Float)).2 { options := {} }
      [.differentiate (Utf8.bytes "x") "x"] [.differentiate (Utf8.bytes "x*x") "x"] (by simp)
    exact h.2.2.trans (List.append_nil _)

end Fluxion
