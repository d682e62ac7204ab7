import Fluxion.Proofs.Evaluate.Simplified
import Fluxion.Proofs.Term.Recovery
import Fluxion.Proofs.Trace

/-!
# Two ways to write terms down

Terms can be written down directly, or put together as an expression that is evaluated and then printed. For
grouped terms both give the same text. Evaluation only leaves out the coefficient one: no power is a number,
no coefficient is zero, and at most one term is a constant, so there is nothing to compute. The tree that is
left has a sum where the text has a sign, a product where it has a `*`, and parentheses around the sums that
are raised to a power.
-/

namespace Fluxion

variable {α : Type}

/-! ## Texts of evaluated trees -/

namespace Expr

/-- The tree is no number. -/
def IsSymbolic (m : Expr α) : Prop := ∀ v, m ≠ num v

theorem isSymbolic_bin (op : Operator) (l r : Expr α) : (bin op l r).IsSymbolic := nofun

theorem symbolic_of_or {m m' : Expr α} (h : m.IsSymbolic ∨ m'.IsSymbolic) : Symbolic m m' := by
  intro a b ha hb
  rcases h with h | h
  · exact h a ha
  · exact h b hb

variable [Scalar α]

theorem IsSymbolic.isNumber {m : Expr α} (h : m.IsSymbolic) (v : α) : m.isNumber v = false := by
  cases m with
  | num a => exact absurd rfl (h a)
  | var y => rfl
  | bin op l r => rfl
  | pending t => rfl
  | hole => rfl

/-- The tree `e` evaluates to `m`, which is not zero and is written as the text, without parentheses
wherever a binding of `level` is enough. -/
structure Displays (x : String) (level : ℕ) (text : String) (m e : Expr α) : Prop where
  evaluate_eq : e.evaluate x = .ok m
  ne_zero : m.isNumber 0 = false
  render_eq : ∀ min ≤ level, m.render min = text

variable {x s t : String} {l r m m' : Expr α}

theorem evaluate_eq_of_operands {op : Operator} (hl : l.evaluate x = .ok m)
    (hr : r.evaluate x = .ok m') : (bin op l r).evaluate x = evaluateNode op m m' := by
  rw [evaluate, hl, hr]
  rfl

/-- A node that nothing applies to is kept with its evaluated operands. -/
theorem evaluate_eq_bin {op : Operator} (hl : l.evaluate x = .ok m) (hr : r.evaluate x = .ok m')
    (hsym : m.IsSymbolic ∨ m'.IsSymbolic) (hfree : IdentityFree op m m') :
    (bin op l r).evaluate x = .ok (bin op m m') := by
  have hnode : Symbolic m m' := symbolic_of_or hsym
  rw [evaluate_eq_of_operands hl hr, hnode.evaluateNode_eq, hfree.simplify_eq]

theorem render_bin_of_isNegation_eq_false {op : Operator} (h : (bin op l r).isNegation = false)
    (min : ℕ) : (bin op l r).render min = enclose min op.precedence
      (l.render (leftLevel op) ++ op.symbol ++ r.render (op.precedence + 1)) := by
  rw [render, h, if_neg Bool.false_ne_true]

theorem enclose_of_le {min prec : ℕ} (h : min ≤ prec) (s : String) : enclose min prec s = s :=
  if_neg (Nat.not_lt.mpr h)

/-- As `Displays`, for a tree that is enclosed exactly where a sum has to be. -/
structure DisplaysSum (x text : String) (m e : Expr α) : Prop where
  evaluate_eq : e.evaluate x = .ok m
  isSymbolic : m.IsSymbolic
  render_eq : ∀ min, m.render min = enclose min Operator.add.precedence text

theorem DisplaysSum.displays {text : String} {e : Expr α} (h : DisplaysSum x text m e) :
    Displays x Operator.add.precedence text m e where
  evaluate_eq := h.evaluate_eq
  ne_zero := h.isSymbolic.isNumber 0
  render_eq min hmin := (h.render_eq min).trans (enclose_of_le hmin text)

theorem Displays.mono {level level' : ℕ} (hle : level' ≤ level) {text : String} {e : Expr α}
    (h : Displays x level text m e) : Displays x level' text m e :=
  ⟨h.evaluate_eq, h.ne_zero, fun min hmin => h.render_eq min (le_trans hmin hle)⟩

/-- A sum or difference of which at most one side is a number stays as it is. -/
theorem Displays.sum (op : Operator) (hop : op = .add ∨ op = .sub)
    (hl : Displays x Operator.add.precedence s m l) (hr : Displays x Operator.mul.precedence t m' r)
    (hsym : m.IsSymbolic ∨ m'.IsSymbolic) :
    DisplaysSum x (s ++ op.symbol ++ t) (bin op m m') (bin op l r) where
  evaluate_eq := by
    have hfree : IdentityFree op m m' := by
      rcases hop with rfl | rfl
      · exact ⟨hl.ne_zero, hr.ne_zero⟩
      · exact hr.ne_zero
    exact evaluate_eq_bin hl.evaluate_eq hr.evaluate_eq hsym hfree
  isSymbolic := isSymbolic_bin op m m'
  render_eq min := by
    have hneg : (bin op m m').isNegation = false := by rcases hop with rfl | rfl <;> rfl
    have hprec : op.precedence = Operator.add.precedence ∧
        leftLevel op = Operator.add.precedence := by
      rcases hop with rfl | rfl <;> exact ⟨rfl, rfl⟩
    rw [render_bin_of_isNegation_eq_false hneg, hprec.1, hprec.2, hl.render_eq _ (le_refl _),
      hr.render_eq (Operator.add.precedence + 1) (le_refl _)]

/-- A product of two trees that are no numbers stays as it is. -/
theorem Displays.mul (hm : m.IsSymbolic) (hm' : m'.IsSymbolic)
    (hl : Displays x Operator.mul.precedence s m l) (hr : Displays x Operator.pow.precedence t m' r) :
    Displays x Operator.mul.precedence (s ++ "*" ++ t) (bin .mul m m') (bin .mul l r) where
  evaluate_eq := by
    have hfree : IdentityFree .mul m m' :=
      ⟨⟨hm.isNumber 0, hm'.isNumber 0⟩, hm.isNumber 1, hm'.isNumber 1⟩
    exact evaluate_eq_bin hl.evaluate_eq hr.evaluate_eq (Or.inl hm) hfree
  ne_zero := rfl
  render_eq min hmin := by
    have hneg : (bin .mul m m').isNegation = false := hm.isNumber (-1)
    rw [render_bin_of_isNegation_eq_false hneg, enclose_of_le hmin]
    exact congrArg₂ (fun a b => a ++ "*" ++ b) (hl.render_eq _ (le_refl _)) (hr.render_eq _ (le_refl _))

/-- A power of a tree that is no number stays as it is, unless the exponent is one or zero. -/
theorem Displays.pow {base : String} {e : α} (hm : m.IsSymbolic) (hl : l.evaluate x = .ok m)
    (htext : m.render Operator.atomPrecedence = base) (h1 : (e == 1) = false) (h0 : (e == 0) = false) :
    Displays x Operator.pow.precedence (base ++ "^" ++ Scalar.text e) (bin .pow m (num e))
      (bin .pow l (num e)) where
  evaluate_eq := evaluate_eq_bin hl rfl (Or.inl hm) ⟨h1, h0⟩
  ne_zero := rfl
  render_eq min hmin := by
    rw [render_bin_of_isNegation_eq_false rfl, enclose_of_le hmin]
    exact congrArg (fun a => a ++ "^" ++ Scalar.text e) htext

end Expr

/-! ## Products -/

open Fluxion.Expr (render enclose_of_le simplify IdentityFree Symbolic symbolic_of_or
  evaluate_eq_of_operands evaluate_eq_bin isSymbolic_bin render_bin_of_isNegation_eq_false Displays
  DisplaysSum IsSymbolic)

section Products

variable [Scalar α] {x : String}

/-- What a coefficient puts in front of factors. -/
def coefficientText (c : α) : String :=
  if c == 1 then "" else if c == -1 then "-" else Scalar.text c ++ "*"

theorem monomialText_cons (c : α) (t : String) (ts : List String) :
    monomialText c (t :: ts) = coefficientText c ++ String.intercalate "*" (t :: ts) := by
  unfold monomialText coefficientText
  rw [if_neg (by simp)]
  split
  · exact String.empty_append.symm
  · split
    · rfl
    · rfl

/-- The first power takes the coefficient in front of it. -/
theorem displays_leading {c : α} (hc : (c == 0) = false) {t : String} {m e : Expr α}
    (hm : m.IsSymbolic) (h : Displays x Operator.pow.precedence t m e) :
    ∃ m', Displays x Operator.mul.precedence (coefficientText c ++ t) m' (.mul (.num c) e) ∧
      m'.IsSymbolic := by
  have hzero : (Expr.num c).isNumber 0 = false := hc
  -- a one is not kept, and a minus one is kept but written as a sign
  by_cases h1 : (c == 1) = true
  · have hevaluate : (Expr.mul (.num c) e).evaluate x = .ok m := by
      have hone : (Expr.num c).isNumber 1 = true := h1
      have hnode : Symbolic (.num c) m := symbolic_of_or (Or.inr hm)
      rw [evaluate_eq_of_operands rfl h.evaluate_eq, hnode.evaluateNode_eq]
      simp [simplify, hzero, hm.isNumber 0, hone]
    refine ⟨m, ⟨hevaluate, hm.isNumber 0, fun min hmin => ?_⟩, hm⟩
    rw [coefficientText, if_pos h1, String.empty_append]
    exact h.render_eq min (le_trans hmin (by decide))
  · have hone : (Expr.num c).isNumber 1 = false := Bool.eq_false_iff.mpr h1
    have hfree : IdentityFree .mul (.num c) m := ⟨⟨hzero, hm.isNumber 0⟩, hone, hm.isNumber 1⟩
    refine ⟨.mul (.num c) m, ⟨evaluate_eq_bin rfl h.evaluate_eq (Or.inr hm) hfree, rfl,
      fun min hmin => ?_⟩, isSymbolic_bin _ _ _⟩
    unfold coefficientText
    rw [if_neg h1]
    by_cases hminus : (c == -1) = true
    · have hneg : (Expr.mul (.num c) m).isNegation = true := hminus
      rw [render, if_pos hneg, if_pos hminus]
      refine (enclose_of_le hmin _).trans ?_
      rw [h.render_eq _ (by decide)]
    · have hneg : (Expr.mul (.num c) m).isNegation = false := Bool.eq_false_iff.mpr hminus
      rw [render_bin_of_isNegation_eq_false hneg, if_neg hminus, enclose_of_le hmin,
        h.render_eq (Operator.mul.precedence + 1) (le_refl _)]
      rfl

/-- The power that the factor stands for is displayed and is no number. -/
def Factor.Displayed (x : String) (f : Factor α) : Prop :=
  ∃ m, Displays x Operator.pow.precedence (powerText f.key.format f.exponent) m
    (powerExpr f.key.toExpr f.exponent) ∧ m.IsSymbolic

/-- Further powers follow behind a `*`. -/
theorem displays_foldl {fs : List (Factor α)} (hfs : ∀ f ∈ fs, f.Displayed x) {s : String}
    {m e : Expr α} (hm : m.IsSymbolic) (h : Displays x Operator.mul.precedence s m e) :
    ∃ m', Displays x Operator.mul.precedence (String.intercalate "*" (s :: Factors.format fs)) m'
      ((Factors.toExprs fs).foldl .mul e) ∧ m'.IsSymbolic := by
  induction fs generalizing s m e with
  | nil =>
    refine ⟨m, ?_, hm⟩
    simpa [Factors.format, Factors.toExprs] using h
  | cons f fs ih =>
    obtain ⟨⟨m₁, hf, hm₁⟩, hfs⟩ := List.forall_mem_cons.mp hfs
    obtain ⟨m', hm', hsym⟩ := ih hfs (isSymbolic_bin _ _ _) (h.mul hm hm₁ hf)
    refine ⟨m', ?_, hsym⟩
    obtain ⟨k, c⟩ := f
    rw [Factors.format, Factors.toExprs, List.foldl_cons, String.intercalate_cons_cons]
    rw [String.intercalate_cons_append] at hm'
    exact hm'

theorem displays_monomialExpr {c : α} (hc : (c == 0) = false) {fs : List (Factor α)}
    (hfs : ∀ f ∈ fs, f.Displayed x) :
    ∃ m, Displays x Operator.mul.precedence (monomialText c (Factors.format fs)) m
      (monomialExpr c (Factors.toExprs fs)) ∧ (fs ≠ [] → m.IsSymbolic) := by
  cases fs with
  | nil => exact ⟨.num c, ⟨rfl, hc, fun _ _ => rfl⟩, fun h => absurd rfl h⟩
  | cons f fs =>
    obtain ⟨⟨m, hf, hm⟩, hfs⟩ := List.forall_mem_cons.mp hfs
    obtain ⟨m₁, hm₁, hsym₁⟩ := displays_leading hc hm hf
    obtain ⟨m₂, hm₂, hsym₂⟩ := displays_foldl hfs hsym₁ hm₁
    refine ⟨m₂, ?_, fun _ => hsym₂⟩
    obtain ⟨k, e⟩ := f
    rw [Factors.format, monomialText_cons, ← String.intercalate_cons_append]
    exact hm₂

end Products

/-! ## Sums -/

/-- The text of a term that follows others. -/
def Term.signedText [Scalar α] (t : Term α) : String :=
  if Scalar.isNegative t.coefficient then "-" ++ monomialText (-t.coefficient) (Factors.format t.factors)
  else "+" ++ monomialText t.coefficient (Factors.format t.factors)

theorem Terms.formatRest_cons [Scalar α] (t : Term α) (ts : List (Term α)) :
    Terms.formatRest (t :: ts) = t.signedText ++ Terms.formatRest ts := by
  obtain ⟨c, fs⟩ := t
  rw [Terms.formatRest]
  rfl

/-- The product of the factors is displayed with any coefficient, and the term has one that can be. -/
structure Term.Displayed [Scalar α] (x : String) (t : Term α) : Prop where
  finite : Scalar.IsFinite t.coefficient
  ne_zero : (t.coefficient == 0) = false
  displays : ∀ c, (c == 0) = false → ∃ m, Displays x Operator.mul.precedence
    (monomialText c (Factors.format t.factors)) m (monomialExpr c (Factors.toExprs t.factors)) ∧
      (t.factors ≠ [] → m.IsSymbolic)

section Signed

variable [SignedScalar α] {x s : String} {m e : Expr α}

/-- One more term is added or subtracted behind its sign. -/
theorem displays_addTo_cons {t : Term α} (ht : t.Displayed x)
    (he : Displays x Operator.add.precedence s m e) (hsym : m.IsSymbolic ∨ t.factors ≠ []) :
    ∃ m' e', DisplaysSum x (s ++ t.signedText) m' e' ∧
      ∀ ts, Terms.addTo e (t :: ts) = Terms.addTo e' ts := by
  obtain ⟨c, fs⟩ := t
  have hsign : Scalar.isNegative c = !Scalar.isPositive c :=
    SignedScalar.isNegative_eq ht.finite ht.ne_zero
  unfold Term.signedText
  dsimp only
  cases hpos : Scalar.isPositive c with
  | true =>
    obtain ⟨m', hm', hfactors⟩ := ht.displays c ht.ne_zero
    refine ⟨.add m m', .add e _, ?_, fun ts => by rw [Terms.addTo, if_pos hpos]⟩
    rw [hsign, hpos, if_neg (by decide), ← String.append_assoc]
    exact Displays.sum .add (Or.inl rfl) he hm' (hsym.imp_right hfactors)
  | false =>
    have hne : (-c == 0) = false := (SignedScalar.neg_eq_zero ht.finite).trans ht.ne_zero
    obtain ⟨m', hm', hfactors⟩ := ht.displays (-c) hne
    have hneg : ¬Scalar.isPositive c = true := Bool.eq_false_iff.mp hpos
    refine ⟨.sub m m', .sub e _, ?_, fun ts => by rw [Terms.addTo, if_neg hneg]⟩
    rw [hsign, hpos, if_pos (by decide), ← String.append_assoc]
    exact Displays.sum .sub (Or.inr rfl) he hm' (hsym.imp_right hfactors)

theorem displaysSum_addTo {ts : List (Term α)} (hts : ∀ t ∈ ts, t.Displayed x)
    (he : DisplaysSum x s m e) :
    ∃ m', DisplaysSum x (s ++ Terms.formatRest ts) m' (Terms.addTo e ts) := by
  induction ts generalizing s m e with
  | nil =>
    refine ⟨m, ?_⟩
    rw [Terms.formatRest, Terms.addTo, String.append_empty]
    exact he
  | cons t ts ih =>
    obtain ⟨ht, hts⟩ := List.forall_mem_cons.mp hts
    obtain ⟨m₁, e₁, he₁, hstep⟩ := displays_addTo_cons ht he.displays (Or.inl he.isSymbolic)
    obtain ⟨m', hm'⟩ := ih hts he₁
    refine ⟨m', ?_⟩
    rw [hstep, Terms.formatRest_cons, ← String.append_assoc]
    exact hm'

/-- A power is displayed if the terms of its base are displayed as a sum. -/
theorem Factor.displayed {f : Factor α} (hzero : (f.exponent == 0) = false)
    (hkey : ∀ us, f.key = .composite us → (f.exponent == 1) = false ∧
      ∃ m, DisplaysSum x (Terms.format us) m (Terms.toExpr us)) : f.Displayed x := by
  obtain ⟨k, e⟩ := f
  unfold Factor.Displayed
  dsimp only at hzero hkey ⊢
  cases k with
  | atom y =>
    have hvar : (Expr.var y : Expr α).IsSymbolic := nofun
    unfold powerText powerExpr
    by_cases hone : (e == 1) = true
    · rw [if_pos hone, if_pos hone]
      exact ⟨.var y, ⟨rfl, rfl, fun _ _ => rfl⟩, hvar⟩
    · rw [if_neg hone, if_neg hone]
      exact ⟨_, Displays.pow hvar rfl rfl (Bool.eq_false_iff.mpr hone) hzero,
        isSymbolic_bin _ _ _⟩
  | composite us =>
    obtain ⟨hone, m, hm⟩ := hkey us rfl
    unfold powerText powerExpr
    rw [if_neg (Bool.eq_false_iff.mp hone), if_neg (Bool.eq_false_iff.mp hone)]
    exact ⟨_, Displays.pow hm.isSymbolic hm.evaluate_eq (hm.render_eq _) hone hzero,
      isSymbolic_bin _ _ _⟩

/-- Two terms or more make a sum, because only one of them can be a constant. -/
theorem Terms.Presentable.displaysSum {ts : List (Term α)} (h : Terms.Presentable ts)
    (hts : ∀ t ∈ ts, t.Displayed x) (hlength : 2 ≤ ts.length) :
    ∃ m, DisplaysSum x (Terms.format ts) m (Terms.toExpr ts) := by
  match ts, hlength with
  | ⟨c, fs⟩ :: t :: ts, _ =>
    obtain ⟨hfirst, hts⟩ := List.forall_mem_cons.mp hts
    obtain ⟨ht, hts⟩ := List.forall_mem_cons.mp hts
    obtain ⟨m, hm, hfactors⟩ := hfirst.displays c hfirst.ne_zero
    -- two constants would have the same signature
    have hsym : m.IsSymbolic ∨ t.factors ≠ [] := by
      by_cases hfs : fs = []
      · right
        intro hnil
        have hsignatures := (Terms.grouped_iff.mpr h.grouped).here.signatures
        rw [List.map_cons, List.map_cons, Term.signature_of_nil hfs, Term.signature_of_nil hnil]
          at hsignatures
        exact (List.nodup_cons.mp hsignatures).1 (List.mem_cons_self ..)
      · exact Or.inl (hfactors hfs)
    obtain ⟨m₁, e₁, he₁, hstep⟩ := displays_addTo_cons ht (hm.mono (by decide)) hsym
    obtain ⟨m', hm'⟩ := displaysSum_addTo hts he₁
    refine ⟨m', ?_⟩
    rw [Terms.toExpr, hstep, Terms.format, Terms.formatRest_cons, ← String.append_assoc]
    exact hm'

/-- Every term can be displayed, since the sums that its composite keys hold are displayed as sums. -/
theorem Terms.Presentable.displayed {ts : List (Term α)} (h : Terms.Presentable ts) :
    ∀ t ∈ ts, t.Displayed x := by
  induction ts using Terms.nested_induction with
  | step ts ih =>
    intro t ht
    refine ⟨h.isFinite_coefficient ht, (h.reduced ht).coefficient, fun c hc => ?_⟩
    refine displays_monomialExpr hc fun f hf => ?_
    -- the hypothesis of the induction reaches the terms inside composite keys only
    refine Factor.displayed ((h.reduced ht).exponents f hf) fun us hk => ?_
    obtain ⟨hlength, hone⟩ := h.compound.here t ht f hf us hk
    have hus : Terms.Presentable us := h.inside ht hf hk
    exact ⟨hone, hus.displaysSum (ih t ht f hf us hk hus) hlength⟩

/-- The expression is evaluated to a tree with the same text. -/
theorem Terms.Presentable.exists_evaluate {ts : List (Term α)} (h : Terms.Presentable ts)
    (x : String) : ∃ m, (Terms.toExpr ts).evaluate x = .ok m ∧ m.print = Terms.format ts := by
  have hprint (m : Expr α) (heval : (Terms.toExpr ts).evaluate x = .ok m) : m.print = m.render 0 :=
    if_pos (Expr.simplified_evaluate heval).isWhole
  match ts with
  | [] =>
    refine ⟨.num 0, rfl, ?_⟩
    rw [hprint (.num 0) rfl]
    exact SignedScalar.text_zero
  | [⟨c, fs⟩] =>
    have ht : Term.Displayed x ⟨c, fs⟩ := h.displayed _ (List.mem_singleton_self _)
    obtain ⟨m, hm, -⟩ := ht.displays c ht.ne_zero
    refine ⟨m, hm.evaluate_eq, ?_⟩
    rw [hprint m hm.evaluate_eq, hm.render_eq 0 (Nat.zero_le _), Terms.format, Terms.formatRest,
      String.append_empty]
  | t :: u :: ts =>
    obtain ⟨m, hm⟩ := h.displaysSum h.displayed (Nat.le_add_left 2 ts.length)
    exact ⟨m, hm.evaluate_eq, (hprint m hm.evaluate_eq).trans (hm.render_eq 0)⟩

end Signed

/-! ## The text of a derivative -/

namespace Differentiation

section Record

variable [Scalar α] {options : Options} {text : List UInt8} {x : String}

theorem runPass_bind_of_ok {β : Type} {stage : Stage} {depth : ℕ} {e : Expr α}
    {pass : Except (PassError α) (Expr α)} (h : pass = .ok e) (f : Expr α → Traced (Cause α) β) :
    (runPass stage depth pass >>= f) =
      ⟨Step.ofExpr stage depth e :: (f e).steps, (f e).outcome⟩ := by
  rw [h]
  rfl

/-- What the last stages record when they succeed. -/
theorem steps_finish {m r : Expr α} (h : (finish options x m).outcome = .ok r) :
    ∃ (evaluated expanded undivided : Expr α) (ts : List (Term α)), m.evaluate x = .ok evaluated ∧
      evaluated.canonicalTerms = .ok ts ∧
      (options.restoreDivision = false → (Terms.toExpr ts).evaluate x = .ok r) ∧
      (finish options x m).steps =
        [.ofExpr .evaluate 0 evaluated, .ofExpr .expand 0 expanded,
          .ofExpr .removeDivision 0 undivided,
          ⟨.group, 0, Terms.format ts, (Terms.toExpr ts).latex⟩,
          .ofExpr .compose 0 (Terms.toExpr ts)] ++
        (if options.restoreDivision then
          [.ofExpr .restoreDivision 0 (Terms.toExpr ts).restoreDivision] else []) ++
        [.ofExpr .simplify 0 r] := by
  obtain ⟨evaluated, expanded, undivided, terms, hev, hex, hun, hterms, hr⟩ := finish_eq_ok h
  refine ⟨evaluated, expanded, undivided, Terms.group terms, hev, Expr.canonicalTerms_eq_ok.mpr
    ⟨expanded, undivided, terms, hex, hun, hterms, rfl⟩, fun hopt => ?_, ?_⟩
  · rw [hopt, if_neg Bool.false_ne_true] at hr
    exact hr
  · rw [finish, runPass_bind_of_ok hev, runPass_bind_of_ok hex, runPass_bind_of_ok hun, hterms]
    cases hopt : options.restoreDivision with
    | false =>
      rw [hopt, if_neg Bool.false_ne_true] at hr
      show _ :: _ :: _ :: _ :: _ :: (runPass _ _ _).steps = _
      rw [hr]
      rfl
    | true =>
      rw [hopt, if_pos rfl] at hr
      show _ :: _ :: _ :: _ :: _ :: _ :: (runPass _ _ _).steps = _
      rw [hr]
      rfl

theorem ne_group_of_mem_opening_derivations {place : Stage × ℕ} {k : ℕ}
    (h : place ∈ Stage.opening ++ Stage.derivations 1 k) : place.1 ≠ .group := by
  rcases List.mem_append.mp h with h | h
  · have hopening : ∀ q ∈ Stage.opening, q.1 ≠ .group := by decide
    exact hopening place h
  · obtain ⟨depth, -, rfl⟩ := List.mem_map.mp h
    nofun

/-- Exactly one step of a differentiation shows grouped terms, and without quotients to restore the derivative
is what their expression is evaluated to. -/
theorem exists_group_step {s : Solution α} (hs : (differentiate options text x).outcome = .ok s) :
    ∃ (p n m e : Expr α) (ts : List (Term α)), Expr.parse text = .ok p ∧ p.distribute = .ok n ∧
      n.derive s.iterations = .ok m ∧ m.evaluate x = .ok e ∧ e.canonicalTerms = .ok ts ∧
      s.steps.filter (·.stage = .group) =
        [⟨.group, 0, Terms.format ts, (Terms.toExpr ts).latex⟩] ∧
      (options.restoreDivision = false → (Terms.toExpr ts).evaluate x = .ok s.expr) := by
  obtain ⟨hplaces, hsteps, -⟩ := (faithful_differentiate options text x).solution hs
  obtain ⟨p, n, m, hp, hn, hm, hfinish, front, hfront⟩ :=
    exists_passes_of_pipeline (differentiate_eq_ok hs)
  obtain ⟨e, _, _, ts, he, hts, hlast, hrecord⟩ := steps_finish hfinish
  have hclosing : (finish options x m).steps.map Step.place = Stage.closing options := by
    rw [hrecord, Stage.closing]
    cases options.restoreDivision <;> rfl
  have hopening : front.map Step.place = Stage.opening ++ Stage.derivations 1 s.iterations := by
    have hall : (front ++ (finish options x m).steps).map Step.place =
        Stage.order options s.iterations := by rw [hfront, ← hplaces]; rfl
    rw [List.map_append, hclosing, Stage.order] at hall
    exact List.append_cancel_right hall
  refine ⟨p, n, m, e, ts, hp, hn, hm, he, hts, ?_, hlast⟩
  have hnone : front.filter (·.stage = .group) = [] := by
    refine List.filter_eq_nil_iff.mpr fun step hstep => ?_
    have hplace : step.place ∈ front.map Step.place := List.mem_map_of_mem hstep
    rw [hopening] at hplace
    exact decide_eq_true_iff.not.mpr (ne_group_of_mem_opening_derivations hplace)
  have hgroup : (finish options x m).steps.filter (·.stage = .group) =
      [⟨.group, 0, Terms.format ts, (Terms.toExpr ts).latex⟩] := by
    rw [hrecord]
    cases options.restoreDivision <;> rfl
  rw [hsteps]
  show (pipeline options text x).steps.filter _ = _
  rw [← hfront, List.filter_append, hnone, hgroup, List.nil_append]

theorem text_of_differentiate {s : Solution α}
    (hs : (differentiate options text x).outcome = .ok s) : s.text = s.expr.print := by
  rw [differentiate] at hs
  dsimp only at hs
  split at hs
  · cases hs
    rfl
  · cases hs

end Record

end Differentiation

/-- Grouped terms with finite numbers and proper composite keys have one text, whether they are written down
directly or their expression is evaluated and printed. So if a differentiation does not restore quotients,
its result has the text that its group step shows, provided that the terms in that step are such terms. -/
theorem Terms.print_evaluate_toExpr [SignedScalar α] :
    (∀ (ts : List (Term α)) (x : String), Terms.Presentable ts →
      ∃ m, (Terms.toExpr ts).evaluate x = .ok m ∧ m.print = Terms.format ts) ∧
    ∀ (options : Options) (text : List UInt8) (x : String) (s : Solution α),
      options.restoreDivision = false → (differentiate options text x).outcome = .ok s →
      ∃ (p n m e : Expr α) (ts : List (Term α)), Expr.parse text = .ok p ∧ p.distribute = .ok n ∧
        n.derive s.iterations = .ok m ∧ m.evaluate x = .ok e ∧ e.canonicalTerms = .ok ts ∧
        s.steps.filter (·.stage = .group) =
          [⟨.group, 0, Terms.format ts, (Terms.toExpr ts).latex⟩] ∧
        (Terms.Presentable ts → s.text = Terms.format ts) := by
  refine ⟨fun ts x h => h.exists_evaluate x, fun options text x s hopt hs => ?_⟩
  obtain ⟨p, n, m, e, ts, hp, hn, hm, he, hts, hstep, hlast⟩ := Differentiation.exists_group_step hs
  refine ⟨p, n, m, e, ts, hp, hn, hm, he, hts, hstep, fun hpresentable => ?_⟩
  obtain ⟨r, hr, hprint⟩ := hpresentable.exists_evaluate x
  cases (hlast hopt).symm.trans hr
  rw [Differentiation.text_of_differentiate hs, hprint]

open scoped Integral in
/-- A sum as the base of a power and signs in front, by themselves and in a derivative. -/
theorem Terms.print_evaluate_toExpr_difference :
    (∃ m, (Terms.toExpr Integral.mixedTerms).evaluate "y" = .ok m ∧
      m.print = "-3*x^2*(x-1)^-2-1") ∧
    ∃ s : Solution Float, (differentiate ⟨0, false⟩ (Utf8.bytes "x*x-x") "x").outcome = .ok s ∧
      (s.steps.filter (·.stage = .group)).map Step.text = [s.text] := by
  constructor
  · obtain ⟨m, hm, hprint⟩ := Terms.print_evaluate_toExpr.1 Integral.mixedTerms "y"
      Integral.presentable_mixedTerms
    exact ⟨m, hm, hprint.trans (by decide +kernel)⟩
  · obtain ⟨s, hs⟩ := exists_ok_of_isOk
      (x := (differentiate (α := Float) ⟨0, false⟩ (Utf8.bytes "x*x-x") "x").outcome)
      (by decide +kernel)
    have hiterations : s.iterations = 3 := by
      have hrun : ((differentiate (α := Float) ⟨0, false⟩ (Utf8.bytes "x*x-x") "x").outcome.map
          Solution.iterations).toOption = some 3 := by decide +kernel
      rw [hs] at hrun
      exact Option.some.inj hrun
    obtain ⟨p, n, m, e, ts, hp, hn, hm, he, hts, hstep, htext⟩ :=
      Terms.print_evaluate_toExpr.2 _ _ _ s rfl hs
    have hgrouped : Terms.group ts = ts := by
      obtain ⟨_, _, us, -, -, -, rfl⟩ := Expr.canonicalTerms_eq_ok.mp hts
      exact Terms.grouped_iff.mp (Terms.grouped_group us)
    have hplain : ∀ t ∈ ts, Scalar.IsFinite t.coefficient ∧
        ∀ f ∈ t.factors, f.key.depth = 0 ∧ Scalar.IsFinite f.exponent := by
      have hcheck : ((Expr.parse (Utf8.bytes "x*x-x") : Except ParseError (Expr Float)).toOption.bind
          fun p => p.distribute.toOption.bind fun n => (n.derive 3).toOption.bind
          fun m => (m.evaluate "x").toOption.bind fun e => e.canonicalTerms.toOption.map
          fun ts => decide (∀ t ∈ ts, Scalar.IsFinite t.coefficient ∧
            ∀ f ∈ t.factors, f.key.depth = 0 ∧ Scalar.IsFinite f.exponent)) = some true := by
        decide +kernel
      rw [hiterations, Nat.cast_ofNat] at hm
      simpa [hp, hn, hm, he, hts, Except.toOption] using hcheck
    exact ⟨s, hs, by rw [hstep, htext (.of_depth_eq_zero hgrouped hplain)]; rfl⟩

end Fluxion
