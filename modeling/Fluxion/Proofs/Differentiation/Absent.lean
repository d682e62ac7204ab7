import Fluxion.Proofs.Grammar.Recognition
import Fluxion.Proofs.Overflow

/-!
# Differentiating by a variable that does not occur

No marker on an atom stands for one when the variable does not occur, so every marker evaluates to zero. The
rules of differentiation put these zeros beside operands that have not been differentiated. Evaluation
absorbs such an operand, whatever is left of it: a tree that is no number by the identities for zero, and a
number because zero times a finite number and zero by a finite number are zero. So every tree that the
rules produce evaluates to a zero at once, unless some computation has no finite result, and the terms of a
zero are put together to the number zero. The sign of a zero does not matter anywhere.
-/

namespace Fluxion

open Grammar

variable {α : Type}

/-! ## The variables of a text -/

/-- All variables of what a phrase stands for satisfy `A`, those of the tree in front of a repetition
provided. -/
def Grammar.MeansNamed (A : String → Prop) : {c : Category} → c.Meaning α → Prop
  | .expression, e | .term, e | .factor, e | .primary, e => Expr.Named A e
  | .terms, f | .factors, f => ∀ left : Expr α, left.Named A → Expr.Named A (f left)
  | .signedNumber, _ => True

/-- The variables of what a derivation stands for are the identifiers of its word. -/
theorem Grammar.Phrase.meansNamed [Scalar α] {A : String → Prop} {c : Category} (d : Phrase c)
    (h : ∀ y, .identifier y ∈ d.yield → A y) : MeansNamed A (d.meaning : c.Meaning α) := by
  induction d with
  | expression first rest ihfirst ihrest | term first rest ihfirst ihrest =>
    have hfirst := ihfirst fun y hy => h y (List.mem_append_left _ hy)
    exact ihrest (fun y hy => h y (List.mem_append_right _ hy)) _ hfirst
  | noTerms | noFactors => exact fun left hleft => hleft
  | moreTerms operator next rest ihnext ihrest | moreFactors operator next rest ihnext ihrest =>
    intro left hleft
    have hnext := ihnext fun y hy => h y (List.mem_cons_of_mem _ (List.mem_append_left _ hy))
    refine ihrest (fun y hy => h y (List.mem_cons_of_mem _ (List.mem_append_right _ hy))) _ ?_
    exact Expr.named_bin.mpr ⟨hleft, hnext⟩
  | plain base ih => exact ih h
  | power base exponent ihbase ihexponent =>
    have hbase := ihbase fun y hy => h y (List.mem_append_left _ hy)
    exact Expr.named_bin.mpr ⟨hbase, fun y hy => absurd hy List.not_mem_nil⟩
  | signedNumber sign literal => trivial
  | number literal => exact fun y hy => absurd hy List.not_mem_nil
  | identifier name =>
    intro y hy
    rw [List.mem_singleton.mp hy]
    exact h name (List.mem_singleton_self _)
  | parenthesized inner ih =>
    exact ih fun y hy => h y (List.mem_cons_of_mem _ (List.mem_append_left _ hy))

/-- The variables of what is read from a text are identifiers of the text. -/
theorem Expr.named_of_parse [Scalar α] {text : List UInt8} {p : Expr α}
    (hparse : Expr.parse text = .ok p) {A : String → Prop}
    (h : ∀ t ∈ (tokens text).list, t.kind = .identifier → A t.literal) : p.Named A := by
  obtain ⟨ts, hts, -, d, hyield, rfl⟩ := exists_derivation hparse
  obtain ⟨-, rfl⟩ := tokenize_eq_ok.mp hts
  refine d.meansNamed fun y hy => ?_
  have hmem : Terminal.identifier y ∈ (tokens text).list.map Token.terminal :=
    hyield ▸ List.mem_append_left _ hy
  obtain ⟨t, ht, hterminal⟩ := List.mem_map.mp hmem
  obtain ⟨hkind, rfl⟩ := Token.terminal_eq_identifier.mp hterminal
  exact h t ht hkind

/-! ## Zeros -/

/-- Scalars with the laws of zero that floating point numbers have: sums and differences of zeros are
zeros, and so are the products of a zero and a finite number and the quotient of a zero by a finite number
other than zero. Nothing is said about the sign of a zero. -/
class AbsorbingScalar (α : Type) extends DefiniteScalar α, FiniteScalar α where
  zero_eq_zero : ((0 : α) == 0) = true
  text_zero : Scalar.text (0 : α) = "0"
  add_eq_zero {z w : α} : (z == 0) = true → (w == 0) = true → (z + w == 0) = true
  sub_eq_zero {z w : α} : (z == 0) = true → (w == 0) = true → (z - w == 0) = true
  zero_mul {z v : α} : (z == 0) = true → Scalar.IsFinite v → (z * v == 0) = true
  mul_zero {v z : α} : Scalar.IsFinite v → (z == 0) = true → (v * z == 0) = true
  zero_div {z w : α} : (z == 0) = true → Scalar.IsFinite w → (w == 0) = false → (z / w == 0) = true

namespace Floating

open Float.Model (UnpackedFloat)

theorem unpack_pack_zero (s : UnpackedFloat.Sign) :
    UnpackedFloat.unpack .binary64 (UnpackedFloat.pack .binary64 (.zero s)) = .zero s := by
  cases s <;> rfl

/-- A number is zero if the model computes a zero for it. -/
theorem beq_zero_of_pack {x : Float} {u : UnpackedFloat}
    (hx : x.toModel.unpack = UnpackedFloat.unpack .binary64 (UnpackedFloat.pack .binary64 u))
    (hu : ∃ s, u = .zero s) : (x == 0) = true := by
  obtain ⟨s, rfl⟩ := hu
  exact (beq_zero_iff x).mpr ⟨s, hx.trans (unpack_pack_zero s)⟩

/-- What is finite is a zero or has a mantissa. -/
theorem unpack_cases {x : Float} (h : Scalar.IsFinite x) :
    (∃ s, x.toModel.unpack = .zero s) ∨ ∃ s m e hm, x.toModel.unpack = .finite s m e hm := by
  have hfinite : x.toModel.unpack.isFinite = true := h
  cases hu : x.toModel.unpack with
  | zero s => exact Or.inl ⟨s, rfl⟩
  | finite s m e hm => exact Or.inr ⟨s, m, e, hm, rfl⟩
  | infinity s => rw [hu] at hfinite; cases hfinite
  | notANumber => rw [hu] at hfinite; cases hfinite

end Floating

instance : AbsorbingScalar Float where
  zero_eq_zero := by decide +kernel
  text_zero := by decide +kernel
  add_eq_zero {z w} hz hw := by
    obtain ⟨s, hs⟩ := (Floating.beq_zero_iff z).mp hz
    obtain ⟨s', hs'⟩ := (Floating.beq_zero_iff w).mp hw
    refine Floating.beq_zero_of_pack (u := .add .binary64 z.toModel.unpack w.toModel.unpack) rfl ?_
    rw [hs, hs']
    cases s <;> cases s' <;> exact ⟨_, rfl⟩
  sub_eq_zero {z w} hz hw := by
    obtain ⟨s, hs⟩ := (Floating.beq_zero_iff z).mp hz
    obtain ⟨s', hs'⟩ := (Floating.beq_zero_iff w).mp hw
    refine Floating.beq_zero_of_pack (u := .sub .binary64 z.toModel.unpack w.toModel.unpack) rfl ?_
    rw [hs, hs']
    cases s <;> cases s' <;> exact ⟨_, rfl⟩
  zero_mul {z v} hz hv := by
    obtain ⟨s, hs⟩ := (Floating.beq_zero_iff z).mp hz
    refine Floating.beq_zero_of_pack (u := .mul .binary64 z.toModel.unpack v.toModel.unpack) rfl ?_
    rw [hs]
    rcases Floating.unpack_cases hv with ⟨s', hv⟩ | ⟨s', m, e, hm, hv⟩ <;> exact hv ▸ ⟨_, rfl⟩
  mul_zero {v z} hv hz := by
    obtain ⟨s, hs⟩ := (Floating.beq_zero_iff z).mp hz
    refine Floating.beq_zero_of_pack (u := .mul .binary64 v.toModel.unpack z.toModel.unpack) rfl ?_
    rw [hs]
    rcases Floating.unpack_cases hv with ⟨s', hv⟩ | ⟨s', m, e, hm, hv⟩ <;> exact hv ▸ ⟨_, rfl⟩
  zero_div {z w} hz hw hne := by
    obtain ⟨s, hs⟩ := (Floating.beq_zero_iff z).mp hz
    refine Floating.beq_zero_of_pack (u := .div .binary64 z.toModel.unpack w.toModel.unpack) rfl ?_
    rw [hs]
    rcases Floating.unpack_cases hw with ⟨s', hw⟩ | ⟨s', m, e, hm, hw⟩
    · rw [(Floating.beq_zero_iff w).mpr ⟨s', hw⟩] at hne
      cases hne
    · exact hw ▸ ⟨_, rfl⟩

/-! ## Evaluating beside zeros -/

namespace Expr

/-- If the tree is a number, it is a finite one. -/
def FiniteIfNumber [Scalar α] : Expr α → Prop
  | num v => Scalar.IsFinite v
  | _ => True

/-- The computation fails on numbers only, and what it returns is no number or a finite one. -/
abbrev StaysFinite [Scalar α] (r : Except (PassError α) (Expr α)) : Prop :=
  EndsIn PassError.IsNumeric FiniteIfNumber r

/-- The computation fails on numbers only, and what it returns is a zero. -/
abbrev Vanishes [Scalar α] (r : Except (PassError α) (Expr α)) : Prop :=
  EndsIn PassError.IsNumeric (fun e => e.isNumber 0 = true) r

theorem IsFinite.finiteIfNumber [Scalar α] {e : Expr α} (h : e.IsFinite) : e.FiniteIfNumber := by
  cases e with
  | num v => exact h
  | _ => trivial

section Checks

variable [Scalar α]

/-- A computed number is checked before it is returned. -/
theorem endsIn_map_finite {P : Expr α → Prop} {op : Operator} {a b v : α}
    (hv : Scalar.IsFinite v → P (num v)) :
    EndsIn PassError.IsNumeric P ((finite op a b v).map num) := by
  rw [finite]
  split
  · exact hv ‹_›
  · trivial

/-- Evaluating an operator node, from what its operands evaluate to. -/
theorem endsIn_evaluate_bin {P Q R : Expr α → Prop} {op : Operator} {l r : Expr α} {x : String}
    (hl : EndsIn PassError.IsNumeric P (l.evaluate x)) (hr : EndsIn PassError.IsNumeric Q (r.evaluate x))
    (hnode : ∀ l' r', P l' → Q r' → EndsIn PassError.IsNumeric R (evaluateNode op l' r')) :
    EndsIn PassError.IsNumeric R ((bin op l r).evaluate x) := by
  rw [evaluate]
  exact hl.bind fun l' hl' => hr.bind fun r' hr' => hnode l' r' hl' hr'

end Checks

variable [AbsorbingScalar α] {l r : Expr α}

open AbsorbingScalar

theorem FiniteIfNumber.staysFinite_mul (hl : l.FiniteIfNumber) (hr : r.FiniteIfNumber) :
    StaysFinite (evaluateNode .mul l r) := by
  fun_cases evaluateNode .mul l r with
  | case1 a b => exact endsIn_map_finite id
  | case2 l r hsymbolic =>
    rcases simplify_cases .mul l r with h | h | ⟨v, rfl | rfl, h⟩ | ⟨-, h⟩ <;> rw [h]
    · exact hl
    · exact hr
    · exact FiniteScalar.isFinite_zero
    · exact FiniteScalar.isFinite_one
    · trivial

/-- The exponent need not be finite, because a power never evaluates to its exponent. -/
theorem StaysFinite.evaluate_pow {b : Expr α} {x : String} (hb : StaysFinite (b.evaluate x)) (e : α) :
    StaysFinite ((Expr.pow b e).evaluate x) := by
  refine endsIn_evaluate_bin (Q := (· = num e)) hb rfl ?_
  rintro l r hl hr
  fun_cases evaluateNode .pow l r with
  | case1 a b => exact endsIn_map_finite id
  | case2 l r hsymbolic =>
    show FiniteIfNumber (if r.isNumber 1 then l else if r.isNumber 0 then num 1 else bin .pow l r)
    split_ifs
    · exact hl
    · exact FiniteScalar.isFinite_one
    · trivial

theorem vanishes_add_zeros (hl : l.isNumber 0 = true) (hr : r.isNumber 0 = true) :
    Vanishes (evaluateNode .add l r) := by
  fun_cases evaluateNode .add l r with
  | case1 a b => exact endsIn_map_finite fun _ => add_eq_zero hl hr
  | case2 l r hsymbolic =>
    have hsimplify : simplify .add l r = r := if_pos hl
    rw [hsimplify]
    exact hr

theorem vanishes_sub_zeros (hl : l.isNumber 0 = true) (hr : r.isNumber 0 = true) :
    Vanishes (evaluateNode .sub l r) := by
  fun_cases evaluateNode .sub l r with
  | case1 a b => exact endsIn_map_finite fun _ => sub_eq_zero hl hr
  | case2 l r hsymbolic =>
    have hsimplify : simplify .sub l r = l := if_pos hr
    rw [hsimplify]
    exact hl

theorem vanishes_zero_mul (hl : l.isNumber 0 = true) (hr : r.FiniteIfNumber) :
    Vanishes (evaluateNode .mul l r) := by
  fun_cases evaluateNode .mul l r with
  | case1 a b => exact endsIn_map_finite fun _ => zero_mul hl hr
  | case2 l r hsymbolic =>
    have hsimplify : simplify .mul l r = num 0 := by simp [simplify, hl]
    rw [hsimplify]
    exact zero_eq_zero

theorem vanishes_mul_zero (hl : l.FiniteIfNumber) (hr : r.isNumber 0 = true) :
    Vanishes (evaluateNode .mul l r) := by
  fun_cases evaluateNode .mul l r with
  | case1 a b => exact endsIn_map_finite fun _ => mul_zero hl hr
  | case2 l r hsymbolic =>
    have hsimplify : simplify .mul l r = num 0 := by simp [simplify, hr]
    rw [hsimplify]
    exact zero_eq_zero

theorem vanishes_zero_div (hl : l.isNumber 0 = true) (hr : r.FiniteIfNumber) :
    Vanishes (evaluateNode .div l r) := by
  fun_cases evaluateNode .div l r with
  | case1 a b =>
    rw [fold]
    split
    · trivial
    · rename_i hb
      exact endsIn_map_finite fun _ => zero_div hl hr (Bool.eq_false_iff.mpr hb)
  | case2 l r hsymbolic =>
    show isNumber 0 (if r.isNumber 1 then l else if l.isNumber 0 then num 0 else div l r) = true
    split_ifs
    · exact hl
    · exact zero_eq_zero

variable {x : String}

/-- An operand that has not been differentiated. -/
theorem Arithmetic.staysFinite_evaluate {e : Expr α} (h : e.Arithmetic) (hfinite : e.IsFinite) :
    StaysFinite (e.evaluate x) := by
  have hshape := h.resolvable.endsIn_evaluate x
  cases hresult : e.evaluate x with
  | error err => exact hshape.of_error hresult
  | ok r => exact (hfinite.evaluate hresult).finiteIfNumber

/-- When the variable does not occur, what the rules produce evaluates to a zero. -/
theorem Arithmetic.vanishes_evaluate_derive {n : Expr α} (h : n.Arithmetic) (hfinite : n.IsFinite)
    (habsent : n.Named (· ≠ x)) {d : ℤ} (hd : (n.layers : ℤ) ≤ d) {m : Expr α}
    (hm : n.derive d = .ok m) : Vanishes (m.evaluate x) := by
  -- each rule puts the zeros of the operands beside operands that only have to stay finite
  induction h generalizing d m with
  | num v =>
    cases hm
    exact zero_eq_zero
  | var y =>
    cases hm
    have hne : (y == x) = false := beq_eq_false_iff_ne.mpr (habsent y (List.mem_singleton_self y))
    show isNumber 0 (num (if y == x then 1 else 0)) = true
    rw [hne]
    exact zero_eq_zero
  | @join op l r hop hl hr ihl ihr =>
    obtain ⟨hnl, hnr⟩ := named_bin.mp habsent
    rw [layers_bin] at hd
    push_cast at hd
    rw [derive_join hop l r (by omega)] at hm
    obtain ⟨dl, hdl, hm⟩ := bind_eq_ok.mp hm
    obtain ⟨dr, hdr, hm⟩ := bind_eq_ok.mp hm
    cases hm
    have hdl := ihl hfinite.1 hnl (by omega) hdl
    have hdr := ihr hfinite.2 hnr (by omega) hdr
    have hl := Arithmetic.staysFinite_evaluate (x := x) hl hfinite.1
    have hr := Arithmetic.staysFinite_evaluate (x := x) hr hfinite.2
    -- the two products that the rules for products and quotients share
    have hleft := endsIn_evaluate_bin hdl hr fun _ _ => vanishes_zero_mul
    have hright := endsIn_evaluate_bin hl hdr fun _ _ => vanishes_mul_zero
    fin_cases hop
    · exact endsIn_evaluate_bin hdl hdr fun _ _ => vanishes_add_zeros
    · exact endsIn_evaluate_bin hdl hdr fun _ _ => vanishes_sub_zeros
    · exact endsIn_evaluate_bin hleft hright fun _ _ => vanishes_add_zeros
    · have hdividend := endsIn_evaluate_bin hleft hright fun _ _ => vanishes_sub_zeros
      have hdivisor : StaysFinite ((pow r Scalar.two).evaluate x) := StaysFinite.evaluate_pow hr Scalar.two
      exact endsIn_evaluate_bin hdividend hdivisor fun _ _ => vanishes_zero_div
  | @power b e hb ih =>
    obtain ⟨hnb, -⟩ := named_bin.mp habsent
    rw [layers_bin] at hd
    push_cast at hd
    rw [derive_power b e (by omega)] at hm
    obtain ⟨db, hdb, hm⟩ := bind_eq_ok.mp hm
    cases hm
    have hdb := ih hfinite.1 hnb (by omega) hdb
    have hb := Arithmetic.staysFinite_evaluate (x := x) hb hfinite.1
    have hpower : StaysFinite ((pow b (e - 1)).evaluate x) := StaysFinite.evaluate_pow hb (e - 1)
    have hexponent : StaysFinite ((num e).evaluate x) := hfinite.2
    have hfactor := endsIn_evaluate_bin hexponent hpower fun _ _ => FiniteIfNumber.staysFinite_mul
    exact endsIn_evaluate_bin hfactor hdb fun _ _ => vanishes_mul_zero
  | marker ht => exact ht.elim

end Expr

/-! ## The last stages -/

theorem Cause.IsNumeric.exists_numeric {c : Cause α} (h : c.IsNumeric) :
    ∃ op a b, c = .pass (.numeric op a b) := by
  cases c with
  | pass err =>
    cases err with
    | numeric op a b => exact ⟨op, a, b, rfl⟩
    | _ => exact h.elim
  | _ => exact h.elim

namespace Differentiation

/-- The last stages turn what evaluates to a zero into the number zero. -/
theorem endsIn_finish_zero [Scalar α] {m : Expr α} {x : String}
    (h : Expr.Vanishes (m.evaluate x)) (options : Options) :
    EndsIn Cause.IsNumeric (· = .num 0) (finish options x m).outcome := by
  rw [finish]
  refine Traced.endsIn_bind (endsIn_runPass h _ _) fun evaluated hzero => ?_
  cases evaluated with
  | num z =>
    have hz : (z == 0) = true := hzero
    refine Traced.endsIn_bind (P := (· = .num z)) (.of_exists ⟨_, rfl, rfl⟩) ?_
    rintro _ rfl
    refine Traced.endsIn_bind (P := (· = .num z)) (.of_exists ⟨_, rfl, rfl⟩) ?_
    rintro _ rfl
    refine Traced.endsIn_bind (P := (· = [.constant z])) (.of_exists ⟨_, rfl, rfl⟩) ?_
    rintro _ rfl
    rw [Terms.group_constant, if_pos hz]
    cases options.restoreDivision <;> rfl
  | _ => cases hzero

end Differentiation

/-! ## All stages -/

section Differentiate

variable [AbsorbingScalar α] {options : Options} {text : List UInt8} {x : String} {p : Expr α}

theorem Differentiation.endsIn_pipeline_absent (hx : isIdentifier x = true)
    (hparse : Expr.parse text = .ok p)
    (habsent : ∀ t ∈ (tokens text).list, t.kind = .identifier → t.literal ≠ x)
    (hlimit : options.maxIterations ≤ 0) :
    EndsIn Cause.IsNumeric (fun d : Derivative α => d.expr = .num 0)
      (pipeline options text x).outcome := by
  obtain ⟨n, m, hdist, hsettles⟩ := Expr.exists_settlesTo hparse
  have hparsed : p.IsFinite := by
    refine (Expr.grammatical_parse hparse).everyNumber ?_ fun v hv => FiniteScalar.isFinite_neg hv
    rintro v ⟨literal, hv⟩
    exact FiniteScalar.isFinite_ofDecimal hv
  have hfinite : n.IsFinite := (Expr.hereditary_everyNumber _).distributeIn hparsed hdist
  have hnamed : n.Named (· ≠ x) :=
    (Expr.hereditary_named _).distributeIn (Expr.named_of_parse hparse habsent) hdist
  have hzero := hsettles.arithmetic.vanishes_evaluate_derive hfinite hnamed (le_refl _)
    (hsettles.derive _ (le_refl _))
  rw [outcome_pipeline hx hparse hdist, outcome_fixedPoint hsettles, if_neg (by omega)]
  exact (endsIn_finish_zero hzero options).bind fun r hr => hr

/-- The derivative of a text by a variable that is no identifier of the text: without a limit on the
depths, either a number has no finite result, or the derivative is the number zero. -/
theorem differentiate_absent (hx : isIdentifier x = true) (hparse : Expr.parse text = .ok p)
    (habsent : ∀ t ∈ (tokens text).list, t.kind = .identifier → t.literal ≠ x)
    (hlimit : options.maxIterations ≤ 0) :
    (∃ (f : Failure α) (op : Operator) (a b : α), (differentiate options text x).outcome = .error f ∧
      f.cause = .pass (.numeric op a b)) ∨
    ∃ s : Solution α, (differentiate options text x).outcome = .ok s ∧ s.expr = .num 0 ∧
      s.text = "0" := by
  have hends := Differentiation.endsIn_pipeline_absent hx hparse habsent hlimit
  cases hpipe : (Differentiation.pipeline (α := α) options text x).outcome with
  | error cause =>
    left
    obtain ⟨f, hf, rfl⟩ := exists_differentiate_error_iff.mpr hpipe
    obtain ⟨op, a, b, hcause⟩ := (hends.of_error hpipe).exists_numeric
    exact ⟨f, op, a, b, hf, hcause⟩
  | ok d =>
    right
    obtain ⟨expr, iterations⟩ := d
    obtain rfl : expr = .num 0 := hends.of_ok hpipe
    rw [differentiate]
    dsimp only
    rw [hpipe]
    exact ⟨_, rfl, rfl, AbsorbingScalar.text_zero⟩

/-- The quotient and the power rule with operands that evaluation leaves as they are: the run succeeds. -/
theorem differentiate_absent_quotient :
    isIdentifier "x" = true ∧
    Expr.parse (Utf8.bytes "y^3/(z-2)*0.5") = .ok (.mul (.div (.pow (.var "y") 3)
      (.sub (.var "z") (.num 2))) (.num 0.5) : Expr Float) ∧
    (∀ t ∈ (tokens (Utf8.bytes "y^3/(z-2)*0.5")).list, t.kind = .identifier → t.literal ≠ "x") ∧
    ∃ s : Solution Float, (differentiate ⟨0, true⟩ (Utf8.bytes "y^3/(z-2)*0.5") "x").outcome = .ok s ∧
      s.expr = .num 0 ∧ s.text = "0" := by
  have hx : isIdentifier "x" = true := by decide +kernel
  have hparse : Expr.parse (Utf8.bytes "y^3/(z-2)*0.5") = .ok (.mul (.div (.pow (.var "y") 3)
      (.sub (.var "z") (.num 2))) (.num 0.5) : Expr Float) := by
    decide +kernel
  have habsent : ∀ t ∈ (tokens (Utf8.bytes "y^3/(z-2)*0.5")).list, t.kind = .identifier →
      t.literal ≠ "x" := by
    decide +kernel
  refine ⟨hx, hparse, habsent, ?_⟩
  obtain ⟨s, hs⟩ := exists_ok_of_isOk
    (x := (differentiate (α := Float) ⟨0, true⟩ (Utf8.bytes "y^3/(z-2)*0.5") "x").outcome) (by decide +kernel)
  have hlimit : (⟨0, true⟩ : Options).maxIterations ≤ 0 := le_refl 0
  obtain ⟨f, -, -, -, hf, -⟩ | hzero := differentiate_absent hx hparse habsent hlimit
  · cases hs.symm.trans hf
  · exact hzero

end Differentiate

end Fluxion
