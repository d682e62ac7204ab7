import Fluxion.Differentiation
import Fluxion.Proofs.Numbers

/-!
# The shape of trees between the passes

Every pass has rules for some trees only: no pass covers a missing operand or an unknown operator, the
rules of differentiation and the decomposition into terms want literal exponents, evaluation wants its
markers on atoms, and later passes want no markers and no quotients. `Expr.Formed` describes these
shapes, and for each pass there is one statement here: which shape it turns into which. On the shapes
that reach it a pass either cannot fail or fails only on a computation without a finite result.
-/

namespace Fluxion

variable {α : Type}

/-- The error is about an operation on numbers. -/
def PassError.IsNumeric : PassError α → Prop
  | .numeric _ _ _ => True
  | _ => False

/-- The operators that join two operands once quotients are gone. -/
def Operator.undividedJoins : List Operator := [.add, .sub, .mul]

namespace Expr

/-- A number or a variable. -/
def IsAtom : Expr α → Prop
  | num _ => True
  | var _ => True
  | _ => False

/-- Trees over numbers and variables in which the operators of `J` join two operands and every power
has a literal exponent; a marker may stand on whatever satisfies `M`. -/
inductive Formed (J : List Operator) (M : Expr α → Prop) : Expr α → Prop where
  | num (v : α) : Formed J M (num v)
  | var (x : String) : Formed J M (var x)
  | join {op : Operator} {l r : Expr α} (hop : op ∈ J) (hl : Formed J M l) (hr : Formed J M r) :
    Formed J M (bin op l r)
  | power {b : Expr α} {e : α} (hb : Formed J M b) : Formed J M (pow b e)
  | marker {t : Expr α} (ht : M t) : Formed J M (pending t)

/-- Ordinary arithmetic: no markers. -/
abbrev Arithmetic : Expr α → Prop := Formed Operator.joins fun _ => False

/-- Arithmetic without quotients. -/
abbrev Undivided : Expr α → Prop := Formed Operator.undividedJoins fun _ => False

/-- Arithmetic in which atoms may carry markers. -/
abbrev Resolvable : Expr α → Prop := Formed Operator.joins IsAtom

namespace Formed

variable {J : List Operator} {M : Expr α → Prop}

theorem left {op : Operator} {l r : Expr α} (h : (bin op l r).Formed J M) : l.Formed J M := by
  cases h with
  | join hop hl hr => exact hl
  | power hb => exact hb

theorem right {op : Operator} {l r : Expr α} (h : (bin op l r).Formed J M) : r.Formed J M := by
  cases h with
  | join hop hl hr => exact hr
  | power hb => exact .num _

theorem imp {J' : List Operator} {M' : Expr α → Prop} (hJ : J ⊆ J') (hM : ∀ t, M t → M' t)
    {e : Expr α} (h : e.Formed J M) : e.Formed J' M' := by
  induction h with
  | num v => exact .num v
  | var x => exact .var x
  | join hop hl hr ihl ihr => exact .join (hJ hop) ihl ihr
  | power hb ih => exact .power ih
  | marker ht => exact .marker (hM _ ht)

end Formed

theorem Arithmetic.resolvable {e : Expr α} (h : e.Arithmetic) : e.Resolvable :=
  h.imp (List.Subset.refl _) fun _ => False.elim

theorem Arithmetic.markerFree {e : Expr α} (h : e.Arithmetic) : e.MarkerFree := by
  induction h with
  | num v => trivial
  | var y => trivial
  | join hop hl hr ihl ihr => exact ⟨ihl, ihr⟩
  | power hb ih => exact ⟨ih, trivial⟩
  | marker ht => exact ht.elim

theorem Undivided.arithmetic {e : Expr α} (h : e.Undivided) : e.Arithmetic :=
  h.imp (by decide) fun _ ht => ht

theorem distributive_arithmetic : Distributive (Arithmetic : Expr α → Prop) where
  add l r := ⟨fun h => ⟨h.left, h.right⟩, fun h => .join (by decide) h.1 h.2⟩
  sub l r := ⟨fun h => ⟨h.left, h.right⟩, fun h => .join (by decide) h.1 h.2⟩
  mul hl hr := .join (by decide) hl hr

variable [Scalar α]

/-! ## Reading -/

theorem Grammatical.arithmetic {e : Expr α} (h : e.Grammatical) : e.Arithmetic := by
  induction h with
  | number hv => exact .num _
  | identifier hx => exact .var _
  | join hop hl hr ihl ihr => exact .join hop ihl ihr
  | power hb hv ih => exact .power ih
  | negativePower hb hv ih => exact .power ih

/-! ## Multiplying out -/

/-- Arithmetic can always be multiplied out. -/
theorem Arithmetic.exists_distributeIn {e : Expr α} (h : e.Arithmetic) (d : Bool) :
    ∃ e', e.distributeIn d = .ok e' ∧ e'.Arithmetic := by
  induction h generalizing d with
  | num v => exact ⟨_, rfl, .num v⟩
  | var x => exact ⟨_, rfl, .var x⟩
  | @join op l r hop hl hr ihl ihr =>
    obtain ⟨l', hdl, hl'⟩ := ihl d
    obtain ⟨r', hdr, hr'⟩ := ihr (d || op = .div)
    refine ⟨distributeNode d op l' r', by rw [distributeIn, hdl, hdr]; rfl, ?_⟩
    exact distributive_arithmetic.distributeNode hl' hr' fun _ => .join hop hl' hr'
  | @power b e hb ih =>
    obtain ⟨b', hdb, hb'⟩ := ih d
    refine ⟨distributeNode d .pow b' (.num e), by rw [distributeIn, hdb]; rfl, ?_⟩
    exact distributive_arithmetic.distributeNode hb' (.num e) fun _ => .power hb'
  | marker ht => exact ht.elim

/-! ## Differentiating -/

/-- The rule for an operator that joins two operands, from the derivatives of the operands. -/
def joinRule (op : Operator) (l r dl dr : Expr α) : Expr α :=
  match op with
  | .add => add dl dr
  | .sub => sub dl dr
  | .mul => productRule l r dl dr
  | _ => quotientRule l r dl dr

theorem derive_of_nonpos (op : Operator) (l r : Expr α) {d : ℤ} (hd : d ≤ 0) :
    (bin op l r).derive d = .ok (pending (bin op l r)) := by
  rw [derive, if_pos hd]

theorem derive_join {op : Operator} (hop : op ∈ Operator.joins) (l r : Expr α) {d : ℤ} (hd : 0 < d) :
    (bin op l r).derive d =
      (do let dl ← l.derive (d - 1)
          let dr ← r.derive (d - 1)
          return joinRule op l r dl dr) := by
  rw [derive, if_neg (not_le.mpr hd)]
  fin_cases hop <;> rfl

theorem derive_power (b : Expr α) (e : α) {d : ℤ} (hd : 0 < d) :
    (pow b e).derive d = (do let db ← b.derive (d - 1); return powerRule b e db) := by
  rw [derive, if_neg (not_le.mpr hd)]

/-- The rules cover arithmetic at every depth. -/
theorem Arithmetic.exists_derive {n : Expr α} (h : n.Arithmetic) (d : ℤ) :
    ∃ m, n.derive d = .ok m := by
  induction h generalizing d with
  | num v => exact ⟨_, rfl⟩
  | var x => exact ⟨_, rfl⟩
  | @join op l r hop hl hr ihl ihr =>
    rcases le_or_gt d 0 with hd | hd
    · exact ⟨_, derive_of_nonpos _ _ _ hd⟩
    · obtain ⟨dl, hdl⟩ := ihl (d - 1)
      obtain ⟨dr, hdr⟩ := ihr (d - 1)
      exact ⟨joinRule op l r dl dr, by rw [derive_join hop l r hd, hdl, hdr]; rfl⟩
  | @power b e hb ih =>
    rcases le_or_gt d 0 with hd | hd
    · exact ⟨_, derive_of_nonpos _ _ _ hd⟩
    · obtain ⟨db, hdb⟩ := ih (d - 1)
      exact ⟨powerRule b e db, by rw [derive_power b e hd, hdb]; rfl⟩
  | marker ht => exact ht.elim

/-! ## Evaluating -/

theorem endsIn_finite (op : Operator) (a b v : α) :
    EndsIn PassError.IsNumeric (fun _ => True) (finite op a b v) := by
  rw [finite]
  split
  · trivial
  · trivial

theorem endsIn_fold {op : Operator} {l r : Expr α} (h : (bin op l r).Arithmetic) (a b : α) :
    EndsIn PassError.IsNumeric (fun _ => True) (fold op a b) := by
  cases h with
  | join hop hl hr =>
    fin_cases hop
    · exact endsIn_finite _ _ _ _
    · exact endsIn_finite _ _ _ _
    · exact endsIn_finite _ _ _ _
    · show EndsIn _ _ (if b == 0 then _ else _)
      split
      · trivial
      · exact endsIn_finite _ _ _ _
  | power hb => exact endsIn_finite _ _ _ _

theorem Arithmetic.simplify {op : Operator} {l r : Expr α} (h : (bin op l r).Arithmetic) :
    (Expr.simplify op l r).Arithmetic := by
  rcases simplify_cases op l r with h' | h' | ⟨v, -, h'⟩ | ⟨-, h'⟩ <;> rw [h']
  · exact h.left
  · exact h.right
  · exact .num v
  · exact h

theorem Arithmetic.endsIn_evaluateNode {op : Operator} {l r : Expr α} (h : (bin op l r).Arithmetic) :
    EndsIn PassError.IsNumeric Arithmetic (evaluateNode op l r) := by
  fun_cases evaluateNode op l r with
  | case1 a b => exact (endsIn_fold h a b).map fun v _ => .num v
  | case2 l r hne => exact h.simplify

theorem endsIn_resolve {t : Expr α} (ht : t.IsAtom) (x : String) :
    EndsIn PassError.IsNumeric (fun _ => True) (t.resolve x) := by
  cases t with
  | num v => trivial
  | var y => trivial
  | bin op l r => exact ht.elim
  | pending t => exact ht.elim
  | hole => exact ht.elim

/-- Once markers stand on atoms, only numbers can stop the evaluation, and no marker is left. -/
theorem Resolvable.endsIn_evaluate {e : Expr α} (h : e.Resolvable) (x : String) :
    EndsIn PassError.IsNumeric Arithmetic (e.evaluate x) := by
  induction h with
  | num v => exact .num v
  | var y => exact .var y
  | join hop hl hr ihl ihr =>
    rw [evaluate]
    refine ihl.bind fun l' hl' => ihr.bind fun r' hr' => ?_
    exact Arithmetic.endsIn_evaluateNode (.join hop hl' hr')
  | power hb ih =>
    rw [evaluate]
    refine ih.bind fun b' hb' => ?_
    exact Arithmetic.endsIn_evaluateNode (.power hb')
  | marker ht =>
    rw [evaluate]
    exact (endsIn_resolve ht x).map fun v _ => .num v

/-! ## Quotients -/

/-- Every quotient of arithmetic can be written as a product. -/
theorem Arithmetic.exists_removeDivision {e : Expr α} (h : e.Arithmetic) :
    ∃ e', e.removeDivision = .ok e' ∧ e'.Undivided := by
  induction h with
  | num v => exact ⟨_, rfl, .num v⟩
  | var x => exact ⟨_, rfl, .var x⟩
  | @join op l r hop hl hr ihl ihr =>
    obtain ⟨l', hl, hl'⟩ := ihl
    obtain ⟨r', hr, hr'⟩ := ihr
    refine ⟨_, by rw [removeDivision, hl, hr]; rfl, ?_⟩
    fin_cases hop
    · exact .join (by decide) hl' hr'
    · exact .join (by decide) hl' hr'
    · exact .join (by decide) hl' hr'
    · exact .join (by decide) hl' (.power hr')
  | @power b e hb ih =>
    obtain ⟨b', hb, hb'⟩ := ih
    exact ⟨_, by rw [removeDivision, hb]; rfl, .power hb'⟩
  | marker ht => exact ht.elim

theorem fractional_arithmetic : Fractional (Arithmetic : Expr α → Prop) where
  operands h := ⟨h.left, h.right⟩
  add hl hr := .join (by decide) hl hr
  sub hl hr := .join (by decide) hl hr
  mul hl hr := .join (by decide) hl hr
  div hl hr := .join (by decide) hl hr
  power _ hb := ⟨.power hb, .power hb⟩
  one := .num 1

end Expr

/-! ## Terms -/

variable [Scalar α]

theorem Terms.endsIn_pow (ts : List (Term α)) (e : α) :
    EndsIn PassError.IsNumeric (fun _ => True) (Terms.pow ts e) := by
  rw [Terms.pow]
  split
  · split
    · trivial
    · trivial
  · rw [Term.pow]
    split
    · trivial
    · trivial
  · trivial

/-- Without quotients, only numbers can stop the decomposition. -/
theorem Expr.Undivided.endsIn_decompose {e : Expr α} (h : e.Undivided) :
    EndsIn PassError.IsNumeric (fun _ => True) e.decompose := by
  induction h with
  | num v => trivial
  | var x => trivial
  | join hop hl hr ihl ihr =>
    rw [decompose]
    refine ihl.bind fun ts _ => ?_
    fin_cases hop <;> exact ihr.bind fun us _ => trivial
  | power hb ih =>
    rw [decompose]
    exact ih.bind fun ts _ => Terms.endsIn_pow ts _
  | marker ht => exact ht.elim

/-- The terms of arithmetic exist unless some computation has no finite result. -/
theorem Expr.Arithmetic.endsIn_canonicalTerms {e : Expr α} (h : e.Arithmetic) :
    EndsIn PassError.IsNumeric (fun _ => True) e.canonicalTerms := by
  rw [canonicalTerms]
  refine (EndsIn.of_exists (h.exists_distributeIn false)).bind fun expanded hexpanded => ?_
  refine (EndsIn.of_exists hexpanded.exists_removeDivision).bind fun undivided hundivided => ?_
  exact hundivided.endsIn_decompose.bind fun ts _ => trivial

theorem composes_undivided :
    Composes (Expr.Undivided : Expr α → Prop) (fun _ => True) fun _ => True where
  num _ := .num _
  var _ := .var _
  add hl hr := .join (by decide) hl hr
  sub hl hr := .join (by decide) hl hr
  mul hl hr := .join (by decide) hl hr
  pow hb _ := .power hb
  zero := trivial
  neg h := h

/-- Terms are put together without quotients. -/
theorem Terms.undivided_toExpr (ts : List (Term α)) : (Terms.toExpr ts).Undivided :=
  composes_undivided.toExpr (Terms.every_of_forall (fun _ => trivial) (fun _ _ => trivial) ts)
    (Terms.everyNumber_of_forall (fun _ => trivial) ts)

/-! ## The last stages -/

/-- The failure is about an operation on numbers. -/
def Cause.IsNumeric : Cause α → Prop
  | .pass err => err.IsNumeric
  | _ => False

namespace Differentiation

theorem outcome_runPass_eq (stage : Stage) (depth : ℕ) (r : Except (PassError α) (Expr α)) :
    (runPass stage depth r).outcome = r.mapError Cause.pass := by
  cases r with
  | error err => rfl
  | ok e => rfl

theorem endsIn_runPass {P : Expr α → Prop} {r : Except (PassError α) (Expr α)}
    (h : EndsIn PassError.IsNumeric P r) (stage : Stage) (depth : ℕ) :
    EndsIn Cause.IsNumeric P (runPass stage depth r).outcome := by
  rw [outcome_runPass_eq]
  exact h.mapError fun err herr => herr

/-- Once markers stand on atoms, only numbers can stop the stages that follow. -/
theorem endsIn_finish {m : Expr α} (h : m.Resolvable) (options : Options) (x : String) :
    EndsIn Cause.IsNumeric Expr.Arithmetic (finish options x m).outcome := by
  rw [finish]
  refine Traced.endsIn_bind (endsIn_runPass (h.endsIn_evaluate x) _ _) fun evaluated hevaluated => ?_
  refine Traced.endsIn_bind (endsIn_runPass (.of_exists (hevaluated.exists_distributeIn false)) _ _)
    fun expanded hexpanded => ?_
  refine Traced.endsIn_bind (endsIn_runPass (.of_exists hexpanded.exists_removeDivision) _ _)
    fun undivided hundivided => ?_
  refine Traced.endsIn_bind (hundivided.endsIn_decompose.mapError fun err herr => herr) fun ts _ => ?_
  refine Traced.endsIn_bind (P := fun _ => True) trivial fun _ _ => ?_
  refine Traced.endsIn_bind (P := Expr.Undivided) (Terms.undivided_toExpr _) fun composed hcomposed => ?_
  have hlast (e : Expr α) (he : e.Arithmetic) :
      EndsIn Cause.IsNumeric Expr.Arithmetic (runPass .simplify 0 (e.evaluate x)).outcome :=
    endsIn_runPass (he.resolvable.endsIn_evaluate x) _ _
  -- with or without restored quotients
  split
  · exact Traced.endsIn_bind (P := Expr.Arithmetic)
      (Expr.fractional_arithmetic.restoreDivision hcomposed.arithmetic) hlast
  · exact Traced.endsIn_bind (P := Expr.Arithmetic) hcomposed.arithmetic hlast

end Differentiation

end Fluxion
