import Fluxion.Expr
import Fluxion.Token.Lexer
import Fluxion.Proofs.Exact
import Fluxion.Proofs.Outcome

/-!
# The meaning of expressions

An `Interpretation` says what numbers, variables, quotients, powers and markers stand for in a ring, and
`Expr.denote` reads a whole tree. Two readings of trees over exact scalars matter most: `atPoint ρ`, the
rational number that a tree has when `ρ` gives the variables their values, and `alongPoint ρ x`, the
same over the dual numbers with `ρ x + ε` in the place of `x`. The coefficient of `ε` of the second is
the derivative at `ρ` with respect to `x`.

Quotients and powers are total here, with the usual value zero where they do not exist. `PoleFree ρ`
says that no such place is met: every divisor and every base of a negative power is non-zero at `ρ`.
-/

namespace Fluxion

open TrivSqZeroExt

variable {α R : Type}

/-- What the parts of an expression stand for, addition and multiplication of `R` aside. -/
structure Interpretation (α R : Type) where
  /-- The value of a number. -/
  number : α → R
  /-- The value of a variable. -/
  named : String → R
  /-- The quotient of two values. -/
  divide : R → R → R
  /-- The first value raised to the second. -/
  power : R → R → R
  /-- An operator code that stands for no operator. -/
  unknown : Int → R → R → R
  /-- The value of a marker on a target. -/
  marked : Expr α → R

namespace Expr

/-- The value of an expression. -/
def denote [Zero R] [Add R] [Sub R] [Mul R] (I : Interpretation α R) : Expr α → R
  | num v => I.number v
  | var x => I.named x
  | bin .add l r => l.denote I + r.denote I
  | bin .sub l r => l.denote I - r.denote I
  | bin .mul l r => l.denote I * r.denote I
  | bin .div l r => I.divide (l.denote I) (r.denote I)
  | bin .pow l r => I.power (l.denote I) (r.denote I)
  | bin (.other c) l r => I.unknown c (l.denote I) (r.denote I)
  | pending t => I.marked t
  | hole => 0

attribute [simp] denote

/-- The value of an operator node depends on the values of its operands only. -/
theorem denote_bin_congr [Zero R] [Add R] [Sub R] [Mul R] (I : Interpretation α R) (op : Operator)
    {l r l' r' : Expr α} (hl : l'.denote I = l.denote I) (hr : r'.denote I = r.denote I) :
    (bin op l' r').denote I = (bin op l r).denote I := by
  cases op <;> simp only [denote, hl, hr]

/-- Every operator node of the tree satisfies `P`. -/
def EveryNode (P : Operator → Expr α → Expr α → Prop) : Expr α → Prop
  | num _ => True
  | var _ => True
  | bin op l r => P op l r ∧ l.EveryNode P ∧ r.EveryNode P
  | pending t => t.EveryNode P
  | hole => True

attribute [simp] EveryNode

theorem EveryNode.imp {P Q : Operator → Expr α → Expr α → Prop} (h : ∀ op l r, P op l r → Q op l r)
    {e : Expr α} (he : e.EveryNode P) : e.EveryNode Q := by
  induction e with
  | num v => trivial
  | var x => trivial
  | bin op l r ihl ihr => exact ⟨h _ _ _ he.1, ihl he.2.1, ihr he.2.2⟩
  | pending t ih => exact ih he
  | hole => trivial

theorem everyNode_of_forall {P : Operator → Expr α → Expr α → Prop} (h : ∀ op l r, P op l r)
    (e : Expr α) : e.EveryNode P := by
  induction e with
  | num v => trivial
  | var x => trivial
  | bin op l r ihl ihr => exact ⟨h op l r, ihl, ihr⟩
  | pending t ih => exact ih
  | hole => trivial

instance decidableEveryNode {P : Operator → Expr α → Expr α → Prop}
    [∀ op l r, Decidable (P op l r)] : (e : Expr α) → Decidable (e.EveryNode P)
  | num _ => .isTrue trivial
  | var _ => .isTrue trivial
  | bin op l r =>
    have := decidableEveryNode (P := P) l
    have := decidableEveryNode (P := P) r
    inferInstanceAs (Decidable (P op l r ∧ l.EveryNode P ∧ r.EveryNode P))
  | pending t => decidableEveryNode (P := P) t
  | hole => .isTrue trivial

instance {P : α → Prop} [DecidablePred P] (r : Expr α) : Decidable (∃ k : α, r = num k ∧ P k) :=
  match r with
  | num k => decidable_of_iff (P k) (by simp)
  | var _ => .isFalse (by simp)
  | bin .. => .isFalse (by simp)
  | pending _ => .isFalse (by simp)
  | hole => .isFalse (by simp)

/-- The names of the variables of a tree, from left to right. -/
def names : Expr α → List String
  | num _ => []
  | var x => [x]
  | bin _ l r => l.names ++ r.names
  | pending t => t.names
  | hole => []

/-- Every variable has a name that satisfies `A`. -/
def Named (A : String → Prop) (e : Expr α) : Prop := ∀ x ∈ e.names, A x

theorem named_bin {A : String → Prop} {op : Operator} {l r : Expr α} :
    (bin op l r).Named A ↔ l.Named A ∧ r.Named A := List.forall_mem_append

theorem Named.mono {A : String → Prop} {e m : Expr α} (he : e.Named A) (h : m.names ⊆ e.names) :
    m.Named A := fun x hx => he x (h hx)

/-- Every variable is a run of ASCII letters. -/
def Lettered (e : Expr α) : Prop := ∀ x ∈ e.names, (Utf8.bytes x).all isLetter = true

instance (e : Expr α) : Decidable e.Lettered :=
  inferInstanceAs (Decidable (∀ x ∈ e.names, (Utf8.bytes x).all isLetter = true))

theorem lettered_bin {op : Operator} {l r : Expr α} :
    (bin op l r).Lettered ↔ l.Lettered ∧ r.Lettered := named_bin

/-- The tree holds no marker. -/
def MarkerFree : Expr α → Prop
  | num _ => True
  | var _ => True
  | bin _ l r => l.MarkerFree ∧ r.MarkerFree
  | pending _ => False
  | hole => True

attribute [simp] MarkerFree

/-- Without markers it does not matter what markers stand for. -/
theorem MarkerFree.denote_congr [Zero R] [Add R] [Sub R] [Mul R] {e : Expr α} (h : e.MarkerFree)
    (I : Interpretation α R) (marked : Expr α → R) :
    e.denote { I with marked := marked } = e.denote I := by
  induction e with
  | num v => rfl
  | var x => rfl
  | bin op l r ihl ihr =>
    have hl := ihl h.1
    have hr := ihr h.2
    cases op <;> simp only [denote, hl, hr]
  | pending t ih => exact h.elim
  | hole => rfl

/-- A condition on trees that an operator node has exactly when its operands have it. -/
structure Hereditary (Q : Expr α → Prop) : Prop where
  bin (op : Operator) (l r : Expr α) : Q (bin op l r) ↔ Q l ∧ Q r
  pending (t t' : Expr α) : (Q t → Q t') → Q (pending t) → Q (pending t')

theorem hereditary_named (A : String → Prop) : Hereditary (Named A : Expr α → Prop) where
  bin _ _ _ := named_bin
  pending _ _ h := h

theorem hereditary_lettered : Hereditary (Lettered : Expr α → Prop) := hereditary_named _

theorem hereditary_markerFree : Hereditary (MarkerFree : Expr α → Prop) where
  bin _ _ _ := Iff.rfl
  pending _ _ _ h := h.elim

theorem hereditary_isWhole : Hereditary (fun e : Expr α => e.isWhole = true) where
  bin _ _ _ := by rw [isWhole, Bool.and_eq_true]
  pending _ _ h := h

end Expr

/-! ## Exact readings -/

variable [ExactScalar α]

/-- The rational number that an expression has at a point; a marker counts as zero. -/
def atPoint (ρ : String → ℚ) : Interpretation α ℚ where
  number := ExactScalar.value
  named := ρ
  divide := (· / ·)
  power b e := b ^ e.num
  unknown _ _ _ := 0
  marked _ := 0

/-- An integer power of a dual number. -/
noncomputable def dualPower (z : DualNumber ℚ) : ℤ → DualNumber ℚ
  | .ofNat n => z ^ n
  | .negSucc n => (z ^ (n + 1))⁻¹

/-- The dual number that an expression has at `ρ` with `x` moved by `ε`. -/
noncomputable def alongPoint (ρ : String → ℚ) (x : String) : Interpretation α (DualNumber ℚ) where
  number v := inl (ExactScalar.value v)
  named y := if y = x then inl (ρ y) + DualNumber.eps else inl (ρ y)
  divide a b := a * b⁻¹
  power b e := dualPower b e.fst.num
  unknown _ _ _ := 0
  marked _ := 0

namespace Expr

/-- The value of an expression at a point. -/
def valueAt (ρ : String → ℚ) (e : Expr α) : ℚ := e.denote (atPoint ρ)

/-- The derivative of an expression with respect to `x` at a point. -/
noncomputable def derivativeAt (ρ : String → ℚ) (x : String) (e : Expr α) : ℚ :=
  (e.denote (alongPoint ρ x)).snd

/-- The exponent of every power is an integer literal. -/
def IntegerPowers (e : Expr α) : Prop :=
  e.EveryNode fun op _ r => op = .pow → ∃ k : α, r = num k ∧ ExactScalar.IsInteger k

instance (e : Expr α) : Decidable e.IntegerPowers :=
  inferInstanceAs (Decidable (e.EveryNode _))

/-- Every divisor and every base of a negative power is non-zero at the point. -/
def PoleFree (ρ : String → ℚ) (e : Expr α) : Prop :=
  e.EveryNode fun op l r =>
    (op = .div → r.valueAt ρ ≠ 0) ∧ (op = .pow → r.valueAt ρ < 0 → l.valueAt ρ ≠ 0)

instance (ρ : String → ℚ) (e : Expr α) : Decidable (e.PoleFree ρ) :=
  inferInstanceAs (Decidable (e.EveryNode _))

/-- There is no marker, all exponents are integer literals, and nothing is undefined at the point. -/
def Regular (ρ : String → ℚ) (e : Expr α) : Prop :=
  e.MarkerFree ∧ e.IntegerPowers ∧ e.PoleFree ρ

/-! ## The value, operator by operator -/

section Value

variable (ρ : String → ℚ)

@[simp] theorem valueAt_num (v : α) : (num v).valueAt ρ = ExactScalar.value v := rfl

@[simp] theorem valueAt_var (x : String) : (var x : Expr α).valueAt ρ = ρ x := rfl

@[simp] theorem valueAt_add (l r : Expr α) :
    (bin .add l r).valueAt ρ = l.valueAt ρ + r.valueAt ρ := rfl

@[simp] theorem valueAt_sub (l r : Expr α) :
    (bin .sub l r).valueAt ρ = l.valueAt ρ - r.valueAt ρ := rfl

@[simp] theorem valueAt_mul (l r : Expr α) :
    (bin .mul l r).valueAt ρ = l.valueAt ρ * r.valueAt ρ := rfl

@[simp] theorem valueAt_div (l r : Expr α) :
    (bin .div l r).valueAt ρ = l.valueAt ρ / r.valueAt ρ := rfl

@[simp] theorem valueAt_pow (b : Expr α) (e : α) :
    (bin .pow b (num e)).valueAt ρ = b.valueAt ρ ^ ExactScalar.integer e := rfl

end Value

/-! ## Regular trees -/

section Regular

variable {ρ : String → ℚ} {l r : Expr α}

theorem regular_num (v : α) : (num v).Regular ρ := ⟨trivial, trivial, trivial⟩

theorem regular_var (x : String) : (var x : Expr α).Regular ρ := ⟨trivial, trivial, trivial⟩

theorem regular_bin_iff {op : Operator} :
    (bin op l r).Regular ρ ↔
      ((op = .pow → ∃ k : α, r = num k ∧ ExactScalar.IsInteger k) ∧
        (op = .div → r.valueAt ρ ≠ 0) ∧ (op = .pow → r.valueAt ρ < 0 → l.valueAt ρ ≠ 0)) ∧
      l.Regular ρ ∧ r.Regular ρ := by
  constructor
  · rintro ⟨⟨hml, hmr⟩, ⟨hint, hil, hir⟩, hpole, hpl, hpr⟩
    exact ⟨⟨hint, hpole⟩, ⟨hml, hil, hpl⟩, hmr, hir, hpr⟩
  · rintro ⟨⟨hint, hpole⟩, ⟨hml, hil, hpl⟩, hmr, hir, hpr⟩
    exact ⟨⟨hml, hmr⟩, ⟨hint, hil, hir⟩, hpole, hpl, hpr⟩

theorem Regular.add (hl : l.Regular ρ) (hr : r.Regular ρ) : (bin .add l r).Regular ρ :=
  regular_bin_iff.mpr ⟨by simp, hl, hr⟩

theorem Regular.sub (hl : l.Regular ρ) (hr : r.Regular ρ) : (bin .sub l r).Regular ρ :=
  regular_bin_iff.mpr ⟨by simp, hl, hr⟩

theorem Regular.mul (hl : l.Regular ρ) (hr : r.Regular ρ) : (bin .mul l r).Regular ρ :=
  regular_bin_iff.mpr ⟨by simp, hl, hr⟩

theorem Regular.div (hl : l.Regular ρ) (hr : r.Regular ρ) (h : r.valueAt ρ ≠ 0) :
    (bin .div l r).Regular ρ :=
  regular_bin_iff.mpr ⟨⟨by simp, fun _ => h, by simp⟩, hl, hr⟩

theorem Regular.pow {e : α} (hl : l.Regular ρ) (he : ExactScalar.IsInteger e)
    (h : ExactScalar.value e < 0 → l.valueAt ρ ≠ 0) : (bin .pow l (num e)).Regular ρ :=
  regular_bin_iff.mpr ⟨⟨fun _ => ⟨e, rfl, he⟩, by simp, fun _ => h⟩, hl, regular_num e⟩

end Regular

/-! ## Dual numbers -/

theorem fst_dualPower (z : DualNumber ℚ) (k : ℤ) : (dualPower z k).fst = z.fst ^ k := by
  cases k with
  | ofNat n => rw [dualPower, fst_pow, Int.ofNat_eq_natCast, zpow_natCast]
  | negSucc n => rw [dualPower, fst_inv, fst_pow, zpow_negSucc]

/-- The power rule holds for every integer exponent at which the power exists. -/
theorem snd_dualPower (z : DualNumber ℚ) (k : ℤ) (h : k < 0 → z.fst ≠ 0) :
    (dualPower z k).snd = k * z.fst ^ (k - 1) * z.snd := by
  cases k with
  | ofNat n =>
    rw [dualPower, snd_pow]
    cases n with
    | zero => simp
    | succ n => simp [mul_assoc]
  | negSucc n =>
    have hz : z.fst ≠ 0 := h (Int.negSucc_lt_zero n)
    have hexp : Int.negSucc n - 1 = -((n + 2 : ℕ) : ℤ) := by
      rw [Int.negSucc_eq]
      push_cast
      ring
    rw [dualPower, snd_inv, snd_pow, fst_pow, hexp, zpow_neg, zpow_natCast]
    simp only [Nat.pred_succ, smul_eq_mul, MulOpposite.op_inv, MulOpposite.smul_eq_mul_unop,
      MulOpposite.unop_inv, MulOpposite.unop_op, nsmul_eq_mul, Int.cast_negSucc]
    field_simp
    ring

/-- Without `ε` the dual reading is the reading at the point. -/
theorem fst_denote_alongPoint (ρ : String → ℚ) (x : String) (e : Expr α) :
    (e.denote (alongPoint ρ x)).fst = e.valueAt ρ := by
  induction e with
  | num v => rfl
  | var y => by_cases h : y = x <;> simp [alongPoint, h]
  | bin op l r ihl ihr =>
    cases op with
    | add => simp [ihl, ihr]
    | sub => simp [ihl, ihr]
    | mul => simp [ihl, ihr]
    | div => simp [alongPoint, ← ihl, ← ihr, div_eq_mul_inv]
    | pow =>
      simp only [denote, alongPoint, fst_dualPower] at ihl ihr ⊢
      rw [ihl, ihr]
      rfl
    | other c => rfl
  | pending t ih => rfl
  | hole => rfl

/-! ## The derivative, operator by operator -/

section Derivative

variable (ρ : String → ℚ) (x : String)

@[simp] theorem derivativeAt_num (v : α) : (num v).derivativeAt ρ x = 0 := rfl

@[simp] theorem derivativeAt_var (y : String) :
    (var y : Expr α).derivativeAt ρ x = if y = x then 1 else 0 := by
  by_cases h : y = x <;> simp [derivativeAt, alongPoint, h]

@[simp] theorem derivativeAt_add (l r : Expr α) :
    (bin .add l r).derivativeAt ρ x = l.derivativeAt ρ x + r.derivativeAt ρ x := rfl

@[simp] theorem derivativeAt_sub (l r : Expr α) :
    (bin .sub l r).derivativeAt ρ x = l.derivativeAt ρ x - r.derivativeAt ρ x := rfl

@[simp] theorem derivativeAt_mul (l r : Expr α) :
    (bin .mul l r).derivativeAt ρ x =
      l.derivativeAt ρ x * r.valueAt ρ + l.valueAt ρ * r.derivativeAt ρ x := by
  simp only [derivativeAt, denote, snd_mul, fst_denote_alongPoint, smul_eq_mul,
    MulOpposite.smul_eq_mul_unop, MulOpposite.unop_op]
  ring

theorem derivativeAt_div (l r : Expr α) (h : r.valueAt ρ ≠ 0) :
    (bin .div l r).derivativeAt ρ x =
      (l.derivativeAt ρ x * r.valueAt ρ - l.valueAt ρ * r.derivativeAt ρ x) /
        r.valueAt ρ ^ 2 := by
  have hdiv : (bin .div l r).derivativeAt ρ x =
      (l.denote (alongPoint ρ x) * (r.denote (alongPoint ρ x))⁻¹).snd := rfl
  rw [hdiv, snd_mul, snd_inv, fst_inv, fst_denote_alongPoint, fst_denote_alongPoint]
  simp only [smul_eq_mul, MulOpposite.smul_eq_mul_unop, MulOpposite.unop_op]
  rw [← derivativeAt, ← derivativeAt]
  field_simp
  ring

theorem derivativeAt_pow (b : Expr α) (e : α)
    (h : ExactScalar.integer e < 0 → b.valueAt ρ ≠ 0) :
    (bin .pow b (num e)).derivativeAt ρ x =
      ExactScalar.integer e * b.valueAt ρ ^ (ExactScalar.integer e - 1) * b.derivativeAt ρ x := by
  have hpow : (bin .pow b (num e)).derivativeAt ρ x =
      (dualPower (b.denote (alongPoint ρ x)) (ExactScalar.integer e)).snd := rfl
  rw [hpow, snd_dualPower _ _ (by rwa [fst_denote_alongPoint]), fst_denote_alongPoint,
    ← derivativeAt]

end Derivative

end Expr

end Fluxion
