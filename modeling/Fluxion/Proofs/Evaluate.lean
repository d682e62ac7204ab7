import Fluxion.Expr.Evaluate
import Fluxion.Proofs.Meaning
import Fluxion.Proofs.Rational

/-!
# Evaluation keeps the value

Evaluation resolves markers, computes with numbers and applies the identities for zero and one. Over
exact scalars none of this changes the value of a tree, when a marker on the variable stands for one and a
marker on any other atom for zero. It does not matter what quotients and powers are taken to be where they
do not exist, as long as nothing of that kind is met in the tree. It may be met in a product with the
literal zero on its left, because such a product is zero whatever its right factor is.
-/

namespace Fluxion

open ExactScalar

variable {α : Type}

namespace Expr

section Scalar

variable [Scalar α]

/-- None of the identities for zero and one applies to a node. -/
def IdentityFree : Operator → Expr α → Expr α → Prop
  | .add, l, r => l.isNumber 0 = false ∧ r.isNumber 0 = false
  | .sub, _, r => r.isNumber 0 = false
  | .mul, l, r =>
    (l.isNumber 0 = false ∧ r.isNumber 0 = false) ∧ l.isNumber 1 = false ∧ r.isNumber 1 = false
  | .div, l, r => r.isNumber 1 = false ∧ l.isNumber 0 = false
  | .pow, _, r => r.isNumber 1 = false ∧ r.isNumber 0 = false
  | .other _, _, _ => True

/-- The operands are not two numbers. -/
def Symbolic (l r : Expr α) : Prop := ∀ a b : α, l = num a → r = num b → False

/-- Simplification returns an operand, zero, one or, where no identity applies, the node itself. -/
theorem simplify_cases (op : Operator) (l r : Expr α) :
    simplify op l r = l ∨ simplify op l r = r ∨
      (∃ v : α, (v = 0 ∨ v = 1) ∧ simplify op l r = num v) ∨
      IdentityFree op l r ∧ simplify op l r = bin op l r := by
  cases op with
  | other c => exact Or.inr (Or.inr (Or.inr ⟨trivial, rfl⟩))
  | _ =>
    simp only [simplify, IdentityFree]
    split_ifs <;> simp_all

theorem IdentityFree.simplify_eq {op : Operator} {l r : Expr α} (h : IdentityFree op l r) :
    simplify op l r = bin op l r := by
  cases op with
  | add =>
    obtain ⟨hl, hr⟩ := h
    simp [simplify, hl, hr]
  | sub =>
    have hr : r.isNumber 0 = false := h
    simp [simplify, hr]
  | mul =>
    obtain ⟨⟨hl0, hr0⟩, hl1, hr1⟩ := h
    simp [simplify, hl0, hr0, hl1, hr1]
  | div =>
    obtain ⟨hr, hl⟩ := h
    simp [simplify, hr, hl]
  | pow =>
    obtain ⟨h1, h0⟩ := h
    simp [simplify, h1, h0]
  | other c => rfl

theorem Symbolic.evaluateNode_eq {l r : Expr α} (h : Symbolic l r) (op : Operator) :
    evaluateNode op l r = .ok (simplify op l r) := by
  rw [evaluateNode]
  exact h

/-- A node with two numbers is computed, any other is simplified. -/
theorem evaluateNode_cases {op : Operator} {l r m : Expr α} (h : evaluateNode op l r = .ok m) :
    (∃ a b v, l = num a ∧ r = num b ∧ fold op a b = .ok v ∧ m = num v) ∨
      Symbolic l r ∧ m = simplify op l r := by
  fun_cases evaluateNode op l r with
  | case1 a b =>
    rw [evaluateNode] at h
    obtain ⟨v, hv, rfl⟩ := map_eq_ok.mp h
    exact Or.inl ⟨a, b, v, rfl, rfl, hv, rfl⟩
  | case2 l r hsym =>
    have hsym : Symbolic l r := hsym
    rw [hsym.evaluateNode_eq] at h
    exact Or.inr ⟨hsym, (Except.ok.inj h).symm⟩

theorem evaluate_bin {x : String} {op : Operator} {l r m : Expr α}
    (h : (bin op l r).evaluate x = .ok m) :
    ∃ l' r', l.evaluate x = .ok l' ∧ r.evaluate x = .ok r' ∧ evaluateNode op l' r' = .ok m := by
  unfold evaluate at h
  obtain ⟨l', hl, h⟩ := bind_eq_ok.mp h
  obtain ⟨r', hr, h⟩ := bind_eq_ok.mp h
  exact ⟨l', r', hl, hr, h⟩

theorem EveryNode.evaluateNode {P : Operator → Expr α → Expr α → Prop} {op : Operator}
    {l r m : Expr α} (hl : l.EveryNode P) (hr : r.EveryNode P) (hp : P op l r)
    (h : Expr.evaluateNode op l r = .ok m) : m.EveryNode P := by
  rcases evaluateNode_cases h with ⟨a, b, v, rfl, rfl, hf, rfl⟩ | ⟨-, rfl⟩
  · trivial
  · rcases simplify_cases op l r with h' | h' | ⟨v, -, h'⟩ | ⟨-, h'⟩ <;> rw [h']
    · exact hl
    · exact hr
    · trivial
    · exact ⟨hp, hl, hr⟩

theorem names_evaluateNode_subset {op : Operator} {l r m : Expr α} (h : evaluateNode op l r = .ok m) :
    m.names ⊆ l.names ++ r.names := by
  rcases evaluateNode_cases h with ⟨a, b, v, rfl, rfl, hf, rfl⟩ | ⟨-, rfl⟩
  · exact List.nil_subset _
  · rcases simplify_cases op l r with h' | h' | ⟨v, -, h'⟩ | ⟨-, h'⟩ <;> rw [h']
    · exact List.subset_append_left _ _
    · exact List.subset_append_right _ _
    · exact List.nil_subset _
    · exact List.Subset.refl _

/-- Evaluation brings in no new variable. -/
theorem names_evaluate_subset {x : String} {e m : Expr α} (h : e.evaluate x = .ok m) :
    m.names ⊆ e.names := by
  induction e generalizing m with
  | num v => cases h; exact List.Subset.refl _
  | var y => cases h; exact List.Subset.refl _
  | bin op l r ihl ihr =>
    obtain ⟨l', r', hl, hr, hm⟩ := evaluate_bin h
    exact List.Subset.trans (names_evaluateNode_subset hm)
      (List.append_subset.mpr ⟨List.Subset.trans (ihl hl) (List.subset_append_left _ _),
        List.Subset.trans (ihr hr) (List.subset_append_right _ _)⟩)
  | pending t ih =>
    obtain ⟨v, -, rfl⟩ := map_eq_ok.mp h
    exact List.nil_subset _
  | hole => cases h

end Scalar

end Expr

variable [ExactScalar α]

/-- Numbers stand for their values, and quotients and integer powers are those of the rational numbers
wherever they exist. -/
structure Interpretation.Exact (I : Interpretation α ℚ) : Prop where
  number (v : α) : I.number v = value v
  divide {a b : ℚ} : b ≠ 0 → I.divide a b = a / b
  power {b : ℚ} {k : ℤ} : (k < 0 → b ≠ 0) → I.power b k = b ^ k

/-- An exact reading in which a marker on `x` stands for one and a marker on any other atom for zero. -/
structure Interpretation.Resolves (I : Interpretation α ℚ) (x : String) : Prop extends I.Exact where
  marked_var (y : String) : I.marked (.var y) = if y = x then 1 else 0
  marked_num (v : α) : I.marked (.num v) = 0

theorem exact_atPoint (ρ : String → ℚ) : (atPoint ρ : Interpretation α ℚ).Exact where
  number _ := rfl
  divide _ := rfl
  power {b k} _ := by
    show b ^ ((k : ℚ)).num = b ^ k
    rw [Rat.num_intCast]

/-- The value at a point, a marker being the derivative of its target with respect to `x`. -/
noncomputable def resolvedAt (ρ : String → ℚ) (x : String) : Interpretation α ℚ :=
  { atPoint ρ with marked := fun t => t.derivativeAt ρ x }

theorem resolves_resolvedAt (ρ : String → ℚ) (x : String) :
    (resolvedAt ρ x : Interpretation α ℚ).Resolves x := by
  have hpoint : (atPoint ρ : Interpretation α ℚ).Exact := exact_atPoint ρ
  exact {
    number := hpoint.number
    divide := hpoint.divide
    power := hpoint.power
    marked_var := fun y => Expr.derivativeAt_var ρ x y
    marked_num := fun v => Expr.derivativeAt_num ρ x v }

namespace Expr

/-- As `PoleFree`, with markers read as derivatives, and with an exemption for the right factor of a
product whose left factor is the literal zero. -/
def Guarded (ρ : String → ℚ) (x : String) : Expr α → Prop
  | num _ => True
  | var _ => True
  | bin op l r =>
    (op = .mul ∧ l.isNumber 0 = true) ∨
      ((op = .div → r.denote (resolvedAt ρ x) ≠ 0) ∧
        (op = .pow → r.denote (resolvedAt ρ x) < 0 → l.denote (resolvedAt ρ x) ≠ 0)) ∧
      l.Guarded ρ x ∧ r.Guarded ρ x
  | pending _ => True
  | hole => True

/-- Only markers are read differently. -/
theorem denote_resolvedAt {e : Expr α} (h : e.MarkerFree) (ρ : String → ℚ) (x : String) :
    e.denote (resolvedAt ρ x) = e.valueAt ρ :=
  h.denote_congr (atPoint ρ) _

theorem PoleFree.guarded {ρ : String → ℚ} {x : String} {e : Expr α} (h : e.PoleFree ρ)
    (hm : e.MarkerFree) : e.Guarded ρ x := by
  induction e with
  | num v => trivial
  | var y => trivial
  | bin op l r ihl ihr =>
    refine Or.inr ⟨?_, ihl h.2.1 hm.1, ihr h.2.2 hm.2⟩
    rw [denote_resolvedAt hm.1, denote_resolvedAt hm.2]
    exact h.1
  | pending t ih => exact hm.elim
  | hole => trivial

/-! ## One node -/

section Node

variable {op : Operator} {l r m : Expr α}

theorem finite_eq_ok {a b v w : α} (h : finite op a b v = .ok w) : w = v := by
  rw [finite] at h
  split at h
  · exact (Except.ok.inj h).symm
  · cases h

section Exact

variable {I : Interpretation α ℚ} (hI : I.Exact)

include hI

theorem denote_of_isNumber {e : Expr α} {v : α} (h : e.isNumber v = true) : e.denote I = value v := by
  cases e with
  | num a =>
    have ha : value a = value v := (beq_iff a v).mp h
    rw [denote, hI.number, ha]
  | var y => cases h
  | bin op l r => cases h
  | pending t => cases h
  | hole => cases h

theorem denote_zero : (num 0 : Expr α).denote I = 0 := by
  rw [denote, hI.number, value_zero]

theorem denote_one : (num 1 : Expr α).denote I = 1 := by
  rw [denote, hI.number, value_one]

theorem denote_power {b : ℚ} {k : α} (hk : IsInteger k) (h : value k < 0 → b ≠ 0) :
    I.power b (I.number k) = b ^ integer k := by
  rw [hI.number, hk.value_eq]
  exact hI.power fun hneg => h ((integer_neg_iff k).mp hneg)

/-- An operator applied to two numbers is computed exactly. -/
theorem denote_fold {a b v : α} (h : fold op a b = .ok v)
    (hpow : op = .pow → IsInteger b ∧ (value b < 0 → value a ≠ 0)) :
    (num v).denote I = (bin op (num a) (num b)).denote I := by
  cases op with
  | add => simp only [denote, hI.number, finite_eq_ok h, value_add]
  | sub => simp only [denote, hI.number, finite_eq_ok h, value_sub]
  | mul => simp only [denote, hI.number, finite_eq_ok h, value_mul]
  | div =>
    rw [fold] at h
    split at h
    · cases h
    · rename_i hb
      rw [beq_zero_iff] at hb
      simp only [denote, hI.number]
      rw [finite_eq_ok h, value_div a b hb, hI.divide hb]
  | pow =>
    obtain ⟨hb, ha⟩ := hpow rfl
    have hpower : value v = value a ^ integer b := by
      rw [finite_eq_ok h]
      exact value_pow a b _ hb.value_eq fun hneg => ha ((integer_neg_iff b).mp hneg)
    simp only [denote]
    rw [denote_power hI hb (by rwa [hI.number]), hI.number, hI.number, hpower]
  | other c => cases h

/-- The identities for zero and one keep the value. -/
theorem denote_simplify (hdiv : op = .div → r.denote I ≠ 0) (hpow : op = .pow → ∃ k, r = num k) :
    (simplify op l r).denote I = (bin op l r).denote I := by
  have hzero {e : Expr α} (h : e.isNumber 0 = true) : e.denote I = 0 := by
    rw [denote_of_isNumber hI h, value_zero]
  have hone {e : Expr α} (h : e.isNumber 1 = true) : e.denote I = 1 := by
    rw [denote_of_isNumber hI h, value_one]
  cases op with
  | add =>
    simp only [simplify]
    split_ifs with h1 h2
    · rw [denote, hzero h1, zero_add]
    · rw [denote, hzero h2, add_zero]
    · rfl
  | sub =>
    simp only [simplify]
    split_ifs with h1
    · rw [denote, hzero h1, sub_zero]
    · rfl
  | mul =>
    simp only [simplify]
    split_ifs with h1 h2 h3
    · rw [denote_zero hI, denote]
      rcases Bool.or_eq_true_iff.mp h1 with h | h
      · rw [hzero h, zero_mul]
      · rw [hzero h, mul_zero]
    · rw [denote, hone h2, one_mul]
    · rw [denote, hone h3, mul_one]
    · rfl
  | div =>
    simp only [simplify]
    split_ifs with h1 h2
    · rw [denote, hI.divide (hdiv rfl), hone h1, div_one]
    · rw [denote_zero hI, denote, hI.divide (hdiv rfl), hzero h2, zero_div]
    · rfl
  | pow =>
    obtain ⟨k, rfl⟩ := hpow rfl
    have hpower (z : ℤ) (hz : 0 ≤ z) (hk : (num k).denote I = z) :
        I.power (l.denote I) ((num k).denote I) = l.denote I ^ z := by
      rw [hk]
      exact hI.power fun hneg => absurd hneg (by omega)
    simp only [simplify]
    split_ifs with h1 h2
    · rw [denote, hpower 1 (by decide) (by simpa using hone h1), zpow_one]
    · rw [denote_one hI, denote, hpower 0 (by decide) (by simpa using hzero h2), zpow_zero]
    · rfl
  | other c => rfl

theorem denote_evaluateNode (h : evaluateNode op l r = .ok m) (hdiv : op = .div → r.denote I ≠ 0)
    (hpow : op = .pow → ∃ k, r = num k ∧ IsInteger k ∧ (value k < 0 → l.denote I ≠ 0)) :
    m.denote I = (bin op l r).denote I := by
  rcases evaluateNode_cases h with ⟨a, b, v, rfl, rfl, hf, rfl⟩ | ⟨-, rfl⟩
  · refine denote_fold hI hf fun ho => ?_
    obtain ⟨k, hk, hint, hne⟩ := hpow ho
    cases hk
    rw [denote, hI.number] at hne
    exact ⟨hint, hne⟩
  · exact denote_simplify hI hdiv fun ho => (hpow ho).imp fun _ hk => hk.1

end Exact

/-- Zero times anything evaluates to a number that is zero. -/
theorem evaluateNode_zero_mul {c : α} (hc : value c = 0)
    (h : evaluateNode .mul (num c) r = .ok m) : ∃ v : α, m = num v ∧ value v = 0 := by
  rcases evaluateNode_cases h with ⟨a, b, v, ha, rfl, hf, rfl⟩ | ⟨-, rfl⟩
  · cases ha
    exact ⟨v, rfl, by rw [finite_eq_ok hf, value_mul, hc, zero_mul]⟩
  · have hz : (num c : Expr α).isNumber 0 = true := (beq_zero_iff c).mpr hc
    exact ⟨0, by simp [simplify, hz], value_zero⟩

end Node

/-! ## Whole trees -/

/-- A marker is resolved on an atom only, and becomes the number that it stands for. -/
theorem evaluate_pending {I : Interpretation α ℚ} {x : String} (hI : I.Resolves x) {t m : Expr α}
    (h : (pending t).evaluate x = .ok m) : ∃ v : α, m = num v ∧ value v = I.marked t := by
  rw [evaluate] at h
  cases t with
  | num v =>
    cases h
    exact ⟨0, rfl, by rw [hI.marked_num, value_zero]⟩
  | var y =>
    cases h
    refine ⟨_, rfl, ?_⟩
    rw [hI.marked_var]
    by_cases hy : y = x <;> simp [hy]
  | bin op l r => cases h
  | pending t => cases h
  | hole => cases h

/-- Nothing in the tree is undefined: every divisor and every base of a negative power is non-zero. -/
def DefinedUnder (I : Interpretation α ℚ) (e : Expr α) : Prop :=
  e.EveryNode fun op l r =>
    (op = .div → r.denote I ≠ 0) ∧ (op = .pow → r.denote I < 0 → l.denote I ≠ 0)

instance (I : Interpretation α ℚ) (e : Expr α) : Decidable (e.DefinedUnder I) :=
  inferInstanceAs (Decidable (e.EveryNode _))

/-- Whatever is evaluated keeps its value in every exact reading in which nothing of the tree is undefined.
Markers need no condition, since evaluation fails on a marker whose target is no atom. -/
theorem denote_evaluate (I : Interpretation α ℚ) (x : String) (n m : Expr α) (hI : I.Resolves x)
    (hint : n.IntegerPowers) (hdef : n.DefinedUnder I) (h : n.evaluate x = .ok m) :
    m.denote I = n.denote I := by
  induction n generalizing m with
  | num v => cases h; rfl
  | var y => cases h; rfl
  | bin op l r ihl ihr =>
    obtain ⟨l', r', hl, hr, hm⟩ := evaluate_bin h
    obtain ⟨⟨hdiv, hneg⟩, hdefl, hdefr⟩ := hdef
    have hvl : l'.denote I = l.denote I := ihl l' hint.2.1 hdefl hl
    have hvr : r'.denote I = r.denote I := ihr r' hint.2.2 hdefr hr
    rw [← hvr] at hdiv
    have hpow : op = .pow → ∃ k, r' = num k ∧ IsInteger k ∧ (value k < 0 → l'.denote I ≠ 0) := by
      intro ho
      obtain ⟨k, rfl, hk⟩ := hint.1 ho
      cases hr
      have hbase := hneg ho
      rw [denote, hI.number, ← hvl] at hbase
      exact ⟨k, rfl, hk, hbase⟩
    rw [denote_evaluateNode hI.toExact hm hdiv hpow]
    exact denote_bin_congr I op hvl hvr
  | pending t ih =>
    obtain ⟨v, rfl, hv⟩ := evaluate_pending hI h
    rw [denote, hI.number, hv, denote]
  | hole => cases h

section Rational

open scoped Rational

/-- A marker on the variable over a negative power, with numbers to compute and a power with exponent
zero of a base that is zero. -/
theorem denote_evaluate_quotient :
    (sub (div (pending (var "x")) (pow (var "y") (-2))) (mul (pow (num 2) 3)
        (pow (sub (var "x") (num 5)) 0)) : Expr ℚ).evaluate "x" =
      .ok (sub (div (num 1) (pow (var "y") (-2))) (num 8)) ∧
    (sub (div (num 1) (pow (var "y") (-2))) (num 8) : Expr ℚ).valueAt
      (fun z => if z = "x" then 5 else 3) = 1 := by
  have hevaluate : (sub (div (pending (var "x")) (pow (var "y") (-2))) (mul (pow (num 2) 3)
      (pow (sub (var "x") (num 5)) 0)) : Expr ℚ).evaluate "x" =
        .ok (sub (div (num 1) (pow (var "y") (-2))) (num 8)) := by
    decide +kernel
  refine ⟨hevaluate, ?_⟩
  rw [← denote_resolvedAt (by simp) _ "x",
    denote_evaluate _ "x" _ _ (resolves_resolvedAt _ "x") (by decide +kernel) (by decide +kernel)
      hevaluate]
  decide +kernel

end Rational

variable {ρ : String → ℚ} {x : String}

/-- Evaluation keeps the value and leaves a tree with the same kind of exponents, in which nothing is
undefined any more. -/
theorem evaluate_sound {e m : Expr α} (hint : e.IntegerPowers) (hg : e.Guarded ρ x)
    (h : e.evaluate x = .ok m) :
    m.valueAt ρ = e.denote (resolvedAt ρ x) ∧ m.IntegerPowers ∧ m.PoleFree ρ := by
  induction e generalizing m with
  | num v => cases h; exact ⟨rfl, trivial, trivial⟩
  | var y => cases h; exact ⟨rfl, trivial, trivial⟩
  | bin op l r ihl ihr =>
    obtain ⟨l', r', hl, hr, hm⟩ := evaluate_bin h
    rcases hg with ⟨rfl, hz⟩ | ⟨hnode, hgl, hgr⟩
    · cases l with
      | num c =>
        cases hl
        have hc : value c = 0 := (beq_zero_iff c).mp hz
        obtain ⟨v, rfl, hv⟩ := evaluateNode_zero_mul hc hm
        refine ⟨?_, trivial, trivial⟩
        show value v = value c * _
        rw [hv, hc, zero_mul]
      | var y => cases hz
      | bin op l r => cases hz
      | pending t => cases hz
      | hole => cases hz
    · obtain ⟨hvl, hil, hpl⟩ := ihl hint.2.1 hgl hl
      obtain ⟨hvr, hir, hpr⟩ := ihr hint.2.2 hgr hr
      rw [← hvl, ← hvr] at hnode
      have hexp : op = .pow → ∃ k, r' = num k ∧ IsInteger k ∧ (value k < 0 → l'.valueAt ρ ≠ 0) := by
        intro ho
        obtain ⟨k, rfl, hk⟩ := hint.1 ho
        cases hr
        exact ⟨k, rfl, hk, hnode.2 ho⟩
      refine ⟨?_, EveryNode.evaluateNode hil hir ?_ hm, EveryNode.evaluateNode hpl hpr hnode hm⟩
      · rw [valueAt, denote_evaluateNode (exact_atPoint ρ) hm hnode.1 hexp]
        cases op <;> simp only [valueAt, denote] at hvl hvr ⊢ <;> rw [hvl, hvr] <;> rfl
      · exact fun ho => (hexp ho).imp fun _ hk => ⟨hk.1, hk.2.1⟩
  | pending t ih =>
    obtain ⟨v, rfl, hv⟩ := evaluate_pending (resolves_resolvedAt ρ x) h
    exact ⟨hv, trivial, trivial⟩
  | hole => cases h

end Expr

end Fluxion
