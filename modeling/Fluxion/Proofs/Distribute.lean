import Fluxion.Expr.Distribute
import Fluxion.Proofs.Meaning

/-!
# Multiplying out keeps the meaning

Distribution rewrites a tree by the distributive law alone, so the value of the tree stays the same
whatever quotients, large powers and unknown operators stand for. It fails on a missing operand only. What
holds of every node of a tree, and holds of sums, differences and products anyway, also holds of every node
of the distributed tree.
-/

namespace Fluxion

open ExactScalar

variable {α R : Type}

/-- The exponents from one to ten stand for repeated products. -/
def Interpretation.WritesPowers [Scalar α] [Monoid R] (I : Interpretation α R) : Prop :=
  ∀ (e : α) (k : ℕ), Scalar.smallPower? e = some k → ∀ b : R, I.power b (I.number e) = b ^ k

namespace Expr

/-! ## Values in a ring -/

/-- A value of trees in a ring under which sums, differences and products are those of the ring. -/
structure RingValue {R : Type*} [Ring R] (f : Expr α → R) : Prop where
  add (l r : Expr α) : f (add l r) = f l + f r
  sub (l r : Expr α) : f (sub l r) = f l - f r
  mul (l r : Expr α) : f (mul l r) = f l * f r

namespace RingValue

variable {R : Type*} [Ring R] {f : Expr α → R} (hf : RingValue f)

include hf

theorem distributeRight (l r : Expr α) : f (Expr.distributeRight l r) = f l * f r := by
  fun_induction Expr.distributeRight l r with
  | case1 a b iha ihb => rw [hf.add, hf.add, iha, ihb, mul_add]
  | case2 a b iha ihb => rw [hf.sub, hf.sub, iha, ihb, mul_sub]
  | case3 r hadd hsub => exact hf.mul l r

theorem distributeProduct (l r : Expr α) : f (Expr.distributeProduct l r) = f l * f r := by
  fun_induction Expr.distributeProduct l r with
  | case1 a b iha ihb => rw [hf.add, hf.add, iha, ihb, add_mul]
  | case2 a b iha ihb => rw [hf.sub, hf.sub, iha, ihb, sub_mul]
  | case3 l hadd hsub => exact hf.distributeRight l r

theorem distributePower (b : Expr α) (n : ℕ) : f (Expr.distributePower b n) = f b ^ (n + 1) := by
  induction n with
  | zero => rw [Expr.distributePower, pow_one]
  | succ n ih => rw [Expr.distributePower, hf.distributeProduct, ih, ← pow_succ]

/-- One node: a product is multiplied out, a small power is written out if it stands for a repeated product,
all else stays. -/
theorem distributeNode [Scalar α] {d : Bool} {op : Operator} {l r : Expr α}
    (hpow : ∀ (e : α) (k : ℕ), Scalar.smallPower? e = some k → f (pow l e) = f l ^ k) :
    f (Expr.distributeNode d op l r) = f (bin op l r) := by
  fun_cases Expr.distributeNode d op l r with
  | case1 => rw [hf.distributeProduct, hf.mul]
  | case2 e k hk =>
    rw [hf.distributePower, Nat.sub_add_cancel (Scalar.smallPower?_eq_some hk).1.1]
    exact (hpow e k hk).symm
  | case3 => rfl
  | case4 => rfl

end RingValue

theorem ringValue_denote [Ring R] (I : Interpretation α R) : RingValue (denote I) where
  add _ _ := rfl
  sub _ _ := rfl
  mul _ _ := rfl

theorem distributeIn_bin [Scalar α] {d : Bool} {op : Operator} {l r e : Expr α}
    (h : (bin op l r).distributeIn d = .ok e) :
    ∃ l' r', l.distributeIn d = .ok l' ∧ r.distributeIn (d || op = .div) = .ok r' ∧
      e = distributeNode d op l' r' := by
  unfold distributeIn at h
  obtain ⟨l', hl, h⟩ := bind_eq_ok.mp h
  obtain ⟨r', hr, h⟩ := bind_eq_ok.mp h
  exact ⟨l', r', hl, hr, (Except.ok.inj h).symm⟩

theorem distributeIn_pending [Scalar α] {d : Bool} {t e : Expr α}
    (h : (pending t).distributeIn d = .ok e) :
    ∃ t', t.distributeIn d = .ok t' ∧ e = pending t' := by
  unfold distributeIn at h
  obtain ⟨t', ht, h⟩ := bind_eq_ok.mp h
  exact ⟨t', ht, (Except.ok.inj h).symm⟩

/-- Distribution keeps the value wherever the value of a marker ignores the form of its target. -/
theorem denote_distributeIn [Scalar α] [Ring R] (I : Interpretation α R) (hI : I.WritesPowers)
    (hmark : ∀ t t' : Expr α, I.marked t = I.marked t') (d : Bool) {e e' : Expr α}
    (h : e.distributeIn d = .ok e') : e'.denote I = e.denote I := by
  induction e generalizing d e' with
  | num v => cases h; rfl
  | var x => cases h; rfl
  | bin op l r ihl ihr =>
    obtain ⟨l', r', hl, hr, rfl⟩ := distributeIn_bin h
    rw [(ringValue_denote I).distributeNode fun e k hk => hI e k hk _]
    exact denote_bin_congr I op (ihl _ hl) (ihr _ hr)
  | pending t ih =>
    obtain ⟨t', -, rfl⟩ := distributeIn_pending h
    exact hmark _ _
  | hole => cases h

/-! ## What multiplying out establishes -/

/-- The root of the tree is a sum or a difference. -/
def IsSum : Expr α → Prop
  | bin op _ _ => op.isAdditive = true
  | _ => False

instance decidableIsSum : (e : Expr α) → Decidable e.IsSum
  | bin op _ _ => inferInstanceAs (Decidable (op.isAdditive = true))
  | num _ | var _ | pending _ | hole => inferInstanceAs (Decidable False)

theorem not_isSum {e : Expr α} (hadd : ∀ a b, e = add a b → False)
    (hsub : ∀ a b, e = sub a b → False) : ¬e.IsSum := by
  intro h
  cases e with
  | bin op l r =>
    cases op with
    | add => exact hadd l r rfl
    | sub => exact hsub l r rfl
    | _ => cases h
  | _ => exact h

/-- A condition that sums and differences have exactly when their operands have it, and that a product
has when its factors have it and none of them is a sum or a difference. -/
structure Termwise (Q : Expr α → Prop) : Prop where
  add (l r : Expr α) : Q (add l r) ↔ Q l ∧ Q r
  sub (l r : Expr α) : Q (sub l r) ↔ Q l ∧ Q r
  mul {l r : Expr α} : ¬l.IsSum → ¬r.IsSum → Q l → Q r → Q (mul l r)

namespace Termwise

variable {Q : Expr α → Prop} (hQ : Termwise Q)

include hQ

theorem distributeRight {l r : Expr α} (hsum : ¬l.IsSum) (hl : Q l) (hr : Q r) :
    Q (Expr.distributeRight l r) := by
  fun_induction Expr.distributeRight l r with
  | case1 a b iha ihb =>
    obtain ⟨ha, hb⟩ := (hQ.add _ _).mp hr
    exact (hQ.add _ _).mpr ⟨iha ha, ihb hb⟩
  | case2 a b iha ihb =>
    obtain ⟨ha, hb⟩ := (hQ.sub _ _).mp hr
    exact (hQ.sub _ _).mpr ⟨iha ha, ihb hb⟩
  | case3 r hadd hsub => exact hQ.mul hsum (not_isSum hadd hsub) hl hr

theorem distributeProduct {l r : Expr α} (hl : Q l) (hr : Q r) :
    Q (Expr.distributeProduct l r) := by
  fun_induction Expr.distributeProduct l r with
  | case1 a b iha ihb =>
    obtain ⟨ha, hb⟩ := (hQ.add _ _).mp hl
    exact (hQ.add _ _).mpr ⟨iha ha, ihb hb⟩
  | case2 a b iha ihb =>
    obtain ⟨ha, hb⟩ := (hQ.sub _ _).mp hl
    exact (hQ.sub _ _).mpr ⟨iha ha, ihb hb⟩
  | case3 l hadd hsub => exact hQ.distributeRight (not_isSum hadd hsub) hl hr

theorem distributePower {b : Expr α} (hb : Q b) (n : ℕ) : Q (Expr.distributePower b n) := by
  induction n with
  | zero => exact hb
  | succ n ih => exact hQ.distributeProduct ih hb

/-- A node that distribution leaves in place is no product and, outside of divisors, no small power. -/
theorem distributeNode [Scalar α] {d : Bool} {op : Operator} {l r : Expr α} (hl : Q l)
    (hr : op = .mul → Q r)
    (hnode : op ≠ .mul →
      (∀ e, op = .pow → r = num e → d = false → Scalar.smallPower? e = none) → Q (bin op l r)) :
    Q (Expr.distributeNode d op l r) := by
  fun_cases Expr.distributeNode d op l r with
  | case1 => exact hQ.distributeProduct hl (hr rfl)
  | case2 e k hk => exact hQ.distributePower hl _
  | case3 _ e hk =>
    refine hnode (by decide) fun e' _ he hd => ?_
    cases he
    cases hs : Scalar.smallPower? e with
    | none => rfl
    | some k => exact absurd hs (hk k hd)
  | case4 _ _ _ hmul hp => exact hnode hmul fun e ho he _ => absurd he (hp e ho)

end Termwise

/-- As `Termwise`, for conditions that ask nothing more of a product than that its factors have them. -/
structure Distributive (Q : Expr α → Prop) : Prop where
  add (l r : Expr α) : Q (add l r) ↔ Q l ∧ Q r
  sub (l r : Expr α) : Q (sub l r) ↔ Q l ∧ Q r
  mul {l r : Expr α} : Q l → Q r → Q (mul l r)

theorem Distributive.distributeNode [Scalar α] {Q : Expr α → Prop} (hQ : Distributive Q) {d : Bool}
    {op : Operator} {l r : Expr α} (hl : Q l) (hr : Q r)
    (hnode : (∀ e, op = .pow → r = num e → d = false → Scalar.smallPower? e = none) →
      Q (bin op l r)) : Q (Expr.distributeNode d op l r) := by
  have hterm : Termwise Q := ⟨hQ.add, hQ.sub, fun _ _ => hQ.mul⟩
  exact hterm.distributeNode hl (fun _ => hr) fun _ => hnode

/-! ## What holds of every node -/

section Nodes

variable {P : Operator → Expr α → Expr α → Prop} (hadd : ∀ l r, P .add l r)
  (hsub : ∀ l r, P .sub l r) (hmul : ∀ l r, P .mul l r)

include hadd hsub hmul

theorem distributive_everyNode : Distributive (EveryNode P) where
  add l r := by simp [hadd]
  sub l r := by simp [hsub]
  mul hl hr := ⟨hmul _ _, hl, hr⟩

theorem EveryNode.distributeNode [Scalar α] {d : Bool} {op : Operator} {l r : Expr α}
    (hl : l.EveryNode P) (hr : r.EveryNode P)
    (hnode : (∀ e, op = .pow → r = num e → d = false → Scalar.smallPower? e = none) → P op l r) :
    (Expr.distributeNode d op l r).EveryNode P :=
  (distributive_everyNode hadd hsub hmul).distributeNode hl hr fun h => ⟨hnode h, hl, hr⟩

/-- What holds of the nodes of a tree turns into what holds of the nodes of the distributed tree, node
by node: sums, differences and products need no reason. -/
theorem EveryNode.distributeIn [Scalar α] {Q : Operator → Expr α → Expr α → Prop}
    (hstep : ∀ d op l r l' r', l.distributeIn d = .ok l' → r.distributeIn (d || op = .div) = .ok r' →
      Q op l r → (∀ e, op = .pow → r' = num e → d = false → Scalar.smallPower? e = none) → P op l' r')
    {d : Bool} {e e' : Expr α} (he : e.EveryNode Q) (h : e.distributeIn d = .ok e') :
    e'.EveryNode P := by
  induction e generalizing d e' with
  | num v => cases h; trivial
  | var x => cases h; trivial
  | bin op l r ihl ihr =>
    obtain ⟨l', r', hl, hr, rfl⟩ := distributeIn_bin h
    exact EveryNode.distributeNode hadd hsub hmul (ihl he.2.1 hl) (ihr he.2.2 hr)
      (hstep d op l r l' r' hl hr he.1)
  | pending t ih =>
    obtain ⟨t', ht, rfl⟩ := distributeIn_pending h
    show t'.EveryNode P
    exact ih he ht
  | hole => cases h

end Nodes

/-! ## What operators pass on to their operands -/

section Hereditary

variable {Q : Expr α → Prop} (hQ : Hereditary Q)

include hQ

theorem Hereditary.distributive : Distributive Q where
  add := hQ.bin _
  sub := hQ.bin _
  mul hl hr := (hQ.bin _ _ _).mpr ⟨hl, hr⟩

/-- Distribution only rearranges operands. -/
theorem Hereditary.distributeIn [Scalar α] {d : Bool} {e e' : Expr α} (he : Q e)
    (h : e.distributeIn d = .ok e') : Q e' := by
  induction e generalizing d e' with
  | num v => cases h; exact he
  | var x => cases h; exact he
  | bin op l r ihl ihr =>
    obtain ⟨l', r', hl, hr, rfl⟩ := distributeIn_bin h
    obtain ⟨hel, her⟩ := (hQ.bin _ _ _).mp he
    have hl' := ihl hel hl
    have hr' := ihr her hr
    exact hQ.distributive.distributeNode hl' hr' fun _ => (hQ.bin _ _ _).mpr ⟨hl', hr'⟩
  | pending t ih =>
    obtain ⟨t', ht, rfl⟩ := distributeIn_pending h
    exact hQ.pending t t' (fun hq => ih hq ht) he
  | hole => cases h

end Hereditary

/-! ## Trees without holes -/

/-- A missing operand is all that multiplying out can fail on. -/
theorem exists_distributeIn [Scalar α] {e : Expr α} (h : e.isWhole = true) (d : Bool) :
    ∃ e', e.distributeIn d = .ok e' := by
  induction e generalizing d with
  | num v => exact ⟨_, rfl⟩
  | var x => exact ⟨_, rfl⟩
  | bin op l r ihl ihr =>
    obtain ⟨hl, hr⟩ := (hereditary_isWhole.bin _ _ _).mp h
    obtain ⟨l', hdl⟩ := ihl hl d
    obtain ⟨r', hdr⟩ := ihr hr (d || op = .div)
    exact ⟨distributeNode d op l' r', by rw [distributeIn, hdl, hdr]; rfl⟩
  | pending t ih =>
    obtain ⟨t', ht⟩ := ih h d
    exact ⟨pending t', by rw [distributeIn, ht]; rfl⟩
  | hole => cases h

/-- What has been multiplied out has no hole. -/
theorem isWhole_distributeIn [Scalar α] {e e' : Expr α} {d : Bool} (h : e.distributeIn d = .ok e') :
    e'.isWhole = true := by
  induction e generalizing d e' with
  | num v => cases h; rfl
  | var x => cases h; rfl
  | bin op l r ihl ihr =>
    obtain ⟨l', r', hl, hr, rfl⟩ := distributeIn_bin h
    have hl' := ihl hl
    have hr' := ihr hr
    exact hereditary_isWhole.distributive.distributeNode hl' hr' fun _ =>
      (hereditary_isWhole.bin _ _ _).mpr ⟨hl', hr'⟩
  | pending t ih =>
    obtain ⟨t', ht, rfl⟩ := distributeIn_pending h
    show t'.isWhole = true
    exact ih ht
  | hole => cases h

/-! ## Exact scalars -/

section Exact

variable [ExactScalar α]

theorem writesPowers_atPoint (ρ : String → ℚ) : (atPoint ρ : Interpretation α ℚ).WritesPowers := by
  intro e k hk b
  show b ^ integer e = b ^ k
  rw [integer_of_value_eq (k := k) (by rw [(smallPower?_sound hk).2]; rfl), zpow_natCast]

theorem writesPowers_alongPoint (ρ : String → ℚ) (x : String) :
    (alongPoint ρ x : Interpretation α (DualNumber ℚ)).WritesPowers := by
  intro e k hk b
  show dualPower b (integer e) = b ^ k
  rw [integer_of_value_eq (k := k) (by rw [(smallPower?_sound hk).2]; rfl)]
  rfl

variable {d : Bool} {e e' : Expr α} {ρ : String → ℚ}

theorem valueAt_distributeIn (h : e.distributeIn d = .ok e') : e'.valueAt ρ = e.valueAt ρ :=
  denote_distributeIn _ (writesPowers_atPoint ρ) (fun _ _ => rfl) d h

theorem derivativeAt_distributeIn {x : String} (h : e.distributeIn d = .ok e') :
    e'.derivativeAt ρ x = e.derivativeAt ρ x := by
  rw [derivativeAt, denote_distributeIn _ (writesPowers_alongPoint ρ x) (fun _ _ => rfl) d h]
  rfl

theorem IntegerPowers.distributeIn (he : e.IntegerPowers) (h : e.distributeIn d = .ok e') :
    e'.IntegerPowers := by
  refine EveryNode.distributeIn (by simp) (by simp) (by simp) ?_ he h
  intro d op l r l' r' _ hr hp _ hop
  obtain ⟨k, rfl, hk⟩ := hp hop
  cases hr
  exact ⟨k, rfl, hk⟩

theorem PoleFree.distributeIn (he : e.PoleFree ρ) (h : e.distributeIn d = .ok e') :
    e'.PoleFree ρ := by
  refine EveryNode.distributeIn (by simp) (by simp) (by simp) ?_ he h
  intro d op l r l' r' hl hr hp _
  rw [valueAt_distributeIn hl, valueAt_distributeIn hr]
  exact hp

end Exact

end Expr

end Fluxion
