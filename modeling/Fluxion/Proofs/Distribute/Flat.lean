import Fluxion.Scalar.Float
import Fluxion.Proofs.Distribute

/-!
# Flat trees

A tree is flat when nothing in it can be multiplied out: no factor of a product is a sum or a difference,
and outside of divisors no power has a literal exponent from one to ten. One pass from the leaves to the
root makes a tree flat, although it forms new products and sums on its way: the factors of a new product
are taken from summands that are flat and no sums themselves. A flat tree is left as it is, so the flat
trees are the fixed points of the pass.
-/

namespace Fluxion.Expr

variable {α : Type}

theorem distributeProduct_of_not_isSum {l r : Expr α} (hl : ¬l.IsSum)
    (hr : ¬r.IsSum) : distributeProduct l r = mul l r := by
  fun_cases distributeProduct l r with
  | case1 a b => exact absurd rfl hl
  | case2 a b => exact absurd rfl hl
  | case3 =>
    fun_cases distributeRight l r with
    | case1 a b => exact absurd rfl hr
    | case2 a b => exact absurd rfl hr
    | case3 => rfl

variable [Scalar α]

/-- The tree is a literal equal to an integer from one to ten. -/
def IsSmallInteger (r : Expr α) : Prop :=
  ∃ (e : α) (k : ℕ), r = num e ∧ 1 ≤ k ∧ k ≤ 10 ∧ (e == (k : α)) = true

theorem isSmallInteger_num_iff (e : α) :
    (num e).IsSmallInteger ↔ ∃ k, Scalar.smallPower? e = some k := by
  constructor
  · rintro ⟨_, k, ⟨⟩, hpos, hmax, heq⟩
    cases hk : Scalar.smallPower? e with
    | none =>
      rw [Scalar.smallPower?_eq_none hk hpos hmax] at heq
      cases heq
    | some j => exact ⟨j, rfl⟩
  · rintro ⟨k, hk⟩
    obtain ⟨⟨hpos, hmax⟩, heq⟩ := Scalar.smallPower?_eq_some hk
    exact ⟨e, k, rfl, hpos, hmax, heq⟩

instance decidableIsSmallInteger : (r : Expr α) → Decidable r.IsSmallInteger
  | num e => decidable_of_iff ((Scalar.smallPower? e).isSome = true) <| by
    rw [isSmallInteger_num_iff, Option.isSome_iff_exists]
  | var _ | bin .. | pending _ | hole => .isFalse <| by
    rintro ⟨e, k, h, -⟩
    cases h

/-- Nothing can be multiplied out in a tree without holes that stands inside a divisor or outside of all
of them. -/
def FlatIn : (inDivisor : Bool) → Expr α → Prop
  | _, num _ => True
  | _, var _ => True
  | d, bin op l r =>
    ((op = .mul → ¬l.IsSum ∧ ¬r.IsSum) ∧ (op = .pow → d = false → ¬r.IsSmallInteger)) ∧
      l.FlatIn d ∧ r.FlatIn (d || op = .div)
  | d, pending t => t.FlatIn d
  | _, hole => False

instance decidableFlatIn : (d : Bool) → (e : Expr α) → Decidable (e.FlatIn d)
  | _, num _ => .isTrue trivial
  | _, var _ => .isTrue trivial
  | d, bin op l r =>
    have := decidableFlatIn d l
    have := decidableFlatIn (d || op = .div) r
    inferInstanceAs (Decidable (((op = .mul → ¬l.IsSum ∧ ¬r.IsSum) ∧
      (op = .pow → d = false → ¬r.IsSmallInteger)) ∧ l.FlatIn d ∧ r.FlatIn (d || op = .div)))
  | d, pending t => decidableFlatIn d t
  | _, hole => .isFalse id

/-- Nothing can be multiplied out. -/
abbrev Flat (e : Expr α) : Prop := e.FlatIn false

-- a square is multiplied out, unless it stands in a divisor
example : ¬(pow (var "x") 2 : Expr Float).Flat ∧ (div (num 1) (pow (var "x") 2) : Expr Float).Flat := by
  decide +kernel

variable {d : Bool} {op : Operator} {l r : Expr α}

/-! ## One pass makes a tree flat -/

theorem termwise_flatIn (d : Bool) : Termwise (FlatIn d : Expr α → Prop) where
  add l r := by simp [FlatIn]
  sub l r := by simp [FlatIn]
  mul hsuml hsumr hl hr := by
    refine ⟨⟨fun _ => ⟨hsuml, hsumr⟩, by simp⟩, hl, ?_⟩
    simpa using hr

theorem FlatIn.distributeNode (hl : l.FlatIn d) (hr : r.FlatIn (d || op = .div)) :
    (Expr.distributeNode d op l r).FlatIn d := by
  refine (termwise_flatIn d).distributeNode hl ?_ ?_
  · rintro rfl
    simpa using hr
  · intro hmul hsmall
    refine ⟨⟨fun h => absurd h hmul, ?_⟩, hl, hr⟩
    rintro hpow hd ⟨e, k, rfl, hpos, hmax, heq⟩
    have hnone : Scalar.smallPower? e = none := hsmall e hpow rfl hd
    rw [Scalar.smallPower?_eq_none hnone hpos hmax] at heq
    cases heq

theorem flatIn_distributeIn {e e' : Expr α} (h : e.distributeIn d = .ok e') : e'.FlatIn d := by
  induction e generalizing d e' with
  | num v => cases h; trivial
  | var x => cases h; trivial
  | bin op l r ihl ihr =>
    obtain ⟨l', r', hl, hr, rfl⟩ := distributeIn_bin h
    exact FlatIn.distributeNode (ihl hl) (ihr hr)
  | pending t ih =>
    obtain ⟨t', ht, rfl⟩ := distributeIn_pending h
    show t'.FlatIn d
    exact ih ht
  | hole => cases h

/-! ## A flat tree stays as it is -/

theorem FlatIn.distributeNode_eq (h : (bin op l r).FlatIn d) :
    Expr.distributeNode d op l r = bin op l r := by
  obtain ⟨⟨hmul, hpow⟩, -, -⟩ := h
  fun_cases Expr.distributeNode d op l r with
  | case1 =>
    obtain ⟨hl, hr⟩ := hmul rfl
    exact distributeProduct_of_not_isSum hl hr
  | case2 e k hk => exact absurd ((isSmallInteger_num_iff e).mpr ⟨k, hk⟩) (hpow rfl rfl)
  | case3 => rfl
  | case4 => rfl

theorem FlatIn.distributeIn_eq {m : Expr α} (h : m.FlatIn d) : m.distributeIn d = .ok m := by
  induction m generalizing d with
  | num v => rfl
  | var x => rfl
  | bin op l r ihl ihr =>
    have hl : l.distributeIn d = .ok l := ihl h.2.1
    have hr : r.distributeIn (d || op = .div) = .ok r := ihr h.2.2
    rw [distributeIn, hl, hr]
    exact congrArg Except.ok h.distributeNode_eq
  | pending t ih =>
    rw [distributeIn, ih h]
    rfl
  | hole => exact h.elim

/-- Every tree without holes is made flat by one pass, a second pass changes nothing, and the trees that
are left as they are are the flat ones. -/
theorem distribute_eq_self_iff_flat :
    (∀ n : Expr α, n.isWhole = true →
      ∃ e, n.distribute = .ok e ∧ e.Flat ∧ e.distribute = .ok e) ∧
    ∀ m : Expr α, m.distribute = .ok m ↔ m.Flat := by
  constructor
  · intro n hwhole
    obtain ⟨e, he⟩ := exists_distributeIn hwhole false
    have hflat : e.Flat := flatIn_distributeIn he
    exact ⟨e, he, hflat, hflat.distributeIn_eq⟩
  · intro m
    exact ⟨flatIn_distributeIn, FlatIn.distributeIn_eq⟩

/-- A square of a sum below a marker is written out, and the same square in a divisor is not. -/
theorem distribute_eq_self_iff_flat_square :
    let square : Expr Float := pow (add (var "x") (num 1)) 2
    let n : Expr Float := div (pending square) (mul square (sub (var "x") (var "y")))
    let writtenOut : Expr Float := add (add (mul (var "x") (var "x")) (mul (var "x") (num 1)))
      (add (mul (num 1) (var "x")) (mul (num 1) (num 1)))
    let e : Expr Float := div (pending writtenOut) (sub (mul square (var "x")) (mul square (var "y")))
    n.isWhole = true ∧ n.distribute = .ok e ∧ e.Flat ∧ e.distribute = .ok e ∧ ¬n.Flat := by
  intro square n writtenOut e
  have hdistribute : n.distribute = .ok e := by decide +kernel
  obtain ⟨e', he', hflat, hfixed⟩ := distribute_eq_self_iff_flat.1 n rfl
  cases hdistribute.symm.trans he'
  refine ⟨rfl, hdistribute, hflat, hfixed, fun hn => ?_⟩
  have hself : n.distribute = .ok n := (distribute_eq_self_iff_flat.2 n).mpr hn
  exact absurd (hdistribute.symm.trans hself) (by decide +kernel)

end Fluxion.Expr
