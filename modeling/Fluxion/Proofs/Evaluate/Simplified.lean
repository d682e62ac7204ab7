import Fluxion.Scalar.Float
import Fluxion.Proofs.Evaluate

/-!
# Simplified trees

A tree is simplified when there is nothing in it to resolve or to compute and no identity for zero and one
applies to a node. Evaluation looks at every node once, and the result is simplified all the same: a rule
gives way to an operand, which is simplified already, or to a number, and a node that no rule applies to is
kept with the operands it was examined with. A simplified tree is evaluated to itself, so the simplified
trees are the fixed points of evaluation, whatever the variable is.
-/

namespace Fluxion.Expr

variable {α : Type} [Scalar α]

/-- No operand is missing, no marker is left, and no node can be computed or simplified. -/
structure Simplified (e : Expr α) : Prop where
  isWhole : e.isWhole = true
  markerFree : e.MarkerFree
  irreducible : e.EveryNode fun op l r => Symbolic l r ∧ IdentityFree op l r

variable {op : Operator} {l r m : Expr α}

theorem simplified_num (v : α) : (num v).Simplified := ⟨rfl, trivial, trivial⟩

theorem simplified_var (y : String) : (var y : Expr α).Simplified := ⟨rfl, trivial, trivial⟩

theorem simplified_bin_iff : (bin op l r).Simplified ↔
    (Symbolic l r ∧ IdentityFree op l r) ∧ l.Simplified ∧ r.Simplified := by
  constructor
  · rintro ⟨hwhole, ⟨hml, hmr⟩, hnode, hil, hir⟩
    obtain ⟨hwl, hwr⟩ := (hereditary_isWhole.bin op l r).mp hwhole
    exact ⟨hnode, ⟨hwl, hml, hil⟩, hwr, hmr, hir⟩
  · rintro ⟨hnode, ⟨hwl, hml, hil⟩, hwr, hmr, hir⟩
    exact ⟨(hereditary_isWhole.bin op l r).mpr ⟨hwl, hwr⟩, ⟨hml, hmr⟩, hnode, hil, hir⟩

/-! ## One node -/

/-- A rule that applies leaves an operand or a number, so it leaves nothing to be simplified. -/
theorem Simplified.evaluateNode (hl : l.Simplified) (hr : r.Simplified)
    (h : Expr.evaluateNode op l r = .ok m) : m.Simplified := by
  rcases evaluateNode_cases h with ⟨a, b, v, rfl, rfl, -, rfl⟩ | ⟨hsym, rfl⟩
  · exact simplified_num v
  · rcases simplify_cases op l r with h' | h' | ⟨v, -, h'⟩ | ⟨hid, h'⟩
    · rw [h']
      exact hl
    · rw [h']
      exact hr
    · rw [h']
      exact simplified_num v
    · rw [h']
      exact simplified_bin_iff.mpr ⟨⟨hsym, hid⟩, hl, hr⟩

/-! ## Whole trees -/

theorem simplified_evaluate {n : Expr α} {x : String} (h : n.evaluate x = .ok m) : m.Simplified := by
  induction n generalizing m with
  | num v => cases h; exact simplified_num v
  | var y => cases h; exact simplified_var y
  | bin op l r ihl ihr =>
    obtain ⟨l', r', hl, hr, hm⟩ := evaluate_bin h
    exact Simplified.evaluateNode (ihl hl) (ihr hr) hm
  | pending t ih =>
    obtain ⟨v, -, rfl⟩ := map_eq_ok.mp h
    exact simplified_num v
  | hole => cases h

theorem Simplified.evaluate_eq (h : m.Simplified) (y : String) : m.evaluate y = .ok m := by
  induction m with
  | num v => rfl
  | var z => rfl
  | bin op l r ihl ihr =>
    obtain ⟨⟨hsym, hid⟩, hl, hr⟩ := simplified_bin_iff.mp h
    rw [evaluate, ihl hl, ihr hr]
    show Expr.evaluateNode op l r = _
    rw [hsym.evaluateNode_eq, hid.simplify_eq]
  | pending t ih => exact h.markerFree.elim
  | hole => cases h.isWhole

/-- Whatever is evaluated is simplified at once, so that evaluating it again changes nothing, and the trees
that evaluation leaves as they are are the simplified ones. -/
theorem evaluate_eq_self_iff_simplified :
    (∀ (n m : Expr α) (x : String), n.evaluate x = .ok m →
      m.Simplified ∧ ∀ y, m.evaluate y = .ok m) ∧
    ∀ (m : Expr α) (y : String), m.evaluate y = .ok m ↔ m.Simplified := by
  constructor
  · intro n m x h
    have hm : m.Simplified := simplified_evaluate h
    exact ⟨hm, hm.evaluate_eq⟩
  · intro m y
    exact ⟨simplified_evaluate, fun hm => hm.evaluate_eq y⟩

/-- A product with zero, a first power, a difference with zero and a divisor that is computed to one all go
in one pass. -/
theorem evaluate_eq_self_iff_simplified_sum :
    (add (mul (sub (add (mul (var "x") (num 0)) (pow (var "y") 1)) (num 0))
      (div (pending (var "x")) (sub (num 3) (num 2)))) (var "z") : Expr Float).evaluate "x" =
        .ok (add (var "y") (var "z")) ∧
      (add (var "y") (var "z") : Expr Float).Simplified ∧
      ∀ y, (add (var "y") (var "z") : Expr Float).evaluate y = .ok (add (var "y") (var "z")) := by
  have hsum : (add (mul (sub (add (mul (var "x") (num 0)) (pow (var "y") 1)) (num 0))
      (div (pending (var "x")) (sub (num 3) (num 2)))) (var "z") : Expr Float).evaluate "x" =
        .ok (add (var "y") (var "z")) := by
    decide +kernel
  exact ⟨hsum, evaluate_eq_self_iff_simplified.1 _ _ _ hsum⟩

end Fluxion.Expr
