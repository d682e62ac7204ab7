import Fluxion.Proofs.Encoding
import Fluxion.Proofs.Settling

/-!
# What comes out of the passes can be encoded

Arithmetic whose variables are identifiers can be encoded. Texts denote nothing else, multiplying out keeps
to it, and the last stages of a differentiation put their result together from terms, so it holds of the
result whatever tree they were given. Whatever is multiplied out has no hole, because no pass steps over
one.
-/

namespace Fluxion

variable {α : Type}

namespace Expr

theorem Encodable.named {e : Expr α} (h : e.Encodable) : e.Named (isIdentifier · = true) := by
  induction e with
  | num v => exact fun x hx => absurd hx List.not_mem_nil
  | var y =>
    intro x hx
    rw [List.mem_singleton.mp hx]
    exact h
  | bin op l r ihl ihr => exact named_bin.mpr ⟨ihl h.2.1, ihr h.2.2⟩
  | pending t ih => exact ih h
  | hole => exact h.elim

theorem Arithmetic.encodable {e : Expr α} (h : e.Arithmetic) (hx : e.Named (isIdentifier · = true)) :
    e.Encodable := by
  induction h with
  | num v => trivial
  | var x => exact hx x (List.mem_singleton_self x)
  | join hop hl hr ihl ihr =>
    obtain ⟨hxl, hxr⟩ := named_bin.mp hx
    exact ⟨(by decide : Operator.joins ⊆ Operator.standard) hop, ihl hxl, ihr hxr⟩
  | power hb ih => exact ⟨by decide, ih (named_bin.mp hx).1, trivial⟩
  | marker ht => exact ht.elim

theorem distributive_encodable : Distributive (Encodable : Expr α → Prop) where
  add l r := ⟨fun h => h.2, fun h => ⟨by decide, h⟩⟩
  sub l r := ⟨fun h => h.2, fun h => ⟨by decide, h⟩⟩
  mul hl hr := ⟨by decide, hl, hr⟩

variable [Scalar α]

theorem Grammatical.encodable {e : Expr α} (h : e.Grammatical) : e.Encodable :=
  h.arithmetic.encodable h.named

theorem Encodable.distributeIn {e e' : Expr α} (he : e.Encodable) {d : Bool}
    (h : e.distributeIn d = .ok e') : e'.Encodable := by
  induction e generalizing d e' with
  | num v => cases h; exact he
  | var x => cases h; exact he
  | bin op l r ihl ihr =>
    obtain ⟨l', r', hl, hr, rfl⟩ := distributeIn_bin h
    have hl' := ihl he.2.1 hl
    have hr' := ihr he.2.2 hr
    exact distributive_encodable.distributeNode hl' hr' fun _ => ⟨he.1, hl', hr'⟩
  | pending t ih =>
    obtain ⟨t', ht, rfl⟩ := distributeIn_pending h
    show t'.Encodable
    exact ih he ht
  | hole => cases h

/-- The terms of a tree have no other names than the tree. -/
theorem Named.canonicalTerms {A : String → Prop} {e : Expr α} {ts : List (Term α)} (he : e.Named A)
    (h : e.canonicalTerms = .ok ts) : Terms.Named A ts := by
  obtain ⟨expanded, undivided, us, hex, hun, hus, rfl⟩ := Expr.canonicalTerms_eq_ok.mp h
  have hundivided := ((hereditary_named A).distributeIn he hex).removeDivision hun
  exact (hundivided.endsIn_decompose.of_ok hus).group

end Expr

variable [Scalar α]

theorem Terms.Named.toExpr {A : String → Prop} {ts : List (Term α)} (h : Terms.Named A ts) :
    (Terms.toExpr ts).Named A :=
  (composes_named A).toExpr h (Terms.everyNumber_of_forall (fun _ => trivial) ts)

theorem Terms.Named.encodable_toExpr {ts : List (Term α)}
    (h : Terms.Named (isIdentifier · = true) ts) : (Terms.toExpr ts).Encodable :=
  (Terms.undivided_toExpr ts).arithmetic.encodable h.toExpr

namespace Differentiation

/-- The last stages end with a tree that can be encoded, provided that all names are identifiers. -/
theorem encodable_finish {options : Options} {x : String} {m r : Expr α}
    (hm : m.Named (isIdentifier · = true)) (h : (finish options x m).outcome = .ok r) :
    r.Encodable := by
  obtain ⟨evaluated, terms, hev, hterms, hr⟩ := finish_eq_ok_canonicalTerms h
  have hnames := ((hm.mono (Expr.names_evaluate_subset hev)).canonicalTerms hterms).toExpr
  have hshape := (Terms.undivided_toExpr terms).arithmetic
  have hlast {e : Expr α} (hx : e.Named (isIdentifier · = true)) (he : e.Arithmetic)
      (her : e.evaluate x = .ok r) : r.Encodable :=
    ((he.resolvable.endsIn_evaluate x).of_ok her).encodable (hx.mono (Expr.names_evaluate_subset her))
  -- with or without restored quotients
  split at hr
  · exact hlast ((Expr.fractional_named _).restoreDivision hnames)
      (Expr.fractional_arithmetic.restoreDivision hshape) hr
  · exact hlast hnames hshape hr

end Differentiation

/-- Every derivative that is found can be encoded. -/
theorem encodable_differentiate {options : Options} {text : List UInt8} {x : String} {s : Solution α}
    (h : (differentiate options text x).outcome = .ok s) : s.expr.Encodable := by
  obtain ⟨n, n', m, k, hparse, hdist, hderive, hfinish⟩ :=
    Differentiation.pipeline_eq_ok (differentiate_eq_ok h)
  have hn' := (Expr.hereditary_named _).distributeIn (Expr.grammatical_parse hparse).named hdist
  exact Differentiation.encodable_finish (hn'.mono (Expr.names_derive_subset hderive)) hfinish

end Fluxion
