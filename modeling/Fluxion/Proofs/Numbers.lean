import Fluxion.Proofs.Definite
import Fluxion.Proofs.Derive
import Fluxion.Proofs.Distribute
import Fluxion.Proofs.Division
import Fluxion.Proofs.Parse
import Fluxion.Proofs.Term.Names
import Fluxion.Term.Recompose

/-!
# The numbers of trees and terms

Where the numbers come from as a tree goes through the passes and its terms are put together. What holds
of every literal, and survives the arithmetic that a pass does, holds of every number that the pass
leaves behind. Evaluation checks each of its results; terms are multiplied and merged without a check, so
there a condition has to be closed under sums and products.
-/

namespace Fluxion

variable {α : Type}

namespace Expr

/-- Every number of the tree satisfies `Q`. -/
def EveryNumber (Q : α → Prop) : Expr α → Prop
  | num v => Q v
  | var _ => True
  | bin _ l r => l.EveryNumber Q ∧ r.EveryNumber Q
  | pending t => t.EveryNumber Q
  | hole => True

attribute [simp] EveryNumber

instance decidableEveryNumber {Q : α → Prop} [DecidablePred Q] :
    (e : Expr α) → Decidable (e.EveryNumber Q)
  | num v => inferInstanceAs (Decidable (Q v))
  | var _ => .isTrue trivial
  | bin _ l r =>
    have := decidableEveryNumber (Q := Q) l
    have := decidableEveryNumber (Q := Q) r
    inferInstanceAs (Decidable (l.EveryNumber Q ∧ r.EveryNumber Q))
  | pending t => decidableEveryNumber (Q := Q) t
  | hole => .isTrue trivial

theorem hereditary_everyNumber (Q : α → Prop) : Hereditary (EveryNumber Q : Expr α → Prop) where
  bin _ _ _ := Iff.rfl
  pending _ _ h := h

variable [Scalar α] {Q : α → Prop}

theorem Grammatical.everyNumber (hliteral : ∀ v : α, Numeral.IsValue v → Q v)
    (hneg : ∀ v, Q v → Q (-v)) {e : Expr α} (h : e.Grammatical) : e.EveryNumber Q := by
  induction h with
  | number hv => exact hliteral _ hv
  | identifier hx => trivial
  | join hop hl hr ihl ihr => exact ⟨ihl, ihr⟩
  | power hb hv ih => exact ⟨ih, hliteral _ hv⟩
  | negativePower hb hv ih => exact ⟨ih, hneg _ (hliteral _ hv)⟩

/-- The only numbers that the rules of differentiation bring in are exponents less one, and two. -/
theorem EveryNumber.derive (hpred : ∀ v, Q v → Q (v - 1)) (htwo : Q Scalar.two) {d : ℤ}
    {n m : Expr α} (hn : n.EveryNumber Q) (h : n.derive d = .ok m) : m.EveryNumber Q := by
  induction n generalizing d m with
  | num v => cases h; exact hn
  | var x => cases h; trivial
  | bin op l r ihl ihr =>
    obtain ⟨hl, hr⟩ := hn
    rcases derive_bin h with rfl | ⟨e, dl, rfl, rfl, hdl, rfl⟩ | ⟨dl, dr, hdl, hdr, hcase⟩
    · exact ⟨hl, hr⟩
    · exact ⟨⟨hr, hl, hpred e hr⟩, ihl hl hdl⟩
    · have hl' := ihl hl hdl
      have hr' := ihr hr hdr
      rcases hcase with ⟨rfl, rfl⟩ | ⟨rfl, rfl⟩ | ⟨rfl, rfl⟩ | ⟨rfl, rfl⟩
      · exact ⟨hl', hr'⟩
      · exact ⟨hl', hr'⟩
      · exact ⟨⟨hl', hr⟩, hl, hr'⟩
      · exact ⟨⟨⟨hl', hr⟩, hl, hr'⟩, hr, htwo⟩
  | pending t ih =>
    rw [Expr.derive] at h
    split at h
    · cases h; exact hn
    · cases h
  | hole =>
    rw [Expr.derive] at h
    split at h
    · cases h; trivial
    · cases h

/-- A tree whose numbers are defined is the same as itself. -/
theorem EveryNumber.same_self {e : Expr α} (h : e.EveryNumber Scalar.IsDefined) :
    e.same e = true := by
  induction e with
  | num v => exact h
  | var x => simp [same]
  | bin op l r ihl ihr => simp [same, ihl h.1, ihr h.2]
  | pending t ih => exact ih h
  | hole => rfl

/-- What is computed from two numbers is finite. -/
theorem isFinite_fold {op : Operator} {a b v : α} (h : fold op a b = .ok v) :
    Scalar.isFinite v = true := by
  have hfinite {op : Operator} {w : α} (h : finite op a b w = .ok v) : Scalar.isFinite v = true := by
    rw [finite] at h
    split at h
    · cases h
      assumption
    · cases h
  cases op with
  | add => exact hfinite h
  | sub => exact hfinite h
  | mul => exact hfinite h
  | div =>
    rw [fold] at h
    split at h
    · cases h
    · exact hfinite h
  | pow => exact hfinite h
  | other c => cases h

section Evaluate

variable (hzero : Q 0) (hone : Q 1) (hfinite : ∀ v : α, Scalar.isFinite v = true → Q v)

include hzero hone

theorem EveryNumber.simplify {l r : Expr α} (hl : l.EveryNumber Q) (hr : r.EveryNumber Q)
    (op : Operator) : (Expr.simplify op l r).EveryNumber Q := by
  rcases simplify_cases op l r with h | h | ⟨v, rfl | rfl, h⟩ | ⟨-, h⟩ <;> rw [h]
  · exact hl
  · exact hr
  · exact hzero
  · exact hone
  · exact ⟨hl, hr⟩

include hfinite

theorem EveryNumber.endsIn_evaluateNode {l r : Expr α} (hl : l.EveryNumber Q) (hr : r.EveryNumber Q)
    (op : Operator) : EndsIn (fun _ => True) (EveryNumber Q) (evaluateNode op l r) := by
  fun_cases evaluateNode op l r with
  | case1 a b =>
    cases hf : fold op a b with
    | error err => trivial
    | ok v => exact hfinite v (isFinite_fold hf)
  | case2 l r hne => exact hl.simplify hzero hone hr op

/-- Evaluation checks what it computes, and brings in no other numbers than zero and one. -/
theorem EveryNumber.endsIn_evaluate {e : Expr α} (h : e.EveryNumber Q) (x : String) :
    EndsIn (fun _ => True) (EveryNumber Q) (e.evaluate x) := by
  induction e with
  | num v => exact h
  | var y => trivial
  | bin op l r ihl ihr =>
    rw [evaluate]
    refine (ihl h.1).bind fun l' hl' => (ihr h.2).bind fun r' hr' => ?_
    exact hl'.endsIn_evaluateNode hzero hone hfinite hr' op
  | pending t ih =>
    rw [evaluate]
    cases t with
    | num v => exact hzero
    | var y =>
      show Q (if y == x then 1 else 0)
      split
      · exact hone
      · exact hzero
    | _ => trivial
  | hole => trivial

end Evaluate

/-! ## Quotients -/

theorem EveryNumber.endsIn_removeDivision (hminus : Q (-1)) {e : Expr α} (h : e.EveryNumber Q) :
    EndsIn (fun _ => True) (EveryNumber Q) e.removeDivision := by
  induction e with
  | num v => exact h
  | var x => trivial
  | bin op l r ihl ihr =>
    rw [removeDivision]
    refine (ihl h.1).bind fun l' hl' => (ihr h.2).bind fun r' hr' => ?_
    show EveryNumber Q (if op = .div then _ else _)
    split
    · exact ⟨hl', hr', hminus⟩
    · exact ⟨hl', hr'⟩
  | pending t ih => trivial
  | hole => trivial

theorem fractional_everyNumber (hone : Q 1) (hneg : ∀ v, Q v → Q (-v)) :
    Fractional (EveryNumber Q : Expr α → Prop) where
  operands h := h
  add hl hr := ⟨hl, hr⟩
  sub hl hr := ⟨hl, hr⟩
  mul hl hr := ⟨hl, hr⟩
  div hl hr := ⟨hl, hr⟩
  power h hb := ⟨⟨hb, h.2⟩, hb, hneg _ h.2⟩
  one := hone

end Expr

/-! ## Terms -/

mutual

/-- Every number in a key satisfies `Q`, at every depth. -/
def Key.EveryNumber (Q : α → Prop) : Key α → Prop
  | .atom _ => True
  | .composite ts => Terms.EveryNumber Q ts

/-- The same for the keys and exponents of factors. -/
def Factors.EveryNumber (Q : α → Prop) : List (Factor α) → Prop
  | [] => True
  | ⟨k, e⟩ :: fs => (k.EveryNumber Q ∧ Q e) ∧ Factors.EveryNumber Q fs

/-- The same for the coefficients and factors of terms. -/
def Terms.EveryNumber (Q : α → Prop) : List (Term α) → Prop
  | [] => True
  | ⟨c, fs⟩ :: ts => (Q c ∧ Factors.EveryNumber Q fs) ∧ Terms.EveryNumber Q ts

end

section Terms

variable {Q : α → Prop}

theorem Factors.everyNumber_iff {fs : List (Factor α)} :
    Factors.EveryNumber Q fs ↔ ∀ f ∈ fs, f.key.EveryNumber Q ∧ Q f.exponent := by
  induction fs with
  | nil => simp [Factors.EveryNumber]
  | cons f fs ih =>
    obtain ⟨k, e⟩ := f
    simp [Factors.EveryNumber, ih]

theorem Terms.everyNumber_iff {ts : List (Term α)} :
    Terms.EveryNumber Q ts ↔ ∀ t ∈ ts, Q t.coefficient ∧ Factors.EveryNumber Q t.factors := by
  induction ts with
  | nil => simp [Terms.EveryNumber]
  | cons t ts ih =>
    obtain ⟨c, fs⟩ := t
    simp [Terms.EveryNumber, ih]

variable [Scalar α]

/-- A condition that what is computed with coefficients and exponents keeps. -/
structure Scalar.Closed (Q : α → Prop) : Prop where
  one : Q 1
  neg {v : α} : Q v → Q (-v)
  add {v w : α} : Q v → Q w → Q (v + w)
  mul {v w : α} : Q v → Q w → Q (v * w)
  finite {v : α} : Scalar.isFinite v = true → Q v

variable (hQ : Scalar.Closed Q)

include hQ

theorem Factors.EveryNumber.insertAll {name : Key α → String} {fs gs : List (Factor α)}
    (hfs : Factors.EveryNumber Q fs) (hgs : Factors.EveryNumber Q gs) :
    Factors.EveryNumber Q (Factors.insertAll name fs gs) :=
  Factors.everyNumber_iff.mpr <| Factors.forall_insertAll
    (fun _ _ hf hg _ => ⟨hg.1, hQ.add hg.2 hf.2⟩) (Factors.everyNumber_iff.mp hfs)
    (Factors.everyNumber_iff.mp hgs)

theorem Terms.EveryNumber.group {ts : List (Term α)} (h : Terms.EveryNumber Q ts) :
    Terms.EveryNumber Q (Terms.group ts) := by
  induction ts using Terms.nested_induction with
  | step ts ih =>
    rw [Terms.group_eq, Terms.everyNumber_iff]
    refine Terms.forall_groupWith (fun t u ht hu => ⟨hQ.add hu.1 ht.1, hu.2⟩) fun t ht => ?_
    obtain ⟨hc, hfs⟩ := Terms.everyNumber_iff.mp h t ht
    refine ⟨hc, Factors.EveryNumber.insertAll hQ trivial (Factors.everyNumber_iff.mpr fun g hg => ?_)⟩
    obtain ⟨f, hf, rfl⟩ := List.mem_map.mp hg
    obtain ⟨hkey, he⟩ := Factors.everyNumber_iff.mp hfs f hf
    refine ⟨?_, he⟩
    cases hk : f.key with
    | atom x => trivial
    | composite us =>
      rw [hk] at hkey
      exact ih t ht f hf us hk hkey

theorem Terms.EveryNumber.mul {ts us : List (Term α)} (hts : Terms.EveryNumber Q ts)
    (hus : Terms.EveryNumber Q us) : Terms.EveryNumber Q (Terms.mul ts us) := by
  refine Terms.everyNumber_iff.mpr fun v hv => ?_
  obtain ⟨t, ht, hv⟩ := List.mem_flatMap.mp hv
  obtain ⟨u, hu, rfl⟩ := List.mem_map.mp hv
  obtain ⟨hct, hft⟩ := Terms.everyNumber_iff.mp hts t ht
  obtain ⟨hcu, hfu⟩ := Terms.everyNumber_iff.mp hus u hu
  exact ⟨hQ.mul hct hcu, hft.insertAll hQ hfu⟩

theorem Terms.EveryNumber.endsIn_pow {ts : List (Term α)} (hts : Terms.EveryNumber Q ts) {e : α}
    (he : Q e) : EndsIn (fun _ => True) (Terms.EveryNumber Q) (Terms.pow ts e) := by
  have hgroup := hts.group hQ
  rw [Terms.pow]
  split
  · split
    · trivial
    · trivial
  · rename_i t hts
    rw [hts] at hgroup
    obtain ⟨-, hfs⟩ := Terms.everyNumber_iff.mp hgroup t (List.mem_singleton_self t)
    rw [Term.pow]
    split
    · rename_i hfinite
      refine Terms.everyNumber_iff.mpr fun u hu => ?_
      rw [List.mem_singleton.mp hu]
      refine ⟨hQ.finite hfinite, Factors.everyNumber_iff.mpr fun g hg => ?_⟩
      obtain ⟨f, hf, rfl⟩ := List.mem_map.mp hg
      obtain ⟨hkey, hexp⟩ := Factors.everyNumber_iff.mp hfs f hf
      exact ⟨hkey, hQ.mul hexp he⟩
    · trivial
  · refine Terms.everyNumber_iff.mpr fun u hu => ?_
    rw [List.mem_singleton.mp hu]
    exact ⟨hQ.one, Factors.EveryNumber.insertAll hQ trivial ⟨⟨hgroup, he⟩, trivial⟩⟩

theorem Expr.EveryNumber.endsIn_decompose {e : Expr α} (h : e.EveryNumber Q) :
    EndsIn (fun _ => True) (Terms.EveryNumber Q) e.decompose := by
  induction e with
  | num v => exact ⟨⟨h, trivial⟩, trivial⟩
  | var x =>
    exact ⟨⟨hQ.one, Factors.EveryNumber.insertAll hQ trivial ⟨⟨trivial, hQ.one⟩, trivial⟩⟩, trivial⟩
  | bin op l r ihl ihr =>
    rw [decompose]
    refine (ihl h.1).bind fun ts hts => ?_
    split
    · exact hts.endsIn_pow hQ h.2
    · trivial
    · refine (ihr h.2).bind fun us hus => ?_
      have hts' := Terms.everyNumber_iff.mp hts
      have hus' := Terms.everyNumber_iff.mp hus
      split
      · exact Terms.everyNumber_iff.mpr (List.forall_mem_append.mpr ⟨hts', hus'⟩)
      · refine Terms.everyNumber_iff.mpr (List.forall_mem_append.mpr ⟨hts', fun u hu => ?_⟩)
        obtain ⟨t, ht, rfl⟩ := List.mem_map.mp hu
        exact ⟨hQ.neg (hus' t ht).1, (hus' t ht).2⟩
      · exact hts.mul hQ hus
      · trivial
  | pending t ih => trivial
  | hole => trivial

/-- The terms of a tree, whether or not every pass has rules for it. -/
theorem Expr.EveryNumber.canonicalTerms {e : Expr α} (h : e.EveryNumber Q) :
    EndsIn (fun _ => True) (Terms.EveryNumber Q) e.canonicalTerms := by
  rw [Expr.canonicalTerms]
  refine EndsIn.bind (P := Expr.EveryNumber Q) ?_ fun expanded hexpanded => ?_
  · cases hd : e.distribute with
    | error err => trivial
    | ok expanded => exact (Expr.hereditary_everyNumber Q).distributeIn h hd
  · refine (hexpanded.endsIn_removeDivision (hQ.neg hQ.one)).bind fun undivided hundivided => ?_
    exact (hundivided.endsIn_decompose hQ).bind fun ts hts => hts.group hQ

end Terms

/-! ## Terms as expressions -/

/-- A condition `P` on trees that terms satisfy when they are put together from names that satisfy `A`
and numbers that satisfy `Q`. -/
structure Composes [Scalar α] (P : Expr α → Prop) (A : String → Prop) (Q : α → Prop) : Prop where
  num {v : α} : Q v → P (.num v)
  var {x : String} : A x → P (.var x)
  add {l r : Expr α} : P l → P r → P (.add l r)
  sub {l r : Expr α} : P l → P r → P (.sub l r)
  mul {l r : Expr α} : P l → P r → P (.mul l r)
  pow {b : Expr α} {e : α} : P b → Q e → P (.pow b e)
  zero : Q 0
  neg {v : α} : Q v → Q (-v)

namespace Composes

variable [Scalar α] {P : Expr α → Prop} {A : String → Prop} {Q : α → Prop} (h : Composes P A Q)

include h

theorem monomialExpr {c : α} (hc : Q c) {es : List (Expr α)} (hes : ∀ e ∈ es, P e) :
    P (Fluxion.monomialExpr c es) :=
  List.foldlRecOn es Expr.mul (h.num hc) fun _ hb a ha => h.mul hb (hes a ha)

theorem toExprs {fs : List (Factor α)} (hfs : ∀ f ∈ fs, P f.key.toExpr ∧ Q f.exponent) :
    ∀ e ∈ Factors.toExprs fs, P e := by
  induction fs with
  | nil => simp [Factors.toExprs]
  | cons f fs ih =>
    obtain ⟨k, e⟩ := f
    obtain ⟨⟨hk, he⟩, hfs⟩ := List.forall_mem_cons.mp hfs
    rw [Factors.toExprs]
    refine List.forall_mem_cons.mpr ⟨?_, ih hfs⟩
    rw [powerExpr]
    split
    · exact hk
    · exact h.pow hk he

theorem addTo {e : Expr α} (he : P e) {ts : List (Term α)}
    (hts : ∀ t ∈ ts, Q t.coefficient ∧ ∀ a ∈ Factors.toExprs t.factors, P a) :
    P (Terms.addTo e ts) := by
  induction ts generalizing e with
  | nil => exact he
  | cons t ts ih =>
    obtain ⟨c, fs⟩ := t
    obtain ⟨⟨hc, hfs⟩, hts⟩ := List.forall_mem_cons.mp hts
    rw [Terms.addTo]
    split
    · exact ih (h.add he (h.monomialExpr hc hfs)) hts
    · exact ih (h.sub he (h.monomialExpr (h.neg hc) hfs)) hts

theorem toExpr {ts : List (Term α)} (hnames : Terms.Named A ts) (hts : Terms.EveryNumber Q ts) :
    P (Terms.toExpr ts) := by
  induction ts using Terms.nested_induction with
  | step ts ih =>
    have hterms : ∀ t ∈ ts, Q t.coefficient ∧ ∀ a ∈ Factors.toExprs t.factors, P a := by
      intro t ht
      obtain ⟨hc, hfs⟩ := Terms.everyNumber_iff.mp hts t ht
      refine ⟨hc, h.toExprs fun f hf => ?_⟩
      obtain ⟨hkey, he⟩ := Factors.everyNumber_iff.mp hfs f hf
      have hname := Terms.named_iff.mp hnames t ht f hf
      refine ⟨?_, he⟩
      cases hk : f.key with
      | atom x =>
        rw [hk] at hname
        exact h.var hname
      | composite us =>
        rw [hk] at hkey hname
        exact ih t ht f hf us hk hname hkey
    cases ts with
    | nil => exact h.num h.zero
    | cons t ts =>
      obtain ⟨c, fs⟩ := t
      obtain ⟨⟨hc, hfs⟩, hrest⟩ := List.forall_mem_cons.mp hterms
      rw [Terms.toExpr]
      exact h.addTo (h.monomialExpr hc hfs) hrest

end Composes

theorem composes_everyNumber [Scalar α] {Q : α → Prop} (hzero : Q 0) (hneg : ∀ v, Q v → Q (-v)) :
    Composes (Expr.EveryNumber Q) (fun _ => True) Q where
  num hv := hv
  var _ := trivial
  add hl hr := ⟨hl, hr⟩
  sub hl hr := ⟨hl, hr⟩
  mul hl hr := ⟨hl, hr⟩
  pow hb he := ⟨hb, he⟩
  zero := hzero
  neg := hneg _

theorem composes_named [Scalar α] (A : String → Prop) :
    Composes (Expr.Named A : Expr α → Prop) A fun _ => True where
  num _ := by simp [Expr.Named, Expr.names]
  var hx := by simpa [Expr.Named, Expr.names] using hx
  add hl hr := Expr.named_bin.mpr ⟨hl, hr⟩
  sub hl hr := Expr.named_bin.mpr ⟨hl, hr⟩
  mul hl hr := Expr.named_bin.mpr ⟨hl, hr⟩
  pow hb _ := Expr.named_bin.mpr ⟨hb, by simp [Expr.Named, Expr.names]⟩
  zero := trivial
  neg _ := trivial

/-- What holds of all numbers holds of those of all terms. -/
theorem Terms.everyNumber_of_forall {Q : α → Prop} (hQ : ∀ v, Q v) (ts : List (Term α)) :
    Terms.EveryNumber Q ts := by
  induction ts using Terms.nested_induction with
  | step ts ih =>
    refine Terms.everyNumber_iff.mpr fun t ht => ⟨hQ _, Factors.everyNumber_iff.mpr fun f hf => ?_⟩
    refine ⟨?_, hQ _⟩
    cases hk : f.key with
    | atom x => trivial
    | composite us => exact ih t ht f hf us hk

end Fluxion
