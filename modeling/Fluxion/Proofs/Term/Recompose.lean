import Fluxion.Term.Recompose
import Fluxion.Proofs.Distribute
import Fluxion.Proofs.Division
import Fluxion.Proofs.Rational
import Fluxion.Proofs.Term.Decompose

/-!
# Terms as expressions

The expression that is built from terms has their value, and nothing in it is undefined at a point where
every power inside the terms exists. Together with decomposition this gives the meaning of canonical
terms: they, and the expression that is built from them, have the value of the original expression.
-/

namespace Fluxion

open ExactScalar Fluxion.Expr

variable {α : Type} [ExactScalar α] {ρ : String → ℚ}

/-- The expression has the given value, and nothing in it is undefined. -/
def Expr.Represents (ρ : String → ℚ) (e : Expr α) (q : ℚ) : Prop := e.Regular ρ ∧ e.valueAt ρ = q

theorem Expr.Represents.power {b : Expr α} {k : Key α} {e : α} (hb : b.Represents ρ (k.valueAt ρ))
    (he : k.HasPower ρ e) : (powerExpr b e).Represents ρ (k.valueAt ρ ^ integer e) := by
  obtain ⟨hreg, hval⟩ := hb
  rw [powerExpr]
  split
  · rename_i hone
    have hint : integer e = 1 :=
      integer_of_value_eq (by simpa using (beq_one_iff e).mp hone)
    rw [hint, zpow_one]
    exact ⟨hreg, hval⟩
  · refine ⟨hreg.pow he.1 fun hneg => ?_, by rw [valueAt_pow, hval]⟩
    rw [hval]
    exact he.2 hneg

theorem Factors.toExprs_represent {fs : List (Factor α)} (hfs : Factors.Sound ρ fs)
    (hkey : ∀ f ∈ fs, f.key.toExpr.Represents ρ (f.key.valueAt ρ)) :
    (∀ e ∈ Factors.toExprs fs, e.Regular ρ) ∧
      ((Factors.toExprs fs).map (Expr.valueAt ρ)).prod = Factors.valueAt ρ fs := by
  induction fs with
  | nil => simp [Factors.toExprs]
  | cons f fs ih =>
    obtain ⟨hf, hfs⟩ := Factors.sound_cons.mp hfs
    obtain ⟨hreg, hprod⟩ := ih hfs fun g hg => hkey g (List.mem_cons_of_mem _ hg)
    obtain ⟨hregf, hvalf⟩ := (hkey f (List.mem_cons_self ..)).power hf.2
    obtain ⟨k, e⟩ := f
    rw [Factors.toExprs]
    refine ⟨List.forall_mem_cons.mpr ⟨hregf, hreg⟩, ?_⟩
    rw [List.map_cons, List.prod_cons, hprod, hvalf, Factors.valueAt_cons]

theorem monomialExpr_represents (c : α) {fs : List (Factor α)} (hfs : Factors.Sound ρ fs)
    (hkey : ∀ f ∈ fs, f.key.toExpr.Represents ρ (f.key.valueAt ρ)) :
    (monomialExpr c (Factors.toExprs fs)).Represents ρ (value c * Factors.valueAt ρ fs) := by
  obtain ⟨hreg, hprod⟩ := Factors.toExprs_represent hfs hkey
  refine ⟨Regular.foldl_mul (regular_num c) hreg, ?_⟩
  rw [monomialExpr, valueAt, denote_foldl_mul, ← hprod]
  rfl

theorem Terms.addTo_represents {e : Expr α} {q : ℚ} (he : e.Represents ρ q) {ts : List (Term α)}
    (hts : Terms.Sound ρ ts)
    (hkey : ∀ t ∈ ts, ∀ f ∈ t.factors, f.key.toExpr.Represents ρ (f.key.valueAt ρ)) :
    (Terms.addTo e ts).Represents ρ (q + Terms.valueAt ρ ts) := by
  induction ts generalizing e q with
  | nil =>
    rw [Terms.addTo, Terms.valueAt_nil, add_zero]
    exact he
  | cons t ts ih =>
    obtain ⟨c, fs⟩ := t
    obtain ⟨ht, hts⟩ := Terms.sound_cons.mp hts
    obtain ⟨hkt, hkts⟩ := List.forall_mem_cons.mp hkey
    rw [Terms.addTo, Terms.valueAt_cons, ← add_assoc]
    split
    · obtain ⟨hreg, hval⟩ := monomialExpr_represents c ht hkt
      exact ih ⟨he.1.add hreg, by rw [valueAt_add, he.2, hval]⟩ hts hkts
    · obtain ⟨hreg, hval⟩ := monomialExpr_represents (-c) ht hkt
      refine ih ⟨he.1.sub hreg, ?_⟩ hts hkts
      rw [valueAt_sub, he.2, hval, value_neg]
      ring

/-- The expression built from terms has their value. -/
theorem Terms.Sound.toExpr_represents {ts : List (Term α)} (h : Terms.Sound ρ ts) :
    (Terms.toExpr ts).Represents ρ (Terms.valueAt ρ ts) := by
  induction ts using Terms.nested_induction with
  | step ts ih =>
    have hkey : ∀ t ∈ ts, ∀ f ∈ t.factors, f.key.toExpr.Represents ρ (f.key.valueAt ρ) := by
      intro t ht f hf
      have hsound := h.key ht hf
      cases hk : f.key with
      | atom x => exact ⟨regular_var x, rfl⟩
      | composite us =>
        rw [hk] at hsound
        exact ih t ht f hf us hk hsound
    cases ts with
    | nil =>
      rw [Terms.toExpr]
      exact ⟨regular_num 0, value_zero⟩
    | cons t ts =>
      obtain ⟨c, fs⟩ := t
      obtain ⟨ht, hts⟩ := Terms.sound_cons.mp h
      obtain ⟨hkt, hkts⟩ := List.forall_mem_cons.mp hkey
      rw [Terms.toExpr, Terms.valueAt_cons]
      exact Terms.addTo_represents (monomialExpr_represents c ht hkt) hts hkts

/-! ## Canonical terms -/

/-- The steps behind canonical terms. -/
theorem Expr.canonicalTerms_eq_ok {β : Type} [Scalar β] {n : Expr β} {ts : List (Term β)} :
    n.canonicalTerms = .ok ts ↔
      ∃ e e' us, n.distribute = .ok e ∧ e.removeDivision = .ok e' ∧ e'.decompose = .ok us ∧
        ts = Terms.group us := by
  unfold Expr.canonicalTerms
  constructor
  · intro h
    obtain ⟨e, hd, h⟩ := bind_eq_ok.mp h
    obtain ⟨e', hr, h⟩ := bind_eq_ok.mp h
    obtain ⟨us, hu, h⟩ := bind_eq_ok.mp h
    exact ⟨e, e', us, hd, hr, hu, (Except.ok.inj h).symm⟩
  · rintro ⟨e, e', us, hd, hr, hu, rfl⟩
    exact bind_eq_ok.mpr ⟨e, hd, bind_eq_ok.mpr ⟨e', hr, bind_eq_ok.mpr ⟨us, hu, rfl⟩⟩⟩

/-- Whatever is freed of quotients, decomposed and grouped keeps its value. -/
theorem Expr.group_decompose_sound {e e' : Expr α} {us : List (Term α)} (hx : e.Lettered)
    (hint : e.IntegerPowers) (hpole : e.PoleFree ρ) (hr : e.removeDivision = .ok e')
    (hu : e'.decompose = .ok us) :
    Terms.Sound ρ (Terms.group us) ∧ Terms.valueAt ρ (Terms.group us) = e.valueAt ρ := by
  obtain ⟨hsound, hvalue⟩ :=
    decompose_sound (regular_removeDivision hint hpole hr) (hx.removeDivision hr) hu
  refine ⟨hsound.group, ?_⟩
  rw [hsound.valueAt_group, hvalue, valueAt_removeDivision hr]

/-- Canonical terms have the value of the expression they were made from. -/
theorem Expr.canonicalTerms_sound {n : Expr α} {ts : List (Term α)} (hx : n.Lettered)
    (hint : n.IntegerPowers) (hpole : n.PoleFree ρ) (h : n.canonicalTerms = .ok ts) :
    Terms.Sound ρ ts ∧ Terms.valueAt ρ ts = n.valueAt ρ := by
  obtain ⟨e, e', us, hd, hr, hu, rfl⟩ := Expr.canonicalTerms_eq_ok.mp h
  obtain ⟨hsound, hvalue⟩ := Expr.group_decompose_sound (hereditary_lettered.distributeIn hx hd)
    (hint.distributeIn hd) (hpole.distributeIn hd) hr hu
  exact ⟨hsound, hvalue.trans (valueAt_distributeIn hd)⟩

/-- Canonical terms, and the expression that is built from them, have the value of the expression they
were made from, at every point where nothing in that expression is undefined. -/
theorem Expr.canonicalTerms_valueAt (n : Expr α) (ts : List (Term α)) (ρ : String → ℚ)
    (hx : n.Lettered) (hint : n.IntegerPowers) (hpole : n.PoleFree ρ)
    (h : n.canonicalTerms = .ok ts) :
    Terms.valueAt ρ ts = n.valueAt ρ ∧ (Terms.toExpr ts).valueAt ρ = n.valueAt ρ ∧
      (Terms.toExpr ts).PoleFree ρ := by
  obtain ⟨hsound, hvalue⟩ := Expr.canonicalTerms_sound hx hint hpole h
  obtain ⟨⟨-, -, hpole'⟩, hvalue'⟩ := hsound.toExpr_represents
  exact ⟨hvalue, hvalue'.trans hvalue, hpole'⟩

section Rational

open scoped Rational

/-- The bases `x+y` and `y+x` become one composite key, whose exponents add up. -/
theorem Expr.canonicalTerms_valueAt_quotient :
    ∃ ts, (mul (div (sub (var "x") (num 2)) (pow (add (var "x") (var "y")) 2))
        (pow (add (var "y") (var "x")) (-1)) : Expr ℚ).canonicalTerms = .ok ts ∧
      Terms.valueAt (fun x => if x = "x" then 3 else 1) ts = 1 / 64 ∧
      (Terms.toExpr ts).valueAt (fun x => if x = "x" then 3 else 1) = 1 / 64 := by
  obtain ⟨ts, hts⟩ := exists_ok_of_isOk (x := (mul (div (sub (var "x") (num 2))
    (pow (add (var "x") (var "y")) 2)) (pow (add (var "y") (var "x")) (-1)) :
      Expr ℚ).canonicalTerms) (by decide +kernel)
  obtain ⟨hterms, hexpr, -⟩ := canonicalTerms_valueAt _ ts (fun x => if x = "x" then 3 else 1)
    (by decide +kernel) (by decide +kernel) (by decide +kernel) hts
  exact ⟨ts, hts, hterms.trans (by decide +kernel), hexpr.trans (by decide +kernel)⟩

end Rational

end Fluxion
