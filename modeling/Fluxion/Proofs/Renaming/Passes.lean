import Fluxion.Proofs.Differentiation
import Fluxion.Proofs.Renaming.Terms

/-!
# Renamed trees

Every pass does the same to a renamed tree as to the tree itself: it fails on both, or its results differ by
the renaming only. Most passes do not look at names at all. Evaluation and the comparison of trees ask
whether two variables are the same, and so need names that stay different, and taking a tree apart into
terms compares the names of keys.
-/

namespace Fluxion

variable {α : Type}

/-- Every variable of a tree renamed by `f`. -/
def Expr.rename (f : String → String) : Expr α → Expr α
  | num v => num v
  | var x => var (f x)
  | bin op l r => bin op (l.rename f) (r.rename f)
  | pending t => pending (t.rename f)
  | hole => hole

namespace Expr

variable {f : String → String}

@[simp] theorem depth_rename (e : Expr α) : (e.rename f).depth = e.depth := by
  induction e with
  | num v => rfl
  | var x => rfl
  | bin op l r ihl ihr => rw [rename, depth, depth, ihl, ihr]
  | pending t ih => rw [rename, depth, depth, ih]
  | hole => rfl

/-- Trees are compared as before, if different variables have different new names. -/
theorem same_rename [BEq α] (hf : Function.Injective f) (e e' : Expr α) :
    (e.rename f).same (e'.rename f) = e.same e' := by
  induction e generalizing e' with
  | num v => cases e' <;> rfl
  | var x =>
    cases e' with
    | var y =>
      show (f x == f y) = (x == y)
      rw [Bool.eq_iff_iff, beq_iff_eq, beq_iff_eq, hf.eq_iff]
    | _ => rfl
  | bin op l r ihl ihr =>
    cases e' with
    | bin op' l' r' =>
      show (op == op' && (l.rename f).same (l'.rename f) && (r.rename f).same (r'.rename f)) = _
      rw [ihl, ihr]
      rfl
    | _ => rfl
  | pending t ih =>
    cases e' with
    | pending t' => exact ih t'
    | _ => rfl
  | hole => cases e' <;> rfl

@[simp] theorem isNumber_rename [BEq α] (v : α) (e : Expr α) :
    (e.rename f).isNumber v = e.isNumber v := by
  cases e <;> rfl

theorem distributeRight_rename (l r : Expr α) :
    (distributeRight l r).rename f = distributeRight (l.rename f) (r.rename f) := by
  fun_induction distributeRight l r with
  | case1 a b iha ihb =>
    rw [rename, iha, ihb]
    rfl
  | case2 a b iha ihb =>
    rw [rename, iha, ihb]
    rfl
  | case3 r hadd hsub =>
    cases r with
    | bin op a b =>
      cases op with
      | add => exact absurd rfl (hadd a b)
      | sub => exact absurd rfl (hsub a b)
      | _ => rfl
    | _ => rfl

theorem distributeProduct_rename (l r : Expr α) :
    (distributeProduct l r).rename f = distributeProduct (l.rename f) (r.rename f) := by
  fun_induction distributeProduct l r with
  | case1 a b iha ihb =>
    rw [rename, iha, ihb]
    rfl
  | case2 a b iha ihb =>
    rw [rename, iha, ihb]
    rfl
  | case3 l hadd hsub =>
    cases l with
    | bin op a b =>
      cases op with
      | add => exact absurd rfl (hadd a b)
      | sub => exact absurd rfl (hsub a b)
      | _ => exact distributeRight_rename _ r
    | _ => exact distributeRight_rename _ r

theorem distributePower_rename (base : Expr α) (n : ℕ) :
    (distributePower base n).rename f = distributePower (base.rename f) n := by
  induction n with
  | zero => rfl
  | succ n ih => rw [distributePower, distributeProduct_rename, ih, distributePower]

variable [Scalar α]

theorem distributeNode_rename (inDivisor : Bool) (op : Operator) (l r : Expr α) :
    (distributeNode inDivisor op l r).rename f =
      distributeNode inDivisor op (l.rename f) (r.rename f) := by
  cases op with
  | mul => exact distributeProduct_rename l r
  | pow =>
    cases r with
    | num e =>
      cases inDivisor with
      | true => rfl
      | false =>
        cases h : Scalar.smallPower? e with
        | none => simp [rename, distributeNode, h]
        | some k => simp [rename, distributeNode, h, distributePower_rename]
    | _ => rfl
  | _ => rfl

theorem mirrors_distributeIn (inDivisor : Bool) (e : Expr α) :
    Mirrors (rename f) (e.distributeIn inDivisor) ((e.rename f).distributeIn inDivisor) := by
  induction e generalizing inDivisor with
  | num v => rfl
  | var x => rfl
  | bin op l r ihl ihr =>
    refine (ihl inDivisor).bind fun l' _ => (ihr _).bind fun r' _ => ?_
    exact congrArg some (distributeNode_rename inDivisor op l' r').symm
  | pending t ih => exact (ih inDivisor).bind fun t' _ => rfl
  | hole => rfl

/-- Renaming can be done before or after multiplying out. -/
theorem mirrors_distribute (e : Expr α) :
    Mirrors (rename f) e.distribute (e.rename f).distribute := mirrors_distributeIn false e

/-- Renaming can be done before or after the rules of differentiation are applied. -/
theorem mirrors_derive (d : ℤ) (e : Expr α) :
    Mirrors (rename f) (e.derive d) ((e.rename f).derive d) := by
  induction e generalizing d with
  | num v => rfl
  | var x => rfl
  | bin op l r ihl ihr =>
    rw [rename, derive, derive]
    split
    · rfl
    · refine (ihl (d - 1)).bind fun dl _ => ?_
      cases op with
      | pow =>
        cases r with
        | num e => rfl
        | _ => rfl
      | add => exact (ihr (d - 1)).bind fun dr _ => rfl
      | sub => exact (ihr (d - 1)).bind fun dr _ => rfl
      | mul => exact (ihr (d - 1)).bind fun dr _ => rfl
      | div => exact (ihr (d - 1)).bind fun dr _ => rfl
      | other c => exact (ihr (d - 1)).bind fun dr _ => rfl
  | pending t ih =>
    rw [rename, derive, derive]
    split
    · rfl
    · rfl
  | hole =>
    rw [rename, derive]
    split
    · rfl
    · rfl

theorem simplify_rename (op : Operator) (l r : Expr α) :
    simplify op (l.rename f) (r.rename f) = (simplify op l r).rename f := by
  cases op with
  | other c => rfl
  | _ =>
    simp only [simplify, isNumber_rename]
    split_ifs <;> rfl

theorem mirrors_evaluateNode (op : Operator) (l r : Expr α) :
    Mirrors (rename f) (evaluateNode op l r) (evaluateNode op (l.rename f) (r.rename f)) := by
  have hsimplify := congrArg some (simplify_rename (f := f) op l r)
  cases l with
  | num a =>
    cases r with
    | num b =>
      exact (Mirrors.refl (fold op a b)).map fun v => rfl
    | _ => exact hsimplify
  | _ => exact hsimplify

/-- Renaming can be done before or after evaluation, if the variable is renamed as well and different
variables have different new names. -/
theorem mirrors_evaluate (hf : Function.Injective f) (x : String) (e : Expr α) :
    Mirrors (rename f) (e.evaluate x) ((e.rename f).evaluate (f x)) := by
  induction e with
  | num v => rfl
  | var x => rfl
  | bin op l r ihl ihr =>
    exact ihl.bind fun l' _ => ihr.bind fun r' _ => mirrors_evaluateNode op l' r'
  | pending t ih =>
    have htarget : Mirrors id (t.resolve x) ((t.rename f).resolve (f x)) := by
      cases t with
      | var y =>
        show some (if f y == f x then 1 else 0) = some (if y == x then 1 else 0)
        simp only [beq_iff_eq, hf.eq_iff]
      | _ => rfl
    exact htarget.map fun v => rfl
  | hole => rfl

theorem mirrors_removeDivision (e : Expr α) :
    Mirrors (rename f) e.removeDivision (e.rename f).removeDivision := by
  induction e with
  | num v => rfl
  | var x => rfl
  | bin op l r ihl ihr =>
    refine ihl.bind fun l' _ => ihr.bind fun r' _ => ?_
    show some (if op = .div then _ else _) = some (rename f (if op = .div then _ else _))
    split
    · rfl
    · rfl
  | pending t ih => rfl
  | hole => rfl

/-! ### Quotients -/

omit [Scalar α] in
theorem foldl_mul_rename (es : List (Expr α)) (e : Expr α) :
    (es.foldl mul e).rename f = (es.map (rename f)).foldl mul (e.rename f) := by
  induction es generalizing e with
  | nil => rfl
  | cons e' es ih => exact ih (mul e e')

theorem product_rename (es : List (Expr α)) :
    (product es).rename f = product (es.map (rename f)) := by
  cases es with
  | nil => rfl
  | cons e es => exact foldl_mul_rename es e

/-- A fraction with the variables of its factors renamed. -/
def Fraction.rename (f : String → String) (q : Fraction α) : Fraction α :=
  ⟨q.above.map (Expr.rename f), q.below.map (Expr.rename f)⟩

omit [Scalar α] in
theorem Fraction.append_rename (p q : Fraction α) :
    (p.append q).rename f = (p.rename f).append (q.rename f) := by
  simp [Fraction.append, Fraction.rename]

theorem Fraction.ofPower_rename (base : Expr α) (e : α) :
    (Fraction.ofPower base e).rename f = Fraction.ofPower (base.rename f) e := by
  unfold Fraction.ofPower
  split_ifs <;> rfl

theorem Fraction.toExpr_rename (q : Fraction α) : q.toExpr.rename f = (q.rename f).toExpr := by
  obtain ⟨above, below⟩ := q
  cases below with
  | nil => exact product_rename above
  | cons e es => exact congrArg₂ div (product_rename above) (product_rename (e :: es))

theorem restoreDivision_and_fraction_rename (e : Expr α) :
    (e.rename f).restoreDivision = e.restoreDivision.rename f ∧
      (e.rename f).fraction = e.fraction.rename f := by
  induction e with
  | num v => exact ⟨rfl, rfl⟩
  | var x => exact ⟨rfl, rfl⟩
  | bin op l r ihl ihr =>
    cases op with
    | add => exact ⟨by simp [rename, restoreDivision, ihl.1, ihr.1], rfl⟩
    | sub => exact ⟨by simp [rename, restoreDivision, ihl.1, ihr.1], rfl⟩
    | mul =>
      simp [rename, restoreDivision, fraction, Fraction.toExpr_rename, Fraction.append_rename,
        ihl.2, ihr.2]
    | pow =>
      cases r with
      | num e =>
        simp [rename, restoreDivision, fraction, Fraction.toExpr_rename, Fraction.ofPower_rename,
          ihl.1]
      | _ => exact ⟨rfl, rfl⟩
    | div => exact ⟨rfl, rfl⟩
    | other c => exact ⟨rfl, rfl⟩
  | pending t ih => exact ⟨rfl, rfl⟩
  | hole => exact ⟨rfl, rfl⟩

/-- Renaming can be done before or after quotients are restored. -/
theorem restoreDivision_rename (e : Expr α) :
    (e.rename f).restoreDivision = e.restoreDivision.rename f :=
  (restoreDivision_and_fraction_rename e).1

end Expr

/-! ## From terms to trees -/

section Terms

variable [Scalar α]

section

variable {f : String → String}

theorem powerExpr_rename (base : Expr α) (e : α) :
    (powerExpr base e).rename f = powerExpr (base.rename f) e := by
  unfold powerExpr
  split
  · rfl
  · rfl

theorem Factors.toExprs_rename {fs : List (Factor α)}
    (hkey : ∀ g ∈ fs, (g.key.rename f).toExpr = g.key.toExpr.rename f) :
    Factors.toExprs (fs.map (Factor.rename f)) = (Factors.toExprs fs).map (Expr.rename f) := by
  induction fs with
  | nil => rfl
  | cons g fs ih =>
    obtain ⟨k, e⟩ := g
    obtain ⟨hk, hfs⟩ := List.forall_mem_cons.mp hkey
    show powerExpr (k.rename f).toExpr e :: Factors.toExprs (fs.map (Factor.rename f)) =
      (powerExpr k.toExpr e).rename f :: (Factors.toExprs fs).map (Expr.rename f)
    rw [hk, ih hfs, powerExpr_rename]

theorem monomialExpr_rename {fs : List (Factor α)}
    (hkey : ∀ g ∈ fs, (g.key.rename f).toExpr = g.key.toExpr.rename f) (c : α) :
    monomialExpr c (Factors.toExprs (fs.map (Factor.rename f))) =
      (monomialExpr c (Factors.toExprs fs)).rename f := by
  rw [monomialExpr, monomialExpr, Expr.foldl_mul_rename, Factors.toExprs_rename hkey]
  rfl

theorem Terms.addTo_rename {ts : List (Term α)}
    (hkey : ∀ t ∈ ts, ∀ g ∈ t.factors, (g.key.rename f).toExpr = g.key.toExpr.rename f) (e : Expr α) :
    Terms.addTo (e.rename f) (ts.map (Term.rename f)) = (Terms.addTo e ts).rename f := by
  induction ts generalizing e with
  | nil => rfl
  | cons t ts ih =>
    obtain ⟨c, fs⟩ := t
    obtain ⟨ht, hts⟩ := List.forall_mem_cons.mp hkey
    show Terms.addTo (e.rename f) (⟨c, fs.map (Factor.rename f)⟩ :: ts.map (Term.rename f)) = _
    rw [Terms.addTo, Terms.addTo, monomialExpr_rename ht, monomialExpr_rename ht]
    split
    · exact ih hts (.add e (monomialExpr c (Factors.toExprs fs)))
    · exact ih hts (.sub e (monomialExpr (-c) (Factors.toExprs fs)))

/-- Renaming can be done before or after terms are put together. -/
theorem Terms.toExpr_rename (ts : List (Term α)) :
    Terms.toExpr (ts.map (Term.rename f)) = (Terms.toExpr ts).rename f := by
  induction ts using Terms.nested_induction with
  | step ts ih =>
    have hkey : ∀ t ∈ ts, ∀ g ∈ t.factors, (g.key.rename f).toExpr = g.key.toExpr.rename f := by
      intro t ht g hg
      cases hk : g.key with
      | atom x => rfl
      | composite us =>
        rw [Key.rename_composite, Key.toExpr, Key.toExpr, ih t ht g hg us hk]
    cases ts with
    | nil => rfl
    | cons t ts =>
      obtain ⟨c, fs⟩ := t
      obtain ⟨ht, hts⟩ := List.forall_mem_cons.mp hkey
      show Terms.toExpr (⟨c, fs.map (Factor.rename f)⟩ :: ts.map (Term.rename f)) = _
      rw [Terms.toExpr, Terms.toExpr, monomialExpr_rename ht, Terms.addTo_rename hts]

theorem Term.mirrors_pow (t : Term α) (e : α) :
    Mirrors (Term.rename f) (t.pow e) ((t.rename f).pow e) := by
  rw [Term.pow, Term.pow]
  show Mirrors (Term.rename f) (if Scalar.isFinite (Scalar.pow t.coefficient e) then _ else _)
    (if Scalar.isFinite (Scalar.pow t.coefficient e) then _ else _)
  split
  · refine congrArg some (congrArg (Term.mk _) ?_)
    rw [Term.rename, List.map_map, List.map_map]
    rfl
  · rfl

end

end Terms

/-! ## From trees to terms -/

section Decompose

theorem Expr.Lettered.endsIn_decompose [Scalar α] {e : Expr α} (he : e.Lettered) :
    EndsIn (fun _ => True) Terms.Lettered e.decompose := Expr.Named.endsIn_decompose he

variable [LegibleScalar α] (σ : Renaming)

theorem Term.mul_rename {t u : Term α} (ht : ∀ g ∈ t.factors, g.key.Lettered)
    (hu : ∀ g ∈ u.factors, g.key.Lettered) :
    (t.rename σ.apply).mul (u.rename σ.apply) = (t.mul u).rename σ.apply :=
  congrArg (Term.mk _) (Factors.insertAll_rename
    (fun _ _ hk hk' => Key.canonical_rename_iff σ hk hk') ht hu)

theorem Terms.mul_rename {ts us : List (Term α)} (hts : Terms.Lettered ts) (hus : Terms.Lettered us) :
    Terms.mul (ts.map (Term.rename σ.apply)) (us.map (Term.rename σ.apply)) =
      (Terms.mul ts us).map (Term.rename σ.apply) := by
  rw [Terms.lettered_iff] at hts hus
  rw [Terms.mul, Terms.mul, List.flatMap_map, List.map_flatMap]
  refine List.flatMap_congr fun t ht => ?_
  rw [List.map_map, List.map_map]
  exact List.map_congr_left fun u hu => Term.mul_rename σ (hts t ht) (hus u hu)

theorem Terms.mirrors_pow {ts : List (Term α)} (hts : Terms.Lettered ts) (e : α) :
    Mirrors (List.map (Term.rename σ.apply)) (Terms.pow ts e)
      (Terms.pow (ts.map (Term.rename σ.apply)) e) := by
  rw [Terms.pow, Terms.pow, Terms.group_rename σ hts]
  rcases Terms.group ts with _ | ⟨t, _ | ⟨u, us⟩⟩
  · show Mirrors _ (if Scalar.isPositive e then _ else _) (if Scalar.isPositive e then _ else _)
    split
    · rfl
    · rfl
  · exact (t.mirrors_pow e).map fun u => rfl
  · have hkeep := Factor.keep_rename (f := σ.apply) (⟨.composite (t :: u :: us), e⟩ : Factor α)
    rw [Factor.rename, Key.rename_composite] at hkeep
    exact congrArg (fun fs => some [Term.mk 1 fs]) hkeep

theorem Terms.map_neg_rename (f : String → String) (ts : List (Term α)) :
    (ts.map (Term.rename f)).map Term.neg = (ts.map Term.neg).map (Term.rename f) := by
  rw [List.map_map, List.map_map]
  rfl

/-- Renaming can be done before or after a tree is taken apart into terms. -/
theorem Expr.mirrors_decompose {e : Expr α} (he : e.Lettered) :
    Mirrors (List.map (Term.rename σ.apply)) e.decompose (e.rename σ.apply).decompose := by
  induction e with
  | num v => rfl
  | var x => exact congrArg (fun fs => some [Term.mk 1 fs]) (Factor.keep_rename ⟨.atom x, 1⟩)
  | bin op l r ihl ihr =>
    obtain ⟨hl, hr⟩ := Expr.lettered_bin.mp he
    rw [rename, decompose, decompose]
    refine (ihl hl).bind fun ts hts => ?_
    have hts := hl.endsIn_decompose.of_ok hts
    cases op with
    | pow =>
      cases r with
      | num v => exact Terms.mirrors_pow σ hts v
      | _ => rfl
    | add => exact (ihr hr).bind fun us _ => congrArg some List.map_append.symm
    | sub =>
      refine (ihr hr).bind fun us _ => congrArg some ?_
      rw [List.map_append, Terms.map_neg_rename]
    | mul =>
      refine (ihr hr).bind fun us hus => congrArg some ?_
      exact Terms.mul_rename σ hts (hr.endsIn_decompose.of_ok hus)
    | div => exact (ihr hr).bind fun us _ => rfl
    | other c => exact (ihr hr).bind fun us _ => rfl
  | pending t ih => rfl
  | hole => rfl

/-- Renaming can be done before or after a tree is brought into its terms. -/
theorem Expr.mirrors_canonicalTerms {e : Expr α} (he : e.Lettered) :
    Mirrors (List.map (Term.rename σ.apply)) e.canonicalTerms (e.rename σ.apply).canonicalTerms := by
  refine e.mirrors_distribute.bind fun expanded hexpanded => ?_
  have hexpanded := Expr.hereditary_lettered.distributeIn he hexpanded
  refine expanded.mirrors_removeDivision.bind fun undivided hundivided => ?_
  have hundivided := hexpanded.removeDivision hundivided
  refine (Expr.mirrors_decompose σ hundivided).bind fun ts hts => congrArg some ?_
  exact Terms.group_rename σ (hundivided.endsIn_decompose.of_ok hts)

end Decompose

end Fluxion
