import Fluxion.Expr.Division
import Fluxion.Proofs.Meaning

/-!
# Division as a negative power, and back

In a field, writing a quotient as a product with an inverse keeps the value, and so does collecting the
factors with negative exponents below a line: flattening a product loses no factor, and each factor
ends up above or below the line according to the sign of its exponent.
-/

namespace Fluxion

open ExactScalar

variable {α R : Type} {K : Type*}

/-! ## Readings in a field -/

/-- What the parts of an expression stand for in a field, the four operations aside. A literal exponent
need not be an element of the field: it acts on the value of the base. -/
structure FieldReading (α : Type) (K : Type*) where
  /-- The value of a number. -/
  number : α → K
  /-- The value of a variable. -/
  named : String → K
  /-- A value raised to a literal exponent. -/
  literalPower : K → α → K
  /-- A value raised to an exponent that is not a literal. -/
  power : K → K → K
  /-- An operator code that stands for no operator. -/
  unknown : Int → K → K → K
  /-- The value of a marker on a target. -/
  marked : Expr α → K

/-- The value of an expression in a field. -/
def Expr.valueIn [Field K] (F : FieldReading α K) : Expr α → K
  | num v => F.number v
  | var x => F.named x
  | bin .add l r => l.valueIn F + r.valueIn F
  | bin .sub l r => l.valueIn F - r.valueIn F
  | bin .mul l r => l.valueIn F * r.valueIn F
  | bin .div l r => l.valueIn F / r.valueIn F
  | bin .pow l (num e) => F.literalPower (l.valueIn F) e
  | bin .pow l r => F.power (l.valueIn F) (r.valueIn F)
  | bin (.other c) l r => F.unknown c (l.valueIn F) (r.valueIn F)
  | pending t => F.marked t
  | hole => 0

attribute [simp] Expr.valueIn

/-- The number one is the one of the field, and a negative literal exponent stands for an inverse. -/
structure FieldReading.Inverts [Scalar α] [Field K] (F : FieldReading α K) : Prop where
  number_one : F.number 1 = 1
  power_minus_one (b : K) : F.literalPower b (-1) = b⁻¹
  power_of_beq (b : K) {e : α} : (e == -1) = true → F.literalPower b e = b⁻¹
  power_of_negative (b : K) {e : α} :
    Scalar.isNegative e = true → F.literalPower b e = (F.literalPower b (-e))⁻¹

/-- Quotients are quotients of the field, and a negative exponent stands for an inverse. -/
structure Interpretation.Inverts [Scalar α] [Field R] (I : Interpretation α R) : Prop where
  number_one : I.number 1 = 1
  divide_eq (a b : R) : I.divide a b = a / b
  power_minus_one (b : R) : I.power b (I.number (-1)) = b⁻¹
  power_of_beq (b : R) {e : α} : (e == -1) = true → I.power b (I.number e) = b⁻¹
  power_of_negative (b : R) {e : α} :
    Scalar.isNegative e = true → I.power b (I.number e) = (I.power b (I.number (-e)))⁻¹

/-- The reading in which a literal exponent acts through its own value. -/
def Interpretation.inField (I : Interpretation α R) : FieldReading α R where
  number := I.number
  named := I.named
  literalPower b e := I.power b (I.number e)
  power := I.power
  unknown := I.unknown
  marked := I.marked

theorem Interpretation.Inverts.inField [Scalar α] [Field R] {I : Interpretation α R}
    (hI : I.Inverts) : I.inField.Inverts where
  number_one := hI.number_one
  power_minus_one := hI.power_minus_one
  power_of_beq b _ he := hI.power_of_beq b he
  power_of_negative b _ he := hI.power_of_negative b he

namespace Expr

theorem denote_foldl_mul [CommRing R] (I : Interpretation α R) (es : List (Expr α)) (e : Expr α) :
    (es.foldl mul e).denote I = e.denote I * (es.map (denote I)).prod := by
  induction es generalizing e with
  | nil => simp
  | cons a es ih => simp [ih, mul_assoc]

section Literal

variable [Field K] (F : FieldReading α K)

theorem valueIn_foldl_mul (es : List (Expr α)) (e : Expr α) :
    (es.foldl mul e).valueIn F = e.valueIn F * (es.map (valueIn F)).prod := by
  induction es generalizing e with
  | nil => simp
  | cons a es ih => simp [ih, mul_assoc]

theorem valueIn_pow_of_ne {l r : Expr α} (h : ∀ e, r ≠ num e) :
    (bin .pow l r).valueIn F = F.power (l.valueIn F) (r.valueIn F) := by
  cases r with
  | num e => exact absurd rfl (h e)
  | _ => rfl

/-- The value of a power depends on the values of its operands and on its exponent, if that is a literal. -/
theorem valueIn_pow_congr {l r l' r' : Expr α} (hl : l'.valueIn F = l.valueIn F)
    (hr : r'.valueIn F = r.valueIn F) (hliteral : ∀ e, r' = num e ↔ r = num e) :
    (bin .pow l' r').valueIn F = (bin .pow l r).valueIn F := by
  by_cases hnum : ∃ e, r = num e
  · obtain ⟨e, rfl⟩ := hnum
    rw [(hliteral e).mpr rfl, valueIn, valueIn, hl]
  · rw [not_exists] at hnum
    rw [valueIn_pow_of_ne F hnum, valueIn_pow_of_ne F fun e he => hnum e ((hliteral e).mp he), hl, hr]

end Literal

variable [Scalar α]

theorem removeDivision_bin {op : Operator} {l r e : Expr α}
    (h : (bin op l r).removeDivision = .ok e) :
    ∃ l' r', l.removeDivision = .ok l' ∧ r.removeDivision = .ok r' ∧
      e = if op = .div then mul l' (pow r' (-1)) else bin op l' r' := by
  unfold removeDivision at h
  obtain ⟨l', hl, h⟩ := bind_eq_ok.mp h
  obtain ⟨r', hr, h⟩ := bind_eq_ok.mp h
  exact ⟨l', r', hl, hr, (Except.ok.inj h).symm⟩

/-- Removing division keeps literals and brings in no new one. -/
theorem removeDivision_eq_num_iff {e e' : Expr α} (h : e.removeDivision = .ok e') (v : α) :
    e' = num v ↔ e = num v := by
  cases e with
  | num w => cases h; rfl
  | var x => cases h; rfl
  | bin op l r =>
    obtain ⟨l', r', -, -, rfl⟩ := removeDivision_bin h
    split_ifs
    · exact iff_of_false nofun nofun
    · exact iff_of_false nofun nofun
  | pending t => cases h
  | hole => cases h

/-- Removing division brings in no new variable. -/
theorem Named.removeDivision {A : String → Prop} {e e' : Expr α} (he : e.Named A)
    (h : e.removeDivision = .ok e') : e'.Named A := by
  induction e generalizing e' with
  | num v => cases h; exact he
  | var x => cases h; exact he
  | bin op l r ihl ihr =>
    obtain ⟨l', r', hl, hr, rfl⟩ := removeDivision_bin h
    obtain ⟨hel, her⟩ := named_bin.mp he
    have hl' := ihl hel hl
    have hr' := ihr her hr
    split_ifs
    · exact named_bin.mpr ⟨hl', named_bin.mpr ⟨hr', fun x hx => absurd hx List.not_mem_nil⟩⟩
    · exact named_bin.mpr ⟨hl', hr'⟩
  | pending t ih => cases h
  | hole => cases h

theorem Lettered.removeDivision {e e' : Expr α} (he : e.Lettered) (h : e.removeDivision = .ok e') :
    e'.Lettered := Named.removeDivision he h

/-! ## What restoring quotients keeps -/

/-- A condition that operands inherit, that sums, differences, products and quotients of such trees have
again, and that a power keeps when its base is replaced or its exponent changes sign. -/
structure Fractional (P : Expr α → Prop) : Prop where
  operands {op : Operator} {l r : Expr α} : P (bin op l r) → P l ∧ P r
  add {l r : Expr α} : P l → P r → P (add l r)
  sub {l r : Expr α} : P l → P r → P (sub l r)
  mul {l r : Expr α} : P l → P r → P (mul l r)
  div {l r : Expr α} : P l → P r → P (div l r)
  power {b b' : Expr α} {e : α} : P (pow b e) → P b' → P (pow b' e) ∧ P (pow b' (-e))
  one : P (num 1)

/-- Every factor of the fraction satisfies `P`. -/
def Fraction.Every (P : Expr α → Prop) (f : Fraction α) : Prop :=
  (∀ e ∈ f.above, P e) ∧ ∀ e ∈ f.below, P e

namespace Fractional

variable {P : Expr α → Prop} (hP : Fractional P)

include hP

theorem product {es : List (Expr α)} (h : ∀ e ∈ es, P e) : P (Expr.product es) := by
  cases es with
  | nil => exact hP.one
  | cons e es =>
    obtain ⟨he, hes⟩ := List.forall_mem_cons.mp h
    exact List.foldlRecOn es Expr.mul he fun b hb a ha => hP.mul hb (hes a ha)

theorem toExpr {f : Fraction α} (hf : f.Every P) : P f.toExpr := by
  rw [Fraction.toExpr]
  split
  · exact hP.product hf.1
  · exact hP.div (hP.product hf.1) (hP.product hf.2)

theorem every_ofPower {b b' : Expr α} {e : α} (h : P (pow b e)) (hb' : P b') :
    (Fraction.ofPower b' e).Every P := by
  obtain ⟨hpos, hneg⟩ := hP.power h hb'
  rw [Fraction.ofPower]
  split_ifs
  · exact ⟨by simp, by simpa using hb'⟩
  · exact ⟨by simp, by simpa using hneg⟩
  · exact ⟨by simpa using hpos, by simp⟩

theorem restoreDivision_and_fraction {e : Expr α} (h : P e) :
    P e.restoreDivision ∧ e.fraction.Every P := by
  have hsingle {e : Expr α} (he : P e) : Fraction.Every P ⟨[e], []⟩ :=
    ⟨by simpa using he, by simp⟩
  induction e with
  | num v => exact ⟨h, hsingle h⟩
  | var x => exact ⟨h, hsingle h⟩
  | bin op l r ihl ihr =>
    have hl := ihl (hP.operands h).1
    have hr := ihr (hP.operands h).2
    cases op with
    | add => exact ⟨hP.add hl.1 hr.1, hsingle h⟩
    | sub => exact ⟨hP.sub hl.1 hr.1, hsingle h⟩
    | mul =>
      have hmul : (l.fraction.append r.fraction).Every P :=
        ⟨List.forall_mem_append.mpr ⟨hl.2.1, hr.2.1⟩, List.forall_mem_append.mpr ⟨hl.2.2, hr.2.2⟩⟩
      exact ⟨hP.toExpr hmul, hmul⟩
    | div => exact ⟨h, hsingle h⟩
    | pow =>
      cases r with
      | num e =>
        have hpower := hP.every_ofPower h hl.1
        exact ⟨hP.toExpr hpower, hpower⟩
      | _ => exact ⟨h, hsingle h⟩
    | other c => exact ⟨h, hsingle h⟩
  | pending t ih => exact ⟨h, hsingle h⟩
  | hole => exact ⟨h, hsingle h⟩

theorem restoreDivision {e : Expr α} (h : P e) : P e.restoreDivision :=
  (hP.restoreDivision_and_fraction h).1

end Fractional

theorem fractional_named (A : String → Prop) : Fractional (Named A : Expr α → Prop) where
  operands h := named_bin.mp h
  add hl hr := named_bin.mpr ⟨hl, hr⟩
  sub hl hr := named_bin.mpr ⟨hl, hr⟩
  mul hl hr := named_bin.mpr ⟨hl, hr⟩
  div hl hr := named_bin.mpr ⟨hl, hr⟩
  power _ hb := ⟨named_bin.mpr ⟨hb, by simp [Named, names]⟩, named_bin.mpr ⟨hb, by simp [Named, names]⟩⟩
  one := by simp [Named, names]

/-! ## Values in a field -/

section Field

variable [Field K] {F : FieldReading α K} (hF : F.Inverts)

include hF

theorem valueIn_removeDivision {e e' : Expr α} (h : e.removeDivision = .ok e') :
    e'.valueIn F = e.valueIn F := by
  induction e generalizing e' with
  | num v => cases h; rfl
  | var x => cases h; rfl
  | bin op l r ihl ihr =>
    obtain ⟨l', r', hl, hr, rfl⟩ := removeDivision_bin h
    have hvl := ihl hl
    have hvr := ihr hr
    cases op with
    | div => simp [hvl, hvr, hF.power_minus_one, div_eq_mul_inv]
    | pow => exact valueIn_pow_congr F hvl hvr (removeDivision_eq_num_iff hr)
    | _ => simp [hvl, hvr]
  | pending t ih => cases h
  | hole => cases h

theorem valueIn_product (es : List (Expr α)) :
    (product es).valueIn F = (es.map (valueIn F)).prod := by
  cases es with
  | nil => simp [product, hF.number_one]
  | cons e es => simp [product, valueIn_foldl_mul]

theorem valueIn_toExpr (f : Fraction α) :
    f.toExpr.valueIn F = (f.above.map (valueIn F)).prod / (f.below.map (valueIn F)).prod := by
  rw [Fraction.toExpr]
  split
  · rename_i h
    simp [valueIn_product hF, h]
  · simp [valueIn_product hF]

/-- The product of two fractions multiplies their values. -/
theorem valueIn_append (f g : Fraction α) :
    (f.append g).toExpr.valueIn F = f.toExpr.valueIn F * g.toExpr.valueIn F := by
  simp only [valueIn_toExpr hF, Fraction.append, List.map_append, List.prod_append]
  rw [div_mul_div_comm]

theorem valueIn_ofPower (b : Expr α) (e : α) :
    (Fraction.ofPower b e).toExpr.valueIn F = (pow b e).valueIn F := by
  rw [Fraction.ofPower]
  split_ifs with h1 h2
  · simp [valueIn_toExpr hF, hF.power_of_beq _ h1]
  · simp [valueIn_toExpr hF, hF.power_of_negative _ h2]
  · simp [valueIn_toExpr hF]

/-- Restoring quotients keeps the value, and the fraction of a tree has its value too. -/
theorem valueIn_restoreDivision_and_fraction (e : Expr α) :
    e.restoreDivision.valueIn F = e.valueIn F ∧ e.fraction.toExpr.valueIn F = e.valueIn F := by
  have hsingle (e : Expr α) : (⟨[e], []⟩ : Fraction α).toExpr.valueIn F = e.valueIn F := by
    simp [valueIn_toExpr hF]
  induction e with
  | num v => exact ⟨rfl, hsingle _⟩
  | var x => exact ⟨rfl, hsingle _⟩
  | bin op l r ihl ihr =>
    cases op with
    | add => exact ⟨by simp [restoreDivision, ihl.1, ihr.1], hsingle _⟩
    | sub => exact ⟨by simp [restoreDivision, ihl.1, ihr.1], hsingle _⟩
    | mul => simp [restoreDivision, fraction, valueIn_append hF, ihl.2, ihr.2]
    | div => exact ⟨rfl, hsingle _⟩
    | pow =>
      cases r with
      | num e => simp [restoreDivision, fraction, valueIn_ofPower hF, ihl.1]
      | var x => exact ⟨rfl, hsingle _⟩
      | bin op a b => exact ⟨rfl, hsingle _⟩
      | pending t => exact ⟨rfl, hsingle _⟩
      | hole => exact ⟨rfl, hsingle _⟩
    | other c => exact ⟨rfl, hsingle _⟩
  | pending t ih => exact ⟨rfl, hsingle _⟩
  | hole => exact ⟨rfl, hsingle _⟩

theorem valueIn_restoreDivision (e : Expr α) : e.restoreDivision.valueIn F = e.valueIn F :=
  (valueIn_restoreDivision_and_fraction hF e).1

end Field

section Interpretation

variable [Field R] {I : Interpretation α R} (hI : I.Inverts)

include hI

theorem denote_eq_valueIn (e : Expr α) : e.denote I = e.valueIn I.inField := by
  induction e with
  | bin op l r ihl ihr =>
    cases op with
    | div => simp [ihl, ihr, hI.divide_eq]
    | pow =>
      cases r with
      | num e => simp [ihl, Interpretation.inField]
      | _ => simp [ihl, ihr, Interpretation.inField]
    | _ => simp [ihl, ihr, Interpretation.inField]
  | _ => rfl

theorem denote_removeDivision {e e' : Expr α} (h : e.removeDivision = .ok e') :
    e'.denote I = e.denote I := by
  rw [denote_eq_valueIn hI, denote_eq_valueIn hI, valueIn_removeDivision hI.inField h]

theorem denote_product (es : List (Expr α)) :
    (product es).denote I = (es.map (denote I)).prod := by
  rw [denote_eq_valueIn hI, valueIn_product hI.inField,
    List.map_congr_left fun e _ => denote_eq_valueIn hI e]

theorem denote_restoreDivision (e : Expr α) : e.restoreDivision.denote I = e.denote I := by
  rw [denote_eq_valueIn hI, denote_eq_valueIn hI, valueIn_restoreDivision hI.inField]

end Interpretation

end Expr

/-! ## Exact scalars -/

variable [ExactScalar α]

theorem inverts_atPoint (ρ : String → ℚ) : (atPoint ρ : Interpretation α ℚ).Inverts where
  number_one := value_one
  divide_eq _ _ := rfl
  power_minus_one b := by
    show b ^ integer (-1 : α) = b⁻¹
    rw [integer_of_value_eq (k := -1) (by simp), zpow_neg_one]
  power_of_beq b e he := by
    rw [beq_neg_one_iff] at he
    show b ^ integer e = b⁻¹
    rw [integer_of_value_eq (k := -1) (by rw [he]; rfl), zpow_neg_one]
  power_of_negative b e _ := by
    show b ^ (value e).num = (b ^ (value (-e)).num)⁻¹
    rw [value_neg, Rat.num_neg_eq_neg_num, zpow_neg, inv_inv]

namespace Expr

variable {ρ : String → ℚ}

theorem valueAt_removeDivision {e e' : Expr α} (h : e.removeDivision = .ok e') :
    e'.valueAt ρ = e.valueAt ρ :=
  denote_removeDivision (inverts_atPoint ρ) h

theorem valueAt_restoreDivision (e : Expr α) : e.restoreDivision.valueAt ρ = e.valueAt ρ :=
  denote_restoreDivision (inverts_atPoint ρ) e

/-- Removing division fails on markers, so there are none in the result. -/
theorem regular_removeDivision {e e' : Expr α} (hint : e.IntegerPowers) (hpole : e.PoleFree ρ)
    (h : e.removeDivision = .ok e') : e'.Regular ρ := by
  induction e generalizing e' with
  | num v => cases h; exact regular_num v
  | var x => cases h; exact regular_var x
  | bin op l r ihl ihr =>
    obtain ⟨l', r', hl, hr, rfl⟩ := removeDivision_bin h
    obtain ⟨hexp, hil, hir⟩ := hint
    obtain ⟨⟨hdiv, hpow⟩, hpl, hpr⟩ := hpole
    have hrl := ihl hil hpl hl
    have hrr := ihr hir hpr hr
    split_ifs with hop
    · refine hrl.mul (Regular.pow hrr isInteger_one.neg fun _ => ?_)
      rw [valueAt_removeDivision hr]
      exact hdiv hop
    · refine regular_bin_iff.mpr ⟨⟨fun ho => ?_, fun ho => absurd ho hop, fun ho => ?_⟩, hrl, hrr⟩
      · obtain ⟨k, rfl, hk⟩ := hexp ho
        cases hr
        exact ⟨k, rfl, hk⟩
      · rw [valueAt_removeDivision hl, valueAt_removeDivision hr]
        exact hpow ho
  | pending t ih => cases h
  | hole => cases h

theorem Regular.foldl_mul {es : List (Expr α)} {e : Expr α} (he : e.Regular ρ)
    (hes : ∀ a ∈ es, a.Regular ρ) : (es.foldl Expr.mul e).Regular ρ := by
  induction es generalizing e with
  | nil => exact he
  | cons a es ih =>
    exact ih (he.mul (hes a (List.mem_cons_self ..))) fun b hb => hes b (List.mem_cons_of_mem _ hb)

theorem Regular.product {es : List (Expr α)} (hes : ∀ a ∈ es, a.Regular ρ) :
    (Expr.product es).Regular ρ := by
  cases es with
  | nil => exact regular_num 1
  | cons e es =>
    exact Regular.foldl_mul (hes e (List.mem_cons_self ..)) fun b hb =>
      hes b (List.mem_cons_of_mem _ hb)

/-- Nothing in the fraction is undefined, and no factor below the line is zero. -/
def Fraction.Regular (ρ : String → ℚ) (f : Fraction α) : Prop :=
  (∀ a ∈ f.above, a.Regular ρ) ∧ ∀ b ∈ f.below, b.Regular ρ ∧ b.valueAt ρ ≠ 0

theorem Fraction.Regular.append {f g : Fraction α} (hf : f.Regular ρ) (hg : g.Regular ρ) :
    (f.append g).Regular ρ := by
  refine ⟨fun a ha => ?_, fun b hb => ?_⟩
  · rcases List.mem_append.mp ha with h | h
    · exact hf.1 a h
    · exact hg.1 a h
  · rcases List.mem_append.mp hb with h | h
    · exact hf.2 b h
    · exact hg.2 b h

theorem Fraction.Regular.toExpr {f : Fraction α} (hf : f.Regular ρ) : f.toExpr.Regular ρ := by
  have habove := Regular.product hf.1
  rw [Fraction.toExpr]
  split
  · exact habove
  · refine habove.div (Regular.product fun b hb => (hf.2 b hb).1) ?_
    rw [valueAt, denote_product (inverts_atPoint ρ)]
    refine List.prod_ne_zero fun hz => ?_
    obtain ⟨b, hb, hb0⟩ := List.mem_map.mp hz
    exact (hf.2 b hb).2 hb0

theorem Fraction.regular_single {e : Expr α} (he : e.Regular ρ) :
    (⟨[e], []⟩ : Fraction α).Regular ρ :=
  ⟨fun a ha => by rw [List.mem_singleton.mp ha]; exact he, fun _ hb => absurd hb List.not_mem_nil⟩

theorem Fraction.regular_ofPower {b : Expr α} {e : α} (hb : b.Regular ρ) (he : IsInteger e)
    (hpole : value e < 0 → b.valueAt ρ ≠ 0) : (Fraction.ofPower b e).Regular ρ := by
  rw [Fraction.ofPower]
  split_ifs with h1 h2
  · have hneg : value e < 0 := by
      rw [(beq_neg_one_iff e).mp h1]
      norm_num
    refine ⟨fun _ ha => absurd ha List.not_mem_nil, fun c hc => ?_⟩
    rw [List.mem_singleton.mp hc]
    exact ⟨hb, hpole hneg⟩
  · have hneg : value e < 0 := (isNegative_iff e).mp h2
    refine ⟨fun _ ha => absurd ha List.not_mem_nil, fun c hc => ?_⟩
    rw [List.mem_singleton.mp hc]
    exact ⟨hb.pow he.neg fun _ => hpole hneg, by
      rw [valueAt_pow]
      exact zpow_ne_zero _ (hpole hneg)⟩
  · exact Fraction.regular_single (hb.pow he hpole)

theorem Regular.restoreDivision_and_fraction {e : Expr α} (he : e.Regular ρ) :
    e.restoreDivision.Regular ρ ∧ e.fraction.Regular ρ := by
  induction e with
  | num v => exact ⟨he, Fraction.regular_single he⟩
  | var x => exact ⟨he, Fraction.regular_single he⟩
  | bin op l r ihl ihr =>
    obtain ⟨⟨hexp, hdiv, hpow⟩, hel, her⟩ := regular_bin_iff.mp he
    have hl := ihl hel
    have hr := ihr her
    cases op with
    | add => exact ⟨hl.1.add hr.1, Fraction.regular_single he⟩
    | sub => exact ⟨hl.1.sub hr.1, Fraction.regular_single he⟩
    | mul => exact ⟨(hl.2.append hr.2).toExpr, hl.2.append hr.2⟩
    | div => exact ⟨he, Fraction.regular_single he⟩
    | pow =>
      obtain ⟨k, rfl, hk⟩ := hexp rfl
      have hof : (Fraction.ofPower l.restoreDivision k).Regular ρ :=
        Fraction.regular_ofPower hl.1 hk (by
          rw [valueAt_restoreDivision]
          exact hpow rfl)
      exact ⟨hof.toExpr, hof⟩
    | other c => exact ⟨he, Fraction.regular_single he⟩
  | pending t ih => exact he.1.elim
  | hole => exact ⟨he, Fraction.regular_single he⟩

theorem Regular.restoreDivision {e : Expr α} (he : e.Regular ρ) : e.restoreDivision.Regular ρ :=
  he.restoreDivision_and_fraction.1

end Expr

end Fluxion
