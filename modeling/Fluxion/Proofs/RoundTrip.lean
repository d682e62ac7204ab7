import Fluxion.Expr.Print
import Fluxion.Proofs.Decimal.Reading
import Fluxion.Proofs.Parse

/-!
# Printing and parsing

The printer decides about parentheses from above, by the weakest binding that a place tolerates; the
parser decides about the structure of a tree from the left, by what waits for a right neighbour. That
the two agree is shown place by place. `Ends min s s' e` says in which form the parser has `e` after it
has read `e` at a place for bindings of at least `min`: as a primary, as a factor, as the end of a
product or as the end of a sum. What is written for such a place is read in that form, so the text of an
expressible tree is read as the same tree.
-/

namespace Fluxion

variable {α : Type}

namespace Parser

/-! ## Places -/

/-- The form in which the parser has `e` after it has read `e` at a place for bindings of at least `min`:
as what ends a sum, as what ends a product, as a factor, or as a primary. -/
def Ends (min : ℕ) (s s' : State α) (e : Expr α) : Prop :=
  if min ≤ 2 then ∃ level f p, s' = ⟨level, s.outer, .operator f p⟩ ∧ level.expression f = e
  else if min = 3 then
    ∃ product f p, s' = ⟨⟨s.level.sum, product⟩, s.outer, .operator f p⟩ ∧ attach product f = e
  else if min = 4 then ∃ p, s' = ⟨s.level, s.outer, .operator e p⟩
  else s' = ⟨s.level, s.outer, .operator e true⟩

/-- An operand comes next, and nothing waits that would take it in before a binding of `min` does. -/
structure Fits (min : ℕ) (s : State α) : Prop where
  operand : s.expecting = .operand
  product : min ≤ 3 → s.level.product = none
  sum : min ≤ 2 → s.level.sum = none

theorem Fits.mono {min min' : ℕ} (h : min ≤ min') {s : State α} (hs : Fits min s) : Fits min' s :=
  ⟨hs.operand, fun hle => hs.product (by omega), fun hle => hs.sum (by omega)⟩

theorem fits_start (min : ℕ) (outer : List (Level α)) :
    Fits min (⟨.start, outer, .operand⟩ : State α) :=
  ⟨rfl, fun _ => rfl, fun _ => rfl⟩

section Forms

variable {min : ℕ} {s s' : State α} {e : Expr α}

theorem ends_sum (hmin : min ≤ 2) :
    Ends min s s' e ↔
      ∃ level f p, s' = ⟨level, s.outer, .operator f p⟩ ∧ level.expression f = e := by
  rw [Ends, if_pos hmin]

theorem ends_product :
    Ends 3 s s' e ↔
      ∃ product f p, s' = ⟨⟨s.level.sum, product⟩, s.outer, .operator f p⟩ ∧
        attach product f = e := Iff.rfl

theorem ends_factor : Ends 4 s s' e ↔ ∃ p, s' = ⟨s.level, s.outer, .operator e p⟩ := Iff.rfl

theorem ends_primary (hmin : 5 ≤ min) :
    Ends min s s' e ↔ s' = ⟨s.level, s.outer, .operator e true⟩ := by
  rw [Ends, if_neg (by omega), if_neg (by omega), if_neg (by omega)]

theorem Ends.sum_of_product (hs : Fits 2 s) (hmin : min ≤ 2) (h : Ends 3 s s' e) :
    Ends min s s' e := by
  obtain ⟨product, f, p, rfl, he⟩ := ends_product.mp h
  refine (ends_sum hmin).mpr ⟨_, f, p, rfl, ?_⟩
  rw [Level.expression, Level.term, hs.sum (le_refl 2), he]
  rfl

theorem Ends.product_of_factor (hs : Fits 3 s) (h : Ends 4 s s' e) : Ends 3 s s' e := by
  obtain ⟨p, rfl⟩ := ends_factor.mp h
  refine ends_product.mpr ⟨none, e, p, ?_, rfl⟩
  have hlevel : s.level = ⟨s.level.sum, none⟩ := by
    rw [← hs.product (le_refl 3)]
  rw [← hlevel]

/-- A form for a tight binding is one for every looser binding, where nothing waits that would take the
expression in. -/
theorem Ends.loosen {min' : ℕ} (hle : min ≤ min') (hs : Fits min s) (h : Ends min' s s' e) :
    Ends min s s' e := by
  have hprimary : ∀ k, 5 ≤ k → Ends k s s' e → Ends 4 s s' e := fun k hk hp =>
    ends_factor.mpr ⟨true, (ends_primary hk).mp hp⟩
  by_cases h2 : min ≤ 2
  · have hs2 : Fits 2 s := hs.mono h2
    have hproduct : Ends 3 s s' e → Ends min s s' e := Ends.sum_of_product hs2 h2
    have hfactor : Ends 4 s s' e → Ends min s s' e := fun hf =>
      hproduct (Ends.product_of_factor (hs2.mono (by omega)) hf)
    rcases Nat.lt_or_ge min' 3 with h3 | h3
    · exact (ends_sum h2).mpr ((ends_sum (by omega)).mp h)
    · obtain rfl | rfl | h5 : min' = 3 ∨ min' = 4 ∨ 5 ≤ min' := by omega
      · exact hproduct h
      · exact hfactor h
      · exact hfactor (hprimary min' h5 h)
  · obtain rfl | rfl | h5 : min = 3 ∨ min = 4 ∨ 5 ≤ min := by omega
    · have hfactor : Ends 4 s s' e → Ends 3 s s' e := Ends.product_of_factor hs
      obtain rfl | rfl | h5 : min' = 3 ∨ min' = 4 ∨ 5 ≤ min' := by omega
      · exact h
      · exact hfactor h
      · exact hfactor (hprimary min' h5 h)
    · obtain rfl | h5 : min' = 4 ∨ 5 ≤ min' := by omega
      · exact h
      · exact hprimary min' h5 h
    · exact (ends_primary h5).mpr ((ends_primary (by omega)).mp h)

theorem Fits.ends_primary (hs : Fits min s) (e : Expr α) :
    Ends min s (s.withFactor e true) e :=
  Ends.loosen (le_max_left min 5) hs ((Parser.ends_primary (le_max_right min 5)).mpr rfl)

end Forms

section Reading

variable [Scalar α]

/-! ## Reading text in a state of the parser -/

/-- The text leads from one state to another, wherever it ends before a symbol or at the end. -/
def Reads (bs : List UInt8) (s s' : State α) : Prop :=
  ∀ rest offset failure, Delimits rest → ∃ offset',
    run failure s (tokensFrom (bs ++ rest) offset).list =
      run failure s' (tokensFrom rest offset').list

theorem run_shift {failure : ParseError} {s s' : State α} {t : Token} {ts : List Token}
    (h : s.move? t = some (.shift s')) : run failure s (t :: ts) = run failure s' ts := by
  rw [run, h]

/-- A symbol that can come next is read whatever follows it. -/
theorem run_symbol {b : UInt8} {kind : TokenKind} (hb : TokenKind.ofByte? b = some kind)
    {s s' : State α} (h : ∀ literal offset, s.move? ⟨kind, literal, offset⟩ = some (.shift s'))
    (rest : List UInt8) (offset : ℕ) (failure : ParseError) :
    ∃ offset', run failure s (tokensFrom (b :: rest) offset).list =
      run failure s' (tokensFrom rest offset').list := by
  rw [tokensFrom_token (scan_symbol hb rest offset)]
  exact ⟨_, run_shift (h _ _)⟩

/-- Text, a symbol, and more text. -/
theorem Reads.symbol {bs cs : List UInt8} {b : UInt8} {kind : TokenKind}
    (hb : TokenKind.ofByte? b = some kind) {s s₁ s₂ s₃ : State α} (h₁ : Reads bs s s₁)
    (h₂ : ∀ literal offset, s₁.move? ⟨kind, literal, offset⟩ = some (.shift s₂))
    (h₃ : Reads cs s₂ s₃) : Reads (bs ++ b :: cs) s s₃ := by
  intro rest offset failure hrest
  have hsym : IsSymbol b := by unfold IsSymbol; rw [hb]; rfl
  obtain ⟨o₁, e₁⟩ := h₁ (b :: (cs ++ rest)) offset failure (delimits_cons hsym)
  obtain ⟨o₂, e₂⟩ := run_symbol hb h₂ (cs ++ rest) o₁ failure
  obtain ⟨o₃, e₃⟩ := h₃ rest o₂ failure hrest
  rw [List.append_assoc, List.cons_append]
  exact ⟨o₃, e₁.trans (e₂.trans e₃)⟩

/-- A symbol in front of text. -/
theorem Reads.symbol_left {cs : List UInt8} {b : UInt8} {kind : TokenKind}
    (hb : TokenKind.ofByte? b = some kind) {s s₁ s₂ : State α}
    (h₁ : ∀ literal offset, s.move? ⟨kind, literal, offset⟩ = some (.shift s₁))
    (h₂ : Reads cs s₁ s₂) : Reads (b :: cs) s s₂ := by
  intro rest offset failure hrest
  obtain ⟨o₁, e₁⟩ := run_symbol hb h₁ (cs ++ rest) offset failure
  obtain ⟨o₂, e₂⟩ := h₂ rest o₁ failure hrest
  exact ⟨o₂, e₁.trans e₂⟩

/-- A symbol behind text. -/
theorem Reads.symbol_right {bs : List UInt8} {b : UInt8} {kind : TokenKind}
    (hb : TokenKind.ofByte? b = some kind) {s s₁ s₂ : State α} (h₁ : Reads bs s s₁)
    (h₂ : ∀ literal offset, s₁.move? ⟨kind, literal, offset⟩ = some (.shift s₂)) :
    Reads (bs ++ [b]) s s₂ := by
  have hnothing : Reads [] s₂ s₂ := fun _ offset _ _ => ⟨offset, rfl⟩
  exact Reads.symbol hb h₁ h₂ hnothing

theorem reads_identifier {x : String} (hx : isIdentifier x = true) {s s' : State α}
    (h : ∀ offset, s.move? ⟨.identifier, x, offset⟩ = some (.shift s')) :
    Reads (Utf8.bytes x) s s' := by
  intro rest offset failure hrest
  rw [tokensFrom_token (scan_identifier hx hrest.not_letter offset)]
  exact ⟨_, run_shift (h _)⟩

theorem reads_numeral {literal : String} (hl : Numeral.IsPlain literal) {v : α}
    (hv : Numeral.value? literal = some v) {s : State α} (next : α → State α)
    (h : ∀ offset, s.move? ⟨.number, literal, offset⟩ = some (.literal next)) :
    Reads (Utf8.bytes literal) s (next v) := by
  intro rest offset failure hrest
  rw [tokensFrom_token (scan_numeral hl hrest.not_numeral offset)]
  refine ⟨offset + literal.utf8ByteSize, ?_⟩
  have hne := hrest.tokensFrom_ne_nil (offset + literal.utf8ByteSize)
  show run failure s (⟨.number, literal, offset⟩ ::
    (tokensFrom rest (offset + literal.utf8ByteSize)).list) = _
  rw [run, h]
  dsimp only
  rw [if_neg (by simpa using hne), hv]

end Reading

end Parser

/-! ## The trees of the grammar -/

variable [DecimalScalar α]

open DecimalScalar

namespace Expr

/-- The trees of the grammar: names are identifiers, exponents are finite numbers, all other numbers are
finite and not negative, and there is no marker, no missing operand and no unknown operator. -/
def Expressible : Expr α → Prop
  | num v => Scalar.isFinite v = true ∧ Scalar.isNegative v = false
  | var x => isIdentifier x = true
  | bin .pow b (num v) => b.Expressible ∧ Scalar.isFinite v = true
  | bin op l r => op ∈ Operator.joins ∧ l.Expressible ∧ r.Expressible
  | pending _ => False
  | hole => False

theorem expressible_join {op : Operator} (hop : op ∈ Operator.joins) {l r : Expr α} :
    (bin op l r).Expressible ↔ l.Expressible ∧ r.Expressible := by
  have hne : op ≠ .pow := by
    rintro rfl
    exact absurd hop (by decide)
  rw [Expressible]
  · simp [hop]
  · intro v hv
    exact absurd hv hne

/-- An operator node of an expressible tree joins two operands or is a power. -/
theorem Expressible.cases_bin {op : Operator} {l r : Expr α} (h : (bin op l r).Expressible) :
    (op ∈ Operator.joins ∧ l.Expressible ∧ r.Expressible) ∨
      ∃ v, op = .pow ∧ r = num v ∧ l.Expressible ∧ Scalar.isFinite v = true := by
  by_cases hop : op ∈ Operator.joins
  · exact Or.inl ⟨hop, (expressible_join hop).mp h⟩
  · cases op with
    | pow =>
      cases r with
      | num v => exact Or.inr ⟨v, rfl, rfl, h⟩
      | _ => exact absurd h.1 hop
    | other c => exact absurd h.1 hop
    | _ => exact absurd (by decide) hop

theorem finite_of_isValue {v : α} (h : Numeral.IsValue v) :
    Scalar.isFinite v = true ∧ Scalar.isNegative v = false := by
  obtain ⟨literal, hv⟩ := h
  exact ofDecimal_finite _ _ v hv

/-- Whatever the grammar builds is expressible. -/
theorem Grammatical.expressible {e : Expr α} (h : e.Grammatical) : e.Expressible := by
  induction h with
  | number hv => exact finite_of_isValue hv
  | identifier hx => exact hx
  | join hop hl hr ihl ihr => exact (expressible_join hop).mpr ⟨ihl, ihr⟩
  | power hb hv ih => exact ⟨ih, (finite_of_isValue hv).1⟩
  | negativePower hb hv ih => exact ⟨ih, isFinite_neg _ (finite_of_isValue hv).1⟩

theorem same_bin {op op' : Operator} {l r l' r' : Expr α} :
    (bin op l r).same (bin op' l' r') = true ↔
      op = op' ∧ l.same l' = true ∧ r.same r' = true := by
  rw [same, Bool.and_eq_true, Bool.and_eq_true, beq_iff_eq, and_assoc]

/-- Trees that are the same are expressible together. -/
theorem Expressible.of_same {e e' : Expr α} (he : e.Expressible) (h : e.same e' = true) :
    e'.Expressible := by
  induction e generalizing e' with
  | num v =>
    cases e' with
    | num w =>
      have hvw : (v == w) = true := h
      obtain ⟨hfin, hneg⟩ := he
      rw [beq_isFinite v w hvw] at hfin
      rw [beq_isNegative v w hvw] at hneg
      exact ⟨hfin, hneg⟩
    | _ => cases h
  | var x =>
    cases e' with
    | var y =>
      have hxy : x = y := beq_iff_eq.mp h
      rw [← hxy]
      exact he
    | _ => cases h
  | bin op l r ihl ihr =>
    cases e' with
    | bin op' l' r' =>
      obtain ⟨rfl, hl, hr⟩ := same_bin.mp h
      rcases he.cases_bin with ⟨hop, hel, her⟩ | ⟨v, rfl, rfl, hel, hfin⟩
      · exact (expressible_join hop).mpr ⟨ihl hel hl, ihr her hr⟩
      · cases r' with
        | num w =>
          have hvw : (v == w) = true := hr
          rw [beq_isFinite v w hvw] at hfin
          exact ⟨ihl hel hl, hfin⟩
        | _ => cases hr
    | _ => cases h
  | pending t ih => exact he.elim
  | hole => exact he.elim

theorem Expressible.isWhole {e : Expr α} (h : e.Expressible) : e.isWhole = true := by
  induction e with
  | num v => rfl
  | var x => rfl
  | bin op l r ihl ihr =>
    rw [Expr.isWhole, Bool.and_eq_true]
    rcases h.cases_bin with ⟨-, hl, hr⟩ | ⟨v, -, rfl, hl, -⟩
    · exact ⟨ihl hl, ihr hr⟩
    · exact ⟨ihl hl, rfl⟩
  | pending t ih => exact h.elim
  | hole => exact h.elim

/-- Minus one is negative, so no product of an expressible tree is written as a negation. -/
theorem Expressible.isNegation_eq_false {op : Operator} {l r : Expr α}
    (h : (bin op l r).Expressible) : (bin op l r).isNegation = false := by
  cases op with
  | mul =>
    obtain ⟨hl, -⟩ := (expressible_join (by decide)).mp h
    cases l with
    | num v =>
      show (v == -1) = false
      rw [Bool.eq_false_iff]
      intro hv
      have hneg := beq_isNegative v (-1) hv
      rw [hl.2, isNegative_minus_one] at hneg
      cases hneg
    | _ => rfl
  | _ => rfl

theorem Expressible.print_eq {e : Expr α} (h : e.Expressible) : e.print = e.render 0 := by
  rw [print, if_pos h.isWhole]

theorem Expressible.render_bin {op : Operator} {l r : Expr α} (h : (bin op l r).Expressible)
    (min : ℕ) :
    (bin op l r).render min = enclose min op.precedence
      (l.render (leftLevel op) ++ op.symbol ++ r.render (op.precedence + 1)) := by
  rw [render, h.isNegation_eq_false]
  simp

end Expr

/-! ## Reading back what was written -/

namespace Parser

/-- At a place for bindings of at least `min`, the text is read as the given tree. -/
def ReadBack (min : ℕ) (text : String) (e : Expr α) : Prop :=
  ∀ s, Fits min s → ∃ s' m, Reads (Utf8.bytes text) s s' ∧ Ends min s s' m ∧ m.same e = true

theorem readBack_num {v : α} (hfin : Scalar.isFinite v = true) (hneg : Scalar.isNegative v = false)
    (min : ℕ) : ReadBack min (Scalar.text v) (.num v) := by
  intro s hs
  obtain ⟨w, hw, hwv⟩ := value_text v hfin hneg
  refine ⟨s.withFactor (.num w) true, .num w, ?_, hs.ends_primary _, hwv⟩
  refine reads_numeral (text_plain v hfin hneg) hw (fun u => s.withFactor (.num u) true)
    fun offset => ?_
  unfold State.move?
  rw [hs.operand]

theorem readBack_var {x : String} (hx : isIdentifier x = true) (min : ℕ) :
    ReadBack min x (.var x : Expr α) := by
  intro s hs
  refine ⟨s.withFactor (.var x) true, .var x, ?_, hs.ends_primary _, beq_self_eq_true x⟩
  refine reads_identifier hx fun offset => ?_
  unfold State.move?
  rw [hs.operand]

/-- Parentheses are put exactly where they are needed. -/
theorem ReadBack.enclose {prec : ℕ} {text : String} {e : Expr α} (h : ReadBack prec text e)
    (min : ℕ) : ReadBack min (Expr.enclose min prec text) e := by
  intro s hs
  unfold Expr.enclose
  split
  · have hopening : Utf8.bytes "(" = [0x28] := by decide +kernel
    have hclosing : Utf8.bytes ")" = [0x29] := by decide +kernel
    have hopen : TokenKind.ofByte? 0x28 = some .opening := rfl
    have hclose : TokenKind.ofByte? 0x29 = some .closing := rfl
    obtain ⟨s₁, m, hreads, hends, hsame⟩ := h _ (fits_start prec (s.level :: s.outer))
    -- inside the parentheses nothing waits, so the text has been read as a whole expression
    obtain ⟨level, f, p, rfl, rfl⟩ := (ends_sum (Nat.zero_le 2)).mp
      (hends.loosen (Nat.zero_le prec) (fits_start 0 _))
    refine ⟨s.withFactor (level.expression f) true, level.expression f, ?_, hs.ends_primary _, hsame⟩
    rw [Utf8.bytes_append, Utf8.bytes_append, hopening, hclosing, List.append_assoc]
    refine Reads.symbol_left hopen (fun literal offset => ?_)
      (Reads.symbol_right hclose hreads fun literal offset => ?_)
    · unfold State.move?
      rw [hs.operand]
    · cases p <;> rfl
  · rename_i hle
    obtain ⟨s', m, hreads, hends, hsame⟩ := h s (hs.mono (by omega))
    exact ⟨s', m, hreads, hends.loosen (by omega) hs, hsame⟩

/-! ## Operators -/

section Operators

theorem bytes_operator {op : Operator} {b : UInt8} (hop : Utf8.bytes op.symbol = [b])
    (lt rt : String) :
    Utf8.bytes (lt ++ op.symbol ++ rt) = Utf8.bytes lt ++ b :: Utf8.bytes rt := by
  rw [Utf8.bytes_append, Utf8.bytes_append, hop, List.append_assoc, List.singleton_append]

variable {op : Operator} {b : UInt8} {kind : TokenKind} {lt rt : String} {l r : Expr α}

/-- An operator of the outer layer takes a whole expression on its left and a product on its right. -/
theorem ReadBack.sum (hop : Utf8.bytes op.symbol = [b]) (hb : TokenKind.ofByte? b = some kind)
    (hmove : ∀ (level : Level α) outer f p literal offset,
      State.move? ⟨level, outer, .operator f p⟩ ⟨kind, literal, offset⟩ =
        some (.shift (State.withSum ⟨level, outer, .operator f p⟩ op f)))
    (hl : ReadBack 2 lt l) (hr : ReadBack 3 rt r) :
    ReadBack 2 (lt ++ op.symbol ++ rt) (.bin op l r) := by
  intro s hs
  obtain ⟨s₁, l', hreads₁, hends₁, hsame₁⟩ := hl s hs
  obtain ⟨level, f, p, rfl, rfl⟩ := (ends_sum (le_refl 2)).mp hends₁
  have hfits : Fits 3 (State.withSum ⟨level, s.outer, .operator f p⟩ op f) :=
    ⟨rfl, fun _ => rfl, fun h => absurd h (by omega)⟩
  obtain ⟨s₂, r', hreads₂, hends₂, hsame₂⟩ := hr _ hfits
  obtain ⟨product, g, q, rfl, rfl⟩ := ends_product.mp hends₂
  have hreads := Reads.symbol hb hreads₁ (hmove _ _ f p) hreads₂
  rw [← bytes_operator hop] at hreads
  exact ⟨_, _, hreads, (ends_sum (le_refl 2)).mpr ⟨_, g, q, rfl, rfl⟩,
    Expr.same_bin.mpr ⟨rfl, hsame₁, hsame₂⟩⟩

/-- An operator of the inner layer takes a product on its left and a factor on its right. -/
theorem ReadBack.product (hop : Utf8.bytes op.symbol = [b]) (hb : TokenKind.ofByte? b = some kind)
    (hmove : ∀ (level : Level α) outer f p literal offset,
      State.move? ⟨level, outer, .operator f p⟩ ⟨kind, literal, offset⟩ =
        some (.shift (State.withProduct ⟨level, outer, .operator f p⟩ op f)))
    (hl : ReadBack 3 lt l) (hr : ReadBack 4 rt r) :
    ReadBack 3 (lt ++ op.symbol ++ rt) (.bin op l r) := by
  intro s hs
  obtain ⟨s₁, l', hreads₁, hends₁, hsame₁⟩ := hl s hs
  obtain ⟨product, f, p, rfl, rfl⟩ := ends_product.mp hends₁
  have hfits : Fits 4 (State.withProduct ⟨⟨s.level.sum, product⟩, s.outer, .operator f p⟩ op f) :=
    ⟨rfl, fun h => absurd h (by omega), fun h => absurd h (by omega)⟩
  obtain ⟨s₂, r', hreads₂, hends₂, hsame₂⟩ := hr _ hfits
  obtain ⟨q, rfl⟩ := ends_factor.mp hends₂
  have hreads := Reads.symbol hb hreads₁ (hmove _ _ f p) hreads₂
  rw [← bytes_operator hop] at hreads
  exact ⟨_, _, hreads, ends_product.mpr ⟨_, r', q, rfl, rfl⟩,
    Expr.same_bin.mpr ⟨rfl, hsame₁, hsame₂⟩⟩

/-- The printer asks of the operands what the grammar asks. -/
theorem ReadBack.join (hop : op ∈ Operator.joins) (hl : ReadBack (Expr.leftLevel op) lt l)
    (hr : ReadBack (op.precedence + 1) rt r) :
    ReadBack op.precedence (lt ++ op.symbol ++ rt) (.bin op l r) := by
  have hplus : TokenKind.ofByte? 0x2B = some .plus := rfl
  have hminus : TokenKind.ofByte? 0x2D = some .minus := rfl
  have hstar : TokenKind.ofByte? 0x2A = some .star := rfl
  have hslash : TokenKind.ofByte? 0x2F = some .slash := rfl
  cases op with
  | add =>
    refine ReadBack.sum (by decide +kernel) hplus (fun level outer f p literal offset => ?_) hl hr
    cases p <;> rfl
  | sub =>
    refine ReadBack.sum (by decide +kernel) hminus (fun level outer f p literal offset => ?_) hl hr
    cases p <;> rfl
  | mul =>
    refine ReadBack.product (by decide +kernel) hstar (fun level outer f p literal offset => ?_) hl hr
    cases p <;> rfl
  | div =>
    refine ReadBack.product (by decide +kernel) hslash (fun level outer f p literal offset => ?_) hl hr
    cases p <;> rfl
  | pow => exact absurd hop (by decide)
  | other code => simp [Operator.joins] at hop

/-- An exponent is a numeral, behind a minus sign if it is negative. -/
theorem reads_exponent {v : α} (hv : Scalar.isFinite v = true) {s : State α} {base : Expr α}
    (hs : s.expecting = .exponent base) :
    ∃ w, Reads (Utf8.bytes (Scalar.text v)) s (s.withFactor (.pow base w) false) ∧
      (w == v) = true := by
  cases hneg : Scalar.isNegative v with
  | false =>
    obtain ⟨w, hw, hwv⟩ := value_text v hv hneg
    refine ⟨w, ?_, hwv⟩
    refine reads_numeral (text_plain v hv hneg) hw (fun u => s.withFactor (.pow base u) false)
      fun offset => ?_
    unfold State.move?
    rw [hs]
  | true =>
    have hsign : Utf8.bytes "-" = [0x2D] := by decide +kernel
    have hminus : TokenKind.ofByte? 0x2D = some .minus := rfl
    have hfin := isFinite_neg v hv
    have hpos := isNegative_neg v hneg
    obtain ⟨w, hw, hwv⟩ := value_text (-v) hfin hpos
    refine ⟨-w, ?_, neg_beq v w hwv⟩
    rw [text_neg v hv hneg, Utf8.bytes_append, hsign, List.singleton_append]
    have hmagnitude : Reads (Utf8.bytes (Scalar.text (-v)))
        { s with expecting := .magnitude base true } (s.withFactor (.pow base (-w)) false) :=
      reads_numeral (text_plain (-v) hfin hpos) hw (fun u => s.withFactor (.pow base (-u)) false)
        fun offset => rfl
    refine Reads.symbol_left hminus (fun literal offset => ?_) hmagnitude
    unfold State.move?
    rw [hs]

theorem ReadBack.power {v : α} (hv : Scalar.isFinite v = true) (hl : ReadBack 5 lt l) :
    ReadBack 4 (lt ++ Operator.symbol .pow ++ Scalar.text v) (.pow l v) := by
  intro s hs
  have hcaret : TokenKind.ofByte? 0x5E = some .caret := rfl
  have hsymbol : Utf8.bytes (Operator.symbol .pow) = [0x5E] := by decide +kernel
  obtain ⟨s₁, base, hreads₁, hends₁, hsame₁⟩ := hl s (hs.mono (by omega))
  rw [(ends_primary (le_refl 5)).mp hends₁] at hreads₁
  obtain ⟨w, hreads₂, hwv⟩ :=
    reads_exponent hv (s := ⟨s.level, s.outer, .exponent base⟩) rfl
  have hreads := Reads.symbol hcaret hreads₁ (fun literal offset => rfl) hreads₂
  rw [← bytes_operator hsymbol] at hreads
  exact ⟨_, .pow base w, hreads, ends_factor.mpr ⟨false, rfl⟩,
    Expr.same_bin.mpr ⟨rfl, hsame₁, hwv⟩⟩

end Operators

/-- What is written for a place is read back at the place. -/
theorem readBack_render {e : Expr α} (h : e.Expressible) (min : ℕ) :
    ReadBack min (e.render min) e := by
  induction e generalizing min with
  | num v => exact readBack_num h.1 h.2 min
  | var x => exact readBack_var h min
  | bin op l r ihl ihr =>
    rw [h.render_bin]
    refine ReadBack.enclose ?_ min
    rcases h.cases_bin with ⟨hop, hl, hr⟩ | ⟨v, rfl, rfl, hl, hv⟩
    · exact ReadBack.join hop (ihl hl _) (ihr hr _)
    · exact ReadBack.power hv (ihl hl _)
  | pending t ih => exact h.elim
  | hole => exact h.elim

/-- A text that leads from the start to the end of an expression is that expression. -/
theorem Reads.parse_eq {bs : List UInt8} {level : Level α} {f : Expr α} {p : Bool}
    (h : Reads bs .start ⟨level, [], .operator f p⟩) : Expr.parse bs = .ok (level.expression f) := by
  have hscan : ∀ offset, scan [] offset = .finish offset := fun _ => rfl
  unfold Expr.parse tokens
  obtain ⟨offset, hrun⟩ := h [] 0 (.lexical ((tokensFrom bs 0).failure.getD .exhausted)) delimits_nil
  rw [List.append_nil, tokensFrom_finish (hscan offset)] at hrun
  refine hrun.trans ?_
  rw [run]
  cases p <;> rfl

end Parser

namespace Expr

/-- The text of an expressible tree is read as the same tree. -/
theorem Expressible.parse_print {e : Expr α} (h : e.Expressible) :
    ∃ m, Expr.parse (Utf8.bytes e.print) = .ok m ∧ m.same e = true := by
  obtain ⟨s, m, hreads, hends, hsame⟩ := Parser.readBack_render h 0 .start (Parser.fits_start 0 [])
  obtain ⟨level, f, p, rfl, rfl⟩ := (Parser.ends_sum (Nat.zero_le 2)).mp hends
  rw [h.print_eq]
  exact ⟨_, hreads.parse_eq, hsame⟩

theorem expressible_of_parse {text : List UInt8} {e : Expr α} (h : Expr.parse text = .ok e) :
    e.Expressible := (grammatical_parse h).expressible

/-- Parsing undoes printing exactly on the expressible trees. Whatever parsing returns is one of them,
so it is read again from its own text. -/
theorem parse_print_iff (e : Expr α) :
    ((∃ m, Expr.parse (Utf8.bytes e.print) = .ok m ∧ m.same e = true) ↔ e.Expressible) ∧
      ∀ text, Expr.parse text = .ok e →
        e.Expressible ∧ ∃ m, Expr.parse (Utf8.bytes e.print) = .ok m ∧ m.same e = true := by
  refine ⟨⟨?_, Expressible.parse_print⟩, ?_⟩
  · rintro ⟨m, hparse, hsame⟩
    exact (expressible_of_parse hparse).of_same hsame
  · intro text htext
    have he := expressible_of_parse htext
    exact ⟨he, he.parse_print⟩

/-- A fraction, a zero and an exponent that is a zero behind a minus sign are read again; a negative number by
itself is not. -/
theorem parse_print_iff_difference :
    let e : Expr Float :=
      sub (var "a") (div (sub (var "b") (num 2.5)) (pow (mul (num 0) (var "y")) (-0)))
    (Expr.parse (Utf8.bytes "a-(b-02.50)/(0.0*y)^-0") = .ok e ∧ e.print = "a-(b-2.5)/(0*y)^0" ∧
      e.Expressible ∧ ∃ m, Expr.parse (Utf8.bytes e.print) = .ok m ∧ m.same e = true) ∧
    ¬∃ m : Expr Float, Expr.parse (Utf8.bytes (num (-1) : Expr Float).print) = .ok m ∧
      m.same (num (-1)) = true := by
  intro e
  refine ⟨?_, ?_⟩
  · have hparse : Expr.parse (Utf8.bytes "a-(b-02.50)/(0.0*y)^-0") = .ok e := by decide +kernel
    exact ⟨hparse, by decide +kernel, (parse_print_iff _).2 _ hparse⟩
  · rw [(parse_print_iff _).1]
    rintro ⟨-, hneg⟩
    exact absurd hneg (by decide +kernel)

end Expr

end Fluxion
