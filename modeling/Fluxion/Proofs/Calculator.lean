import Fluxion.Expr.Print
import Fluxion.Proofs.Decimal.Signed
import Fluxion.Proofs.Meaning
import Fluxion.Proofs.Overflow
import Fluxion.Proofs.RoundTrip

/-!
# Texts determine values

A calculator reads the text of an expression token by token and computes its value. A minus sign where a term
begins is the sign of the whole term, and one behind a multiplication or division sign is that of the number
that follows. What the printer writes is read so that the value of the tree comes out, as long as no even
power of a negative number stands where a term begins: its sign would be read as the sign of the power. Two
trees with the same text then have the same value, whatever their signs are.
-/

namespace Fluxion

namespace Calculator

/-! ## The calculator -/

/-- What has been read inside one pair of parentheses. -/
structure Level where
  /-- What the next term makes of the terms before it. -/
  sum : ℚ → ℚ
  /-- What the next factor makes of the factors before it and of the signs in front of them. -/
  product : ℚ → ℚ

/-- Nothing has been read. -/
def Level.start : Level := ⟨id, id⟩

/-- The value when `factor` is the last factor. -/
def Level.total (level : Level) (factor : ℚ) : ℚ := level.sum (level.product factor)

/-- What comes next. -/
inductive Expecting where
  /-- An operand; `leading` where a term begins. -/
  | operand (leading : Bool)
  /-- The number behind its minus sign. -/
  | magnitude
  /-- The exponent of a power. -/
  | exponent (base : ℚ)
  /-- The exponent behind its minus sign. -/
  | negatedExponent (base : ℚ)
  /-- An operator or the end of the expression. -/
  | operator (value : ℚ)

/-- How far the calculator has come. -/
structure State where
  level : Level
  /-- The levels around the open parentheses, the innermost one first. -/
  outer : List Level
  expecting : Expecting

/-- Before the first token. -/
def State.start : State := ⟨.start, [], .operand true⟩

/-- An operand has been read. -/
def State.withValue (s : State) (value : ℚ) : State := { s with expecting := .operator value }

section Reading

variable (numeral named : String → ℚ)

/-- One more token. Tokens that cannot come next are left out. -/
def State.step (s : State) (t : Token) : State :=
  match s.expecting, t.kind with
  | .operand true, .minus => { s with level.product := fun x => s.level.product (-x) }
  | .operand false, .minus => { s with expecting := .magnitude }
  | .operand _, .number => s.withValue (numeral t.literal)
  | .operand _, .identifier => s.withValue (named t.literal)
  | .operand _, .opening => ⟨.start, s.level :: s.outer, .operand true⟩
  | .magnitude, .number => s.withValue (-numeral t.literal)
  | .exponent base, .number => s.withValue (base ^ (numeral t.literal).num)
  | .exponent base, .minus => { s with expecting := .negatedExponent base }
  | .negatedExponent base, .number => s.withValue (base ^ (-numeral t.literal).num)
  | .operator f, .caret => { s with expecting := .exponent f }
  | .operator f, .star => ⟨⟨s.level.sum, fun x => s.level.product f * x⟩, s.outer, .operand false⟩
  | .operator f, .slash => ⟨⟨s.level.sum, fun x => s.level.product f / x⟩, s.outer, .operand false⟩
  | .operator f, .plus => ⟨⟨fun x => s.level.total f + x, id⟩, s.outer, .operand true⟩
  | .operator f, .minus => ⟨⟨fun x => s.level.total f - x, id⟩, s.outer, .operand true⟩
  | .operator f, .closing =>
    match s.outer with
    | [] => s
    | level :: outer => ⟨level, outer, .operator (s.level.total f)⟩
  | _, _ => s

/-- The value of a text, if it ends where an expression does. -/
def calculate (text : List UInt8) : Option ℚ :=
  let s := (tokens text).list.foldl (State.step numeral named) .start
  match s.expecting with
  | .operator f => some (s.level.total f)
  | _ => none

/-! ## Reading a piece of text -/

/-- The text leads from one state to another, wherever it ends before a symbol or at the end. -/
def Reads (text : List UInt8) (s s' : State) : Prop :=
  ∀ rest offset, Delimits rest → ∃ offset',
    (tokensFrom (text ++ rest) offset).list.foldl (State.step numeral named) s =
      (tokensFrom rest offset').list.foldl (State.step numeral named) s'

variable {numeral named} {s s' s₁ s₂ s₃ : State} {bs cs rest : List UInt8}

variable (numeral named s) in
theorem foldl_token {offset : ℕ} {t : Token} (h : scan bs offset = .token t rest) :
    ∃ offset', (tokensFrom bs offset).list.foldl (State.step numeral named) s =
      (tokensFrom rest offset').list.foldl (State.step numeral named) (s.step numeral named t) := by
  rw [tokensFrom_token h]
  exact ⟨_, rfl⟩

theorem isSymbol_of_ofByte? {b : UInt8} {kind : TokenKind} (h : TokenKind.ofByte? b = some kind) :
    IsSymbol b := by
  unfold IsSymbol
  rw [h]
  rfl

/-- A symbol in front of text. -/
theorem Reads.cons {b : UInt8} {kind : TokenKind} (hb : TokenKind.ofByte? b = some kind) (s₂ : State)
    (hstep : ∀ literal offset, s₁.step numeral named ⟨kind, literal, offset⟩ = s₂)
    (h : Reads numeral named cs s₂ s₃) : Reads numeral named (b :: cs) s₁ s₃ := by
  intro rest offset hrest
  obtain ⟨offset₁, h₁⟩ := foldl_token numeral named s₁ (scan_symbol hb (cs ++ rest) offset)
  obtain ⟨offset₂, h₂⟩ := h rest offset₁ hrest
  rw [hstep] at h₁
  exact ⟨offset₂, h₁.trans h₂⟩

/-- Text, a symbol, and more text. -/
theorem Reads.append {b : UInt8} {kind : TokenKind} (hb : TokenKind.ofByte? b = some kind)
    (h : Reads numeral named bs s s₁)
    (hstep : ∀ literal offset, s₁.step numeral named ⟨kind, literal, offset⟩ = s₂)
    (h' : Reads numeral named cs s₂ s₃) : Reads numeral named (bs ++ b :: cs) s s₃ := by
  intro rest offset hrest
  obtain ⟨offset₁, h₁⟩ := h (b :: (cs ++ rest)) offset (delimits_cons (isSymbol_of_ofByte? hb))
  obtain ⟨offset₂, h₂⟩ := Reads.cons hb s₂ hstep h' rest offset₁ hrest
  rw [List.append_assoc]
  exact ⟨offset₂, h₁.trans h₂⟩

theorem Reads.nil (s : State) : Reads numeral named [] s s := fun _ offset _ => ⟨offset, rfl⟩

theorem reads_identifier {x : String} (hx : isIdentifier x = true)
    (hstep : ∀ offset, s.step numeral named ⟨.identifier, x, offset⟩ = s') :
    Reads numeral named (Utf8.bytes x) s s' := by
  intro rest offset hrest
  obtain ⟨offset', h⟩ := foldl_token numeral named s (scan_identifier hx hrest.not_letter offset)
  rw [hstep] at h
  exact ⟨offset', h⟩

theorem reads_numeral {literal : String} (hl : Numeral.IsPlain literal)
    (hstep : ∀ offset, s.step numeral named ⟨.number, literal, offset⟩ = s') :
    Reads numeral named (Utf8.bytes literal) s s' := by
  intro rest offset hrest
  obtain ⟨offset', h⟩ := foldl_token numeral named s (scan_numeral hl hrest.not_numeral offset)
  rw [hstep] at h
  exact ⟨offset', h⟩

theorem Reads.calculate_eq {level : Level} {f : ℚ}
    (h : Reads numeral named bs .start ⟨level, [], .operator f⟩) :
    calculate numeral named bs = some (level.total f) := by
  have hscan : ∀ offset, scan [] offset = .finish offset := fun _ => rfl
  obtain ⟨offset, hfold⟩ := h [] 0 delimits_nil
  rw [List.append_nil, tokensFrom_finish (hscan offset)] at hfold
  unfold calculate tokens
  rw [hfold]
  rfl

end Reading

/-! ## Places -/

/-- An operand comes next where a binding of at least `min` is needed. Only the right operand of a product or
a quotient does not begin a term. -/
structure Fits (leading : Bool) (min : ℕ) (s : State) : Prop where
  operand : s.expecting = .operand leading
  begins : min ≤ 3 → leading = true
  /-- Where a term begins, nothing but signs has been read of it. -/
  sign : leading = true → ∃ σ, ∀ x, s.level.product x = σ * x
  start : min ≤ 2 → s.level = .start

/-- Something of the value `v` has been read where a binding of at least `min` is needed: a whole expression,
or the last factors of a term. -/
def Ends (min : ℕ) (s s' : State) (v : ℚ) : Prop :=
  if min ≤ 2 then ∃ level f, s' = ⟨level, s.outer, .operator f⟩ ∧ level.total f = v
  else ∃ product f, s' = ⟨⟨s.level.sum, product⟩, s.outer, .operator f⟩ ∧
    product f = s.level.product v

section Places

variable {leading : Bool} {min min' : ℕ} {s s' : State} {v : ℚ}

theorem Fits.mono (h : min ≤ min') (hs : Fits leading min s) : Fits leading min' s :=
  ⟨hs.operand, fun hle => hs.begins (h.trans hle), hs.sign, fun hle => hs.start (h.trans hle)⟩

theorem fits_start (min : ℕ) (outer : List Level) : Fits true min ⟨.start, outer, .operand true⟩ :=
  ⟨rfl, fun _ => rfl, fun _ => ⟨1, fun x => (one_mul x).symm⟩, fun _ => rfl⟩

theorem ends_sum (hmin : min ≤ 2) :
    Ends min s s' v ↔ ∃ level f, s' = ⟨level, s.outer, .operator f⟩ ∧ level.total f = v := by
  rw [Ends, if_pos hmin]

theorem ends_term (hmin : 3 ≤ min) :
    Ends min s s' v ↔ ∃ product f, s' = ⟨⟨s.level.sum, product⟩, s.outer, .operator f⟩ ∧
      product f = s.level.product v := by
  rw [Ends, if_neg (by omega)]

/-- The end of a term is the end of an expression where nothing has been read before it. -/
theorem Ends.loosen (hle : min ≤ min') (hs : Fits leading min s) (h : Ends min' s s' v) :
    Ends min s s' v := by
  by_cases hmin : min ≤ 2
  · by_cases hmin' : min' ≤ 2
    · exact (ends_sum hmin).mpr ((ends_sum hmin').mp h)
    · obtain ⟨product, f, rfl, hv⟩ := (ends_term (by omega)).mp h
      refine (ends_sum hmin).mpr ⟨_, f, rfl, ?_⟩
      rw [hs.start hmin] at hv ⊢
      exact hv
  · exact (ends_term (by omega)).mpr ((ends_term (by omega)).mp h)

theorem Fits.ends_value (hs : Fits leading min s) (v : ℚ) : Ends min s (s.withValue v) v :=
  Ends.loosen (le_max_left min 3) hs ((ends_term (le_max_right min 3)).mpr ⟨_, v, rfl, rfl⟩)

end Places

/-! ## Pieces of printed text -/

section Pieces

variable {numeral named : String → ℚ}

/-- At a place for bindings of at least `min`, the text is read as the given value. -/
def ReadBack (numeral named : String → ℚ) (leading : Bool) (min : ℕ) (text : String) (v : ℚ) : Prop :=
  ∀ s, Fits leading min s →
    ∃ s', Reads numeral named (Utf8.bytes text) s s' ∧ Ends min s s' v

variable {leading : Bool} {min prec : ℕ} {s : State} {text lt rt : String} {v vl vr : ℚ}

theorem bytes_minus_append (text : String) : Utf8.bytes ("-" ++ text) = 0x2D :: Utf8.bytes text := by
  have hminus : Utf8.bytes "-" = [0x2D] := by decide +kernel
  rw [Utf8.bytes_append, hminus, List.singleton_append]

/-- An expression in parentheses is an operand. -/
theorem ReadBack.parentheses (h : ReadBack numeral named true prec text v)
    (hs : s.expecting = .operand leading) :
    Reads numeral named (Utf8.bytes ("(" ++ text ++ ")")) s (s.withValue v) := by
  have hopening : Utf8.bytes "(" = [0x28] := by decide +kernel
  have hclosing : Utf8.bytes ")" = [0x29] := by decide +kernel
  have hopen : TokenKind.ofByte? 0x28 = some .opening := rfl
  have hclose : TokenKind.ofByte? 0x29 = some .closing := rfl
  obtain ⟨s₁, hreads, hends⟩ := h _ (fits_start prec (s.level :: s.outer))
  -- inside the parentheses nothing was read before, so the text is a whole expression
  obtain ⟨level, f, rfl, rfl⟩ := (ends_sum (Nat.zero_le 2)).mp
    (hends.loosen (Nat.zero_le prec) (fits_start 0 _))
  rw [Utf8.bytes_append, Utf8.bytes_append, hopening, hclosing, List.append_assoc]
  refine Reads.cons hopen _ (fun literal offset => ?_)
    (Reads.append hclose hreads (fun literal offset => rfl) (Reads.nil _))
  unfold State.step
  rw [hs]
  cases leading <;> rfl

/-- Parentheses are put where they are needed. Without them the place stays what it is. -/
theorem ReadBack.enclose (hgroup : prec < min → ReadBack numeral named true prec text v)
    (hplain : min ≤ prec → ReadBack numeral named leading prec text v) :
    ReadBack numeral named leading min (Expr.enclose min prec text) v := by
  intro s hs
  unfold Expr.enclose
  split
  · rename_i hlt
    exact ⟨_, (hgroup hlt).parentheses hs.operand, hs.ends_value v⟩
  · rename_i hge
    have hle : min ≤ prec := Nat.le_of_not_lt hge
    obtain ⟨s', hreads, hends⟩ := hplain hle s (hs.mono hle)
    exact ⟨s', hreads, hends.loosen hle hs⟩

/-- A sign in front of a term. -/
theorem ReadBack.negation (h : ReadBack numeral named true 3 text v) :
    ReadBack numeral named true 3 ("-" ++ text) (-v) := by
  intro s hs
  have hminus : TokenKind.ofByte? 0x2D = some .minus := rfl
  obtain ⟨σ, hσ⟩ := hs.sign rfl
  obtain ⟨s', hreads, hends⟩ := h ⟨⟨s.level.sum, fun x => s.level.product (-x)⟩, s.outer, .operand true⟩
    ⟨rfl, fun _ => rfl, fun _ => ⟨-σ, fun x => by rw [hσ]; ring⟩, fun h => absurd h (by omega)⟩
  refine ⟨s', ?_, hends⟩
  rw [bytes_minus_append]
  refine Reads.cons hminus _ (fun literal offset => ?_) hreads
  unfold State.step
  rw [hs.operand]

/-- Two operands of a sum or a difference; the operator is `combine` on values. -/
theorem ReadBack.sum {op : Operator} {b : UInt8} {kind : TokenKind} {combine : ℚ → ℚ → ℚ}
    (hop : Utf8.bytes op.symbol = [b]) (hb : TokenKind.ofByte? b = some kind)
    (hstep : ∀ (level : Level) outer f literal offset,
      State.step numeral named ⟨level, outer, .operator f⟩ ⟨kind, literal, offset⟩ =
        ⟨⟨combine (level.total f), id⟩, outer, .operand true⟩)
    (hl : ReadBack numeral named true 2 lt vl) (hr : ReadBack numeral named true 3 rt vr) :
    ReadBack numeral named true 2 (lt ++ op.symbol ++ rt) (combine vl vr) := by
  intro s hs
  obtain ⟨s₁, hreads₁, hends₁⟩ := hl s hs
  obtain ⟨level, f, rfl, rfl⟩ := (ends_sum (le_refl 2)).mp hends₁
  have hfits : Fits true 3 ⟨⟨combine (level.total f), id⟩, s.outer, .operand true⟩ :=
    ⟨rfl, fun _ => rfl, fun _ => ⟨1, fun x => (one_mul x).symm⟩, fun h => absurd h (by omega)⟩
  obtain ⟨s₂, hreads₂, hends₂⟩ := hr _ hfits
  obtain ⟨product, g, rfl, hg⟩ := (ends_term (le_refl 3)).mp hends₂
  refine ⟨_, ?_, (ends_sum (le_refl 2)).mpr ⟨⟨combine (level.total f), product⟩, g, rfl, ?_⟩⟩
  · rw [Parser.bytes_operator hop]
    exact Reads.append hb hreads₁ (hstep level s.outer f) hreads₂
  · exact congrArg (combine (level.total f)) hg

/-- Two operands of a product or a quotient. A sign in front of the first one is a sign in front of the
whole. -/
theorem ReadBack.product {op : Operator} {b : UInt8} {kind : TokenKind} {combine : ℚ → ℚ → ℚ}
    (hop : Utf8.bytes op.symbol = [b]) (hb : TokenKind.ofByte? b = some kind)
    (hstep : ∀ (level : Level) outer f literal offset,
      State.step numeral named ⟨level, outer, .operator f⟩ ⟨kind, literal, offset⟩ =
        ⟨⟨level.sum, combine (level.product f)⟩, outer, .operand false⟩)
    (hscale : ∀ σ x y, combine (σ * x) y = σ * combine x y)
    (hl : ReadBack numeral named true 3 lt vl) (hr : ReadBack numeral named false 4 rt vr) :
    ReadBack numeral named true 3 (lt ++ op.symbol ++ rt) (combine vl vr) := by
  intro s hs
  obtain ⟨σ, hσ⟩ := hs.sign rfl
  obtain ⟨s₁, hreads₁, hends₁⟩ := hl s hs
  obtain ⟨product, f, rfl, hf⟩ := (ends_term (le_refl 3)).mp hends₁
  have hfits : Fits false 4 ⟨⟨s.level.sum, combine (product f)⟩, s.outer, .operand false⟩ :=
    ⟨rfl, fun h => absurd h (by omega), fun h => absurd h (by decide), fun h => absurd h (by omega)⟩
  obtain ⟨s₂, hreads₂, hends₂⟩ := hr _ hfits
  obtain ⟨product', g, rfl, hg⟩ := (ends_term (by omega)).mp hends₂
  refine ⟨_, ?_, (ends_term (le_refl 3)).mpr ⟨product', g, rfl, ?_⟩⟩
  · rw [Parser.bytes_operator hop]
    exact Reads.append hb hreads₁ (hstep _ s.outer f) hreads₂
  · calc product' g = combine (product f) vr := hg
      _ = combine (σ * vl) vr := by rw [hf, hσ]
      _ = s.level.product (combine vl vr) := by rw [hscale, hσ]

end Pieces

end Calculator

/-! ## Trees -/

namespace Expr

variable {α : Type} [RationalScalar α]

open RationalScalar (value)

/-- The trees whose text a calculator can read: names are identifiers, numbers are finite, exponents are
integer literals, and there is no marker, no missing operand and no unknown operator. -/
def Calculable : Expr α → Prop
  | num v => Scalar.IsFinite v
  | var x => isIdentifier x = true
  | bin op l r =>
    (op ∈ Operator.joins ∨ op = .pow ∧ ∃ k, r = num k ∧ (value k).den = 1) ∧
      l.Calculable ∧ r.Calculable
  | pending _ => False
  | hole => False

instance decidableCalculable : (e : Expr α) → Decidable e.Calculable
  | num v => inferInstanceAs (Decidable (Scalar.IsFinite v))
  | var x => inferInstanceAs (Decidable (isIdentifier x = true))
  | bin op l r =>
    have := decidableCalculable l
    have := decidableCalculable r
    inferInstanceAs (Decidable
      ((op ∈ Operator.joins ∨ op = .pow ∧ ∃ k, r = num k ∧ (value k).den = 1) ∧
        l.Calculable ∧ r.Calculable))
  | pending _ => .isFalse id
  | hole => .isFalse id

/-- An even power of a negative number. Behind nothing but signs, its text is that of the negated power of
the absolute value. -/
def IsEvenPowerOfNegative : Expr α → Prop
  | bin op l r =>
    op = .pow ∧ (∃ v, l = num v ∧ value v < 0) ∧ ∃ k, r = num k ∧ Even (value k).num
  | _ => False

instance : (e : Expr α) → Decidable e.IsEvenPowerOfNegative
  | bin op l r => inferInstanceAs (Decidable
      (op = .pow ∧ (∃ v, l = num v ∧ value v < 0) ∧ ∃ k, r = num k ∧ Even (value k).num))
  | num _ => .isFalse id
  | var _ => .isFalse id
  | pending _ => .isFalse id
  | hole => .isFalse id

/-- An even power of a negative number is no operand, unless it is the right one of a product or a quotient,
where no term begins. -/
def ClearNode (op : Operator) (l r : Expr α) : Prop :=
  ¬l.IsEvenPowerOfNegative ∧
    (r.IsEvenPowerOfNegative → (op = .mul ∨ op = .div) ∧ (bin op l r).isNegation = false)

instance (op : Operator) (l r : Expr α) : Decidable (ClearNode op l r) :=
  inferInstanceAs (Decidable (¬l.IsEvenPowerOfNegative ∧
    (r.IsEvenPowerOfNegative → (op = .mul ∨ op = .div) ∧ (bin op l r).isNegation = false)))

/-- No even power of a negative number stands where a term begins. -/
def Clear (e : Expr α) : Prop := ¬e.IsEvenPowerOfNegative ∧ e.EveryNode ClearNode

instance (e : Expr α) : Decidable e.Clear :=
  inferInstanceAs (Decidable (¬e.IsEvenPowerOfNegative ∧ e.EveryNode ClearNode))

/-- The reading of a tree in exact arithmetic, with `ρ` for the variables. -/
def exactly (ρ : String → ℚ) : Interpretation α ℚ where
  number := value
  named := ρ
  divide := (· / ·)
  power b e := b ^ e.num
  unknown _ _ _ := 0
  marked _ := 0

/-- The exact value of a tree. Quotients and powers that do not exist are zero. -/
def exactValue (ρ : String → ℚ) (e : Expr α) : ℚ := e.denote (exactly ρ)

section Calculable

variable {l r : Expr α} {op : Operator}

/-- An operator node joins two operands or is a power. -/
theorem Calculable.cases_bin (h : (bin op l r).Calculable) :
    (op ∈ Operator.joins ∧ l.Calculable ∧ r.Calculable) ∨
      ∃ k, op = .pow ∧ r = num k ∧ l.Calculable ∧ Scalar.IsFinite k := by
  obtain ⟨hop | ⟨rfl, k, rfl, -⟩, hl, hr⟩ := h
  · exact Or.inl ⟨hop, hl, hr⟩
  · exact Or.inr ⟨k, rfl, rfl, hl, hr⟩

theorem Calculable.isWhole {e : Expr α} (h : e.Calculable) : e.isWhole = true := by
  induction e with
  | num v => rfl
  | var x => rfl
  | bin op l r ihl ihr =>
    rw [Expr.isWhole, ihl h.2.1, ihr h.2.2]
    rfl
  | pending t ih => exact h.elim
  | hole => exact h.elim

theorem Calculable.print_eq {e : Expr α} (h : e.Calculable) : e.print = e.render 0 := by
  rw [print, if_pos h.isWhole]

end Calculable

end Expr

namespace Calculator

open RationalScalar (value)

section Numbers

variable {α : Type} [RationalScalar α] {v k : α} {named : String → ℚ} {leading : Bool} {min : ℕ} {s : State}

/-- A number is an operand, unless its sign is that of the term that begins. -/
theorem reads_number (hv : Scalar.IsFinite v) (hs : s.expecting = .operand leading)
    (h : leading = true → 0 ≤ value v) :
    Reads (RationalScalar.numeral α) named (Utf8.bytes (Scalar.text v)) s (s.withValue (value v)) := by
  rcases lt_or_ge (value v) 0 with hneg | hnonneg
  · obtain rfl : leading = false := by
      cases leading with
      | false => rfl
      | true => exact absurd (h rfl) (not_le.mpr hneg)
    have hminus : TokenKind.ofByte? 0x2D = some .minus := rfl
    obtain ⟨body, hbody, hvalue, htext⟩ := RationalScalar.text_of_neg hv hneg
    rw [htext, bytes_minus_append]
    refine Reads.cons hminus { s with expecting := .magnitude } (fun literal offset => ?_)
      (reads_numeral hbody fun offset => ?_)
    · unfold State.step
      rw [hs]
    · unfold State.step
      dsimp only
      rw [hvalue, neg_neg]
      rfl
  · obtain ⟨hplain, hvalue⟩ := RationalScalar.text_of_nonneg hv hnonneg
    refine reads_numeral hplain fun offset => ?_
    unfold State.step
    rw [hs]
    cases leading <;> dsimp only <;> rw [hvalue]

/-- The sign of a negative number that begins a term is the sign of the term. -/
theorem reads_negative (hv : Scalar.IsFinite v) (hs : s.expecting = .operand true) (h : value v < 0) :
    Reads (RationalScalar.numeral α) named (Utf8.bytes (Scalar.text v)) s
      ⟨⟨s.level.sum, fun x => s.level.product (-x)⟩, s.outer, .operator (-value v)⟩ := by
  have hminus : TokenKind.ofByte? 0x2D = some .minus := rfl
  obtain ⟨body, hbody, hvalue, htext⟩ := RationalScalar.text_of_neg hv h
  rw [htext, bytes_minus_append]
  refine Reads.cons hminus { s with level.product := fun x => s.level.product (-x) }
    (fun literal offset => ?_) (reads_numeral hbody fun offset => ?_)
  · unfold State.step
    rw [hs]
  · unfold State.step
    rw [hs]
    dsimp only
    rw [hvalue]
    rfl

theorem readBack_num (hv : Scalar.IsFinite v) :
    ReadBack (RationalScalar.numeral α) named leading min (Scalar.text v) (value v) := by
  intro s hs
  by_cases hnonneg : leading = true → 0 ≤ value v
  · exact ⟨_, reads_number hv hs.operand hnonneg, hs.ends_value _⟩
  · obtain ⟨rfl, hneg⟩ := not_forall.mp hnonneg
    refine ⟨_, reads_negative hv hs.operand (not_le.mp hneg), ?_⟩
    refine Ends.loosen (le_max_left min 3) hs ((ends_term (le_max_right min 3)).mpr ⟨_, _, rfl, ?_⟩)
    exact congrArg s.level.product (neg_neg _)

/-- An exponent with its sign. -/
theorem reads_exponent {base : ℚ} (hk : Scalar.IsFinite k) (hs : s.expecting = .exponent base) :
    Reads (RationalScalar.numeral α) named (Utf8.bytes (Scalar.text k)) s
      (s.withValue (base ^ (value k).num)) := by
  rcases lt_or_ge (value k) 0 with hneg | hnonneg
  · have hminus : TokenKind.ofByte? 0x2D = some .minus := rfl
    obtain ⟨body, hbody, hvalue, htext⟩ := RationalScalar.text_of_neg hk hneg
    rw [htext, bytes_minus_append]
    refine Reads.cons hminus { s with expecting := .negatedExponent base }
      (fun literal offset => ?_) (reads_numeral hbody fun offset => ?_)
    · unfold State.step
      rw [hs]
    · unfold State.step
      dsimp only
      rw [hvalue, neg_neg]
      rfl
  · obtain ⟨hplain, hvalue⟩ := RationalScalar.text_of_nonneg hk hnonneg
    refine reads_numeral hplain fun offset => ?_
    unfold State.step
    rw [hs]
    dsimp only
    rw [hvalue]

end Numbers

section Nodes

variable {α : Type} [RationalScalar α] {ρ : String → ℚ} {leading : Bool} {min prec : ℕ} {s : State}
  {text lt rt : String} {v : ℚ} {e l r : Expr α} {k : α}

theorem ReadBack.enclose_of_le {numeral : String → ℚ} (hprec : prec ≤ 3)
    (h : ReadBack numeral ρ true prec text v) :
    ReadBack numeral ρ leading min (Expr.enclose min prec text) v := by
  refine ReadBack.enclose (fun _ => h) fun _ s hs => ?_
  obtain rfl : leading = true := hs.begins hprec
  exact h s hs

theorem readBack_var {x : String} (hx : isIdentifier x = true) :
    ReadBack (RationalScalar.numeral α) ρ leading min x (ρ x) := by
  intro s hs
  refine ⟨s.withValue (ρ x), reads_identifier hx fun offset => ?_, hs.ends_value _⟩
  unfold State.step
  rw [hs.operand]
  cases leading <;> rfl

/-- Operators that join two operands. The right operand of a product or a quotient begins no term. -/
theorem readBack_join {op : Operator} (hop : op ∈ Operator.joins)
    (hl : ReadBack (RationalScalar.numeral α) ρ true (Expr.leftLevel op) lt (l.exactValue ρ))
    (hr : ReadBack (RationalScalar.numeral α) ρ (op.isAdditive) (op.precedence + 1) rt
      (r.exactValue ρ)) :
    ReadBack (RationalScalar.numeral α) ρ true op.precedence (lt ++ op.symbol ++ rt)
      ((Expr.bin op l r).exactValue ρ) := by
  have hplus : TokenKind.ofByte? 0x2B = some .plus := rfl
  have hminus : TokenKind.ofByte? 0x2D = some .minus := rfl
  have hstar : TokenKind.ofByte? 0x2A = some .star := rfl
  have hslash : TokenKind.ofByte? 0x2F = some .slash := rfl
  cases op with
  | add => exact ReadBack.sum (by decide +kernel) hplus (fun _ _ _ _ _ => rfl) hl hr
  | sub => exact ReadBack.sum (by decide +kernel) hminus (fun _ _ _ _ _ => rfl) hl hr
  | mul => exact ReadBack.product (by decide +kernel) hstar (fun _ _ _ _ _ => rfl) mul_assoc hl hr
  | div => exact ReadBack.product (by decide +kernel) hslash (fun _ _ _ _ _ => rfl) mul_div_assoc hl hr
  | pow => exact absurd hop (by decide)
  | other code => simp [Operator.joins] at hop

/-- The exponent is applied to the operand in front of the caret. -/
theorem reads_power {bs : List UInt8} {level : Level} {outer : List Level} {f : ℚ}
    (hk : Scalar.IsFinite k)
    (h : Reads (RationalScalar.numeral α) ρ bs s ⟨level, outer, .operator f⟩) :
    Reads (RationalScalar.numeral α) ρ (bs ++ 0x5E :: Utf8.bytes (Scalar.text k)) s
      ⟨level, outer, .operator (f ^ (value k).num)⟩ := by
  have hcaret : TokenKind.ofByte? 0x5E = some .caret := rfl
  have hexponent : Reads (RationalScalar.numeral α) ρ (Utf8.bytes (Scalar.text k))
      ⟨level, outer, .exponent f⟩ ⟨level, outer, .operator (f ^ (value k).num)⟩ :=
    reads_exponent hk rfl
  exact Reads.append hcaret h (fun literal offset => rfl) hexponent

/-- The base of a power that is no number is an atom. -/
theorem reads_base (he : e.Calculable) (hnum : ∀ u, e ≠ .num u)
    (h : ReadBack (RationalScalar.numeral α) ρ true 0 (e.render 0) (e.exactValue ρ))
    (hs : s.expecting = .operand leading) :
    Reads (RationalScalar.numeral α) ρ (Utf8.bytes (e.render Operator.atomPrecedence)) s
      (s.withValue (e.exactValue ρ)) := by
  cases e with
  | num u => exact absurd rfl (hnum u)
  | var x =>
    refine reads_identifier he fun offset => ?_
    unfold State.step
    rw [hs]
    cases leading <;> rfl
  | bin op l r =>
    have hprec : op.precedence < Operator.atomPrecedence := by
      rcases he.cases_bin with ⟨hop, -⟩ | ⟨k, rfl, -⟩
      · cases op <;> first | decide | simp [Operator.joins] at hop
      · decide
    have hrender : (Expr.bin op l r).render Operator.atomPrecedence =
        "(" ++ (Expr.bin op l r).render 0 ++ ")" := by
      rw [Expr.render, Expr.render]
      split <;>
        rw [Expr.enclose, Expr.enclose, if_pos hprec, if_neg (Nat.not_lt_zero _)]
    rw [hrender]
    exact h.parentheses hs
  | pending t => exact he.elim
  | hole => exact he.elim

/-- A power of which the base is read as it stands. A sign in front of a base that begins a term is taken for
the sign of the power, which is right for odd exponents. -/
theorem readBack_power (he : l.Calculable) (hk : Scalar.IsFinite k)
    (h : ReadBack (RationalScalar.numeral α) ρ true 0 (l.render 0) (l.exactValue ρ))
    (hsign : leading = true → ¬(Expr.pow l k).IsEvenPowerOfNegative) :
    ReadBack (RationalScalar.numeral α) ρ leading 4
      (l.render Operator.atomPrecedence ++ Operator.symbol .pow ++ Scalar.text k)
      ((Expr.pow l k).exactValue ρ) := by
  have hsymbol : Utf8.bytes (Operator.symbol .pow) = [0x5E] := by decide +kernel
  intro s hs
  rw [Parser.bytes_operator hsymbol]
  by_cases hnegative : ∃ u, l = .num u ∧ leading = true ∧ value u < 0
  · obtain ⟨u, rfl, rfl, hu⟩ := hnegative
    have hodd : Odd (value k).num := by
      rw [← Int.not_even_iff_odd]
      exact fun heven => hsign rfl ⟨rfl, ⟨u, rfl, hu⟩, k, rfl, heven⟩
    refine ⟨_, reads_power hk (reads_negative he hs.operand hu), (ends_term (by omega)).mpr
      ⟨_, _, rfl, ?_⟩⟩
    show s.level.product (-(-value u) ^ (value k).num) = s.level.product (value u ^ (value k).num)
    rw [hodd.neg_zpow, neg_neg]
  · have hbase : Reads (RationalScalar.numeral α) ρ (Utf8.bytes (l.render Operator.atomPrecedence)) s
        (s.withValue (l.exactValue ρ)) := by
      by_cases hnum : ∃ u, l = .num u
      · obtain ⟨u, rfl⟩ := hnum
        refine reads_number he hs.operand fun hleading => not_lt.mp fun hu => ?_
        exact hnegative ⟨u, rfl, hleading, hu⟩
      · exact reads_base he (fun u hu => hnum ⟨u, hu⟩) h hs.operand
    exact ⟨_, reads_power hk hbase, hs.ends_value _⟩

/-- What is written for a place is read as the value. Inside parentheses a term begins wherever they stand. -/
theorem readBack_render (he : e.Calculable) (hclear : e.EveryNode Expr.ClearNode)
    (hsign : leading = true ∨ 4 < min → ¬e.IsEvenPowerOfNegative) :
    ReadBack (RationalScalar.numeral α) ρ leading min (e.render min) (e.exactValue ρ) := by
  induction e generalizing leading min with
  | num v => exact readBack_num he
  | var x => exact readBack_var he
  | bin op l r ihl ihr =>
    obtain ⟨⟨hleft, hright⟩, hclearl, hclearr⟩ := hclear
    rcases he.cases_bin with ⟨hop, hel, her⟩ | ⟨k, rfl, rfl, hel, hk⟩
    · have hprec : op.precedence ≤ 3 := by
        cases op <;> first | decide | simp [Operator.joins] at hop
      by_cases hneg : (Expr.bin op l r).isNegation = true
      · rw [Expr.render, if_pos hneg]
        cases op with
        | mul =>
          cases l with
          | num v =>
            have hr : ¬r.IsEvenPowerOfNegative := fun h => by
              rw [(hright h).2] at hneg
              cases hneg
            have hvalue : (Expr.mul (.num v) r).exactValue ρ = -r.exactValue ρ := by
              show value v * r.exactValue ρ = -r.exactValue ρ
              rw [RationalScalar.value_of_beq hel hneg, neg_one_mul]
            rw [hvalue]
            exact (ReadBack.negation (ihr her hclearr fun _ => hr)).enclose_of_le hprec
          | _ => cases hneg
        | _ => cases hneg
      · rw [Expr.render, if_neg hneg]
        refine ReadBack.enclose_of_le hprec
          (readBack_join hop (ihl hel hclearl fun _ => hleft) (ihr her hclearr fun hterm h => ?_))
        obtain ⟨rfl | rfl, -⟩ := hright h <;> exact absurd hterm (by decide)
    · have hl : ReadBack (RationalScalar.numeral α) ρ true 0 (l.render 0) (l.exactValue ρ) :=
        ihl hel hclearl fun _ => hleft
      exact ReadBack.enclose (fun hlt => readBack_power hel hk hl fun _ => hsign (Or.inr hlt))
        fun _ => readBack_power hel hk hl fun hleading => hsign (Or.inl hleading)
  | pending t ih => exact he.elim
  | hole => exact he.elim

/-- The calculator finds the exact value of a clear tree in its text. -/
theorem calculate_print (he : e.Calculable) (hclear : e.Clear) (ρ : String → ℚ) :
    calculate (RationalScalar.numeral α) ρ (Utf8.bytes e.print) = some (e.exactValue ρ) := by
  obtain ⟨hroot, hnodes⟩ := hclear
  obtain ⟨s, hreads, hends⟩ := readBack_render he hnodes (fun _ => hroot) .start (fits_start 0 [])
  obtain ⟨level, f, rfl, hvalue⟩ := (ends_sum (Nat.zero_le 2)).mp hends
  rw [he.print_eq, ← hvalue]
  exact hreads.calculate_eq

end Nodes

end Calculator

namespace Expr

section Texts

variable {α : Type} [RationalScalar α] {v w k : α}

open RationalScalar (value)

/-- Wherever a negation is written as it stands, or in parentheses in which a power is, too, a power of a
negative number is written like the negated power of its absolute value. -/
theorem render_power_of_negative (h : Scalar.text v = "-" ++ Scalar.text w) {min : ℕ} (hmin : min ≠ 4) :
    (pow (num v) k).render min = (mul (num (-1)) (pow (num w) k)).render min := by
  have hneg : (mul (num (-1)) (pow (num w) k)).isNegation = true := RationalScalar.minus_one_beq
  have hinner : (pow (num w) k).render Operator.mul.precedence =
      Scalar.text w ++ Operator.symbol .pow ++ Scalar.text k := rfl
  have hpower : (pow (num v) k).render min =
      enclose min 4 (Scalar.text v ++ Operator.symbol .pow ++ Scalar.text k) := rfl
  have hprec : Operator.mul.precedence = 3 := rfl
  rw [hpower, render, if_pos hneg, hinner, h, hprec, String.append_assoc, String.append_assoc,
    String.append_assoc, enclose, enclose]
  by_cases hlt : min < 4
  · rw [if_neg (by omega), if_neg (by omega)]
  · rw [if_pos (by omega), if_pos (by omega)]

/-- An even power is not negative, and its negation is not positive. -/
theorem exactValue_even_power_ne (hv : Scalar.IsFinite v) (hw : Scalar.IsFinite w)
    (h : Scalar.text v = "-" ++ Scalar.text w) (hk : Even (value k).num) (ρ : String → ℚ) :
    (pow (num v) k).exactValue ρ ≠ (mul (num (-1)) (pow (num w) k)).exactValue ρ := by
  obtain ⟨hneg, hvalue⟩ := RationalScalar.value_of_text_eq_minus hv hw h
  have hpos : 0 < value v ^ (value k).num := hk.zpow_pos hneg.ne
  have hopposite : value w ^ (value k).num = value v ^ (value k).num := by
    rw [hvalue, hk.neg_zpow]
  show value v ^ (value k).num ≠ value (-1 : α) * value w ^ (value k).num
  rw [RationalScalar.value_minus_one, hopposite, neg_one_mul]
  intro heq
  linarith

end Texts

/-- Two trees with the same text have the same value, whatever the signs of their numbers are, as long as no
even power of a negative number begins a term. Where one does, there is another tree with the same text and
another value. -/
theorem exactValue_eq_of_print_eq {α : Type} [RationalScalar α] :
    (∀ a b : Expr α, a.Calculable → b.Calculable → a.Clear → b.Clear → a.print = b.print →
      ∀ ρ, a.exactValue ρ = b.exactValue ρ) ∧
    ∀ v w k : α, Scalar.IsFinite v → Scalar.IsFinite w → Scalar.text v = "-" ++ Scalar.text w →
      Even (RationalScalar.value k).num →
      (pow (num v) k).print = (mul (num (-1)) (pow (num w) k)).print ∧
        ∀ ρ, (pow (num v) k).exactValue ρ ≠ (mul (num (-1)) (pow (num w) k)).exactValue ρ := by
  constructor
  · intro a b ha hb hcleara hclearb h ρ
    have hvalue := Calculator.calculate_print ha hcleara ρ
    rw [h, Calculator.calculate_print hb hclearb] at hvalue
    exact (Option.some.inj hvalue).symm
  · intro v w k hv hw h hk
    refine ⟨?_, exactValue_even_power_ne hv hw h hk⟩
    show (pow (num v) k).render 0 = (mul (num (-1)) (pow (num w) k)).render 0
    exact render_power_of_negative h (by decide)

/-- A sign that belongs to the first factor or to the whole term, an odd power of a negative number, and an
even one behind a multiplication sign. Without the latter, two values go with one text. -/
theorem exactValue_eq_of_print_eq_signs :
    let square : Expr Float := pow (num (-2)) 2
    let opposite : Expr Float := mul (num (-1)) (pow (num 2) 2)
    let a : Expr Float := sub (mul (mul (num (-1)) (var "x")) square) (pow (num (-3)) 3)
    let b : Expr Float := sub (mul (num (-1)) (mul (var "x") square)) (mul (num (-1)) (pow (num 3) 3))
    ((a.Calculable ∧ b.Calculable ∧ a.Clear ∧ b.Clear ∧ a.print = b.print) ∧
      ∀ ρ, a.exactValue ρ = b.exactValue ρ) ∧
    (Scalar.IsFinite (-2 : Float) ∧ Scalar.IsFinite (2 : Float) ∧
      Scalar.text (-2 : Float) = "-" ++ Scalar.text (2 : Float) ∧
      Even (RationalScalar.value (2 : Float)).num) ∧
    square.print = opposite.print ∧ ∀ ρ, square.exactValue ρ ≠ opposite.exactValue ρ := by
  intro square opposite a b
  have ha : a.Calculable ∧ a.Clear := by decide +kernel
  have hb : b.Calculable ∧ b.Clear := by decide +kernel
  have hprint : a.print = b.print := by decide +kernel
  have hsquare : Scalar.IsFinite (-2 : Float) ∧ Scalar.IsFinite (2 : Float) ∧
      Scalar.text (-2 : Float) = "-" ++ Scalar.text (2 : Float) ∧
      Even (RationalScalar.value (2 : Float)).num := by decide +kernel
  obtain ⟨hv, hw, htext, heven⟩ := hsquare
  exact ⟨⟨⟨ha.1, hb.1, ha.2, hb.2, hprint⟩,
    exactValue_eq_of_print_eq.1 a b ha.1 hb.1 ha.2 hb.2 hprint⟩, ⟨hv, hw, htext, heven⟩,
    exactValue_eq_of_print_eq.2 (-2) 2 2 hv hw htext heven⟩

/-- The text `-2^2` belongs to four and to minus four. -/
theorem same_text_of_opposite_values :
    let a : Expr Float := pow (num (-2)) 2
    let b : Expr Float := mul (num (-1)) (pow (num 2) 2)
    (a.Calculable ∧ b.Calculable ∧ a.print = "-2^2" ∧ b.print = "-2^2") ∧
      ∀ ρ, a.exactValue ρ = 4 ∧ b.exactValue ρ = -4 := by
  intro a b
  refine ⟨by decide +kernel, fun ρ => ⟨?_, ?_⟩⟩
  · show (RationalScalar.value (-2 : Float)) ^ (RationalScalar.value (2 : Float)).num = 4
    decide +kernel
  · show (RationalScalar.value (-1 : Float)) *
      (RationalScalar.value (2 : Float)) ^ (RationalScalar.value (2 : Float)).num = -4
    decide +kernel

end Expr

end Fluxion
