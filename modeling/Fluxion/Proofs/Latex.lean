import Fluxion.Expr.Latex
import Fluxion.Proofs.Decimal.Floating
import Fluxion.Proofs.Text.Backward

/-!
# Formulas determine their trees

Two trees have the same formula exactly when they are the same, as long as no product has minus one on its
left and is written as a negation. The formula is read from its end. What may stand in front of a part of
it, where the part has to bind at `min`, is an `Opening`: nothing, a bracket, or the sign of an operator that
binds less tightly. That is enough to find where the part begins, and then the same holds of its operands.
-/

namespace Fluxion

namespace Expr

variable {α : Type}

/-- The tree can be shown as a formula: nothing is missing, the operators are the five known ones, variables
consist of letters, and the numbers are finite and, unless they are exponents, not negative. -/
def Displayable [Scalar α] : Expr α → Prop
  | num v => Scalar.IsFinite v ∧ Scalar.isNegative v = false
  | var x => (Utf8.bytes x).all isLetter = true
  | bin .pow l (num k) => l.Displayable ∧ Scalar.IsFinite k
  | bin op l r => op ∈ Operator.standard ∧ l.Displayable ∧ r.Displayable
  | pending t => t.Displayable
  | hole => False

/-- The same without a condition on signs, except that no product is written as a negation. -/
def Unnegated [Scalar α] : Expr α → Prop
  | num v => Scalar.IsFinite v
  | var x => (Utf8.bytes x).all isLetter = true
  | bin op l r => op ∈ Operator.standard ∧ (bin op l r).isNegation = false ∧ l.Unnegated ∧ r.Unnegated
  | pending t => t.Unnegated
  | hole => False

end Expr

/-- Scalars of which only negative ones equal minus one. -/
class DisplayScalar (α : Type) extends NumeralScalar α where
  ne_minus_one {v : α} : Scalar.IsFinite v → Scalar.isNegative v = false → (v == -1) = false

instance : DisplayScalar Float where
  ne_minus_one {v} hv hneg := by
    rw [Bool.eq_false_iff]
    intro heq
    rcases (Floating.beq_iff hv).mp heq with rfl | ⟨-, hzero⟩
    · exact absurd hneg (by decide +kernel)
    · exact absurd hzero (by decide +kernel)

namespace Expr

variable {α : Type}

theorem Displayable.unnegated [DisplayScalar α] {e : Expr α} (h : e.Displayable) : e.Unnegated := by
  fun_induction Displayable e with
  | case1 v => exact h.1
  | case2 x => exact h
  | case3 l k ih => exact ⟨by decide, rfl, ih h.1, h.2⟩
  | case4 op l r hpow ihl ihr =>
    obtain ⟨hop, hl, hr⟩ := h
    refine ⟨hop, ?_, ihl hl, ihr hr⟩
    cases op with
    | mul =>
      cases l with
      | num v => exact DisplayScalar.ne_minus_one hl.1 hl.2
      | _ => rfl
    | _ => rfl
  | case5 t ih => exact ih h
  | case6 => exact h

theorem Unnegated.isWhole [Scalar α] {e : Expr α} (h : e.Unnegated) : e.isWhole = true := by
  induction e with
  | num v => rfl
  | var x => rfl
  | bin op l r ihl ihr =>
    rw [Expr.isWhole, ihl h.2.2.1, ihr h.2.2.2]
    rfl
  | pending t ih => exact ih h
  | hole => exact h.elim

/-! ## Formulas from their end -/

section Ending

variable [Scalar α]

/-- How tightly a formula holds together. A fraction needs parentheses where a power does. -/
def tightness : Expr α → ℕ
  | bin .div _ _ => Operator.pow.precedence
  | bin op _ _ => op.precedence
  | _ => Operator.atomPrecedence

theorem renderLatex_eq {min : ℕ} (hmin : min ≤ Operator.atomPrecedence) (e : Expr α) :
    e.renderLatex min = encloseLatex min e.tightness (e.renderLatex 0) := by
  cases e with
  | num v => exact (if_neg (Nat.not_lt.mpr hmin)).symm
  | var x => exact (if_neg (Nat.not_lt.mpr hmin)).symm
  | pending t => exact (if_neg (Nat.not_lt.mpr hmin)).symm
  | hole => exact (if_neg (Nat.not_lt.mpr hmin)).symm
  | bin op l r =>
    cases op with
    | div => rfl
    | pow => rfl
    | _ =>
      simp only [renderLatex]
      split <;> rfl

/-- The bytes of a formula from the last one on. -/
def ending (min : ℕ) (e : Expr α) : List UInt8 := Utf8.backward (e.renderLatex min)

variable {min : ℕ} {e l r : Expr α}

theorem ending_of_le (h : min ≤ e.tightness) (hmin : min ≤ Operator.atomPrecedence) :
    e.ending min = e.ending 0 := by
  rw [ending, ending, renderLatex_eq hmin, encloseLatex, if_neg (Nat.not_lt.mpr h)]

/-- `\right)` from its end. -/
def closing : List UInt8 := [41, 116, 104, 103, 105, 114, 92]

/-- `\left(` from its end. -/
def opening : List UInt8 := [40, 116, 102, 101, 108, 92]

theorem ending_of_lt (h : e.tightness < min) (hmin : min ≤ Operator.atomPrecedence) :
    e.ending min = closing ++ (e.ending 0 ++ opening) := by
  have hclosing : Utf8.backward "\\right)" = closing := by decide +kernel
  have hopening : Utf8.backward "\\left(" = opening := by decide +kernel
  rw [ending, ending, renderLatex_eq hmin, encloseLatex, if_pos h, Utf8.backward_append,
    Utf8.backward_append, hclosing, hopening]

theorem ending_pending (t : Expr α) :
    (pending t).ending 0 = 39 :: (closing ++ (t.ending 0 ++ opening)) := by
  have hclosing : Utf8.backward "\\right)'" = 39 :: closing := by decide +kernel
  have hopening : Utf8.backward "\\left(" = opening := by decide +kernel
  rw [ending, ending, renderLatex, Utf8.backward_append, Utf8.backward_append, hclosing, hopening]
  rfl

theorem ending_div (l r : Expr α) : (bin .div l r).ending 0 =
    125 :: (r.ending 0 ++ 123 :: 125 :: (l.ending 0 ++ [123, 99, 97, 114, 102, 92])) := by
  have hfraction : Utf8.backward "\\frac\x7b" = [123, 99, 97, 114, 102, 92] := by decide +kernel
  have hmiddle : Utf8.backward "\x7d\x7b" = [123, 125] := by decide +kernel
  have hclosing : Utf8.backward "\x7d" = [125] := by decide +kernel
  rw [ending, ending, ending, renderLatex, encloseLatex, if_neg (by decide), Utf8.backward_append,
    Utf8.backward_append, Utf8.backward_append, Utf8.backward_append, hfraction, hmiddle, hclosing]
  rfl

theorem ending_pow (l r : Expr α) : (bin .pow l r).ending 0 =
    125 :: (r.ending 0 ++ 123 :: 94 :: l.ending Operator.atomPrecedence) := by
  have hmiddle : Utf8.backward "^\x7b" = [123, 94] := by decide +kernel
  have hclosing : Utf8.backward "\x7d" = [125] := by decide +kernel
  rw [ending, ending, ending, renderLatex, encloseLatex, if_neg (by decide), Utf8.backward_append,
    Utf8.backward_append, Utf8.backward_append, hmiddle, hclosing]
  rfl

end Ending

end Expr

/-- The operators that are written between their operands. -/
def Operator.inline : List Operator := [.add, .sub, .mul]

namespace Expr

section Ending

variable [Scalar α] {min : ℕ}

/-- The sign of an operator from its end. -/
def signEnding (op : Operator) : List UInt8 := Utf8.backward (latexSign op)

theorem signEnding_eq :
    signEnding .add = [32, 43, 32] ∧ signEnding .sub = [32, 45, 32] ∧
      signEnding .mul = [32, 116, 111, 100, 99, 92, 32] := by
  decide +kernel

theorem signEnding_append_inj {op op' : Operator} (hop : op ∈ Operator.inline)
    (hop' : op' ∈ Operator.inline) {s t : List UInt8} (h : signEnding op ++ s = signEnding op' ++ t) :
    op = op' ∧ s = t := by
  obtain ⟨hadd, hsub, hmul⟩ := signEnding_eq
  simp only [Operator.inline, List.mem_cons, List.not_mem_nil, or_false] at hop hop'
  rcases hop with rfl | rfl | rfl <;> rcases hop' with rfl | rfl | rfl <;>
    simp_all

theorem ending_inline {op : Operator} (hop : op ∈ Operator.inline) {l r : Expr α}
    (hneg : (bin op l r).isNegation = false) : (bin op l r).ending 0 =
      r.ending (op.precedence + 1) ++ (signEnding op ++ l.ending op.precedence) := by
  have hrender : (bin op l r).renderLatex 0 =
      l.renderLatex op.precedence ++ latexSign op ++ r.renderLatex (op.precedence + 1) := by
    simp only [Operator.inline, List.mem_cons, List.not_mem_nil, or_false] at hop
    rcases hop with rfl | rfl | rfl
    · rfl
    · rfl
    · rw [renderLatex, hneg]
      · rfl
      · simp
      · simp
  rw [ending, hrender, Utf8.backward_append, Utf8.backward_append]
  rfl

theorem head_signEnding {op : Operator} (hop : op ∈ Operator.inline) (s : List UInt8) :
    (signEnding op ++ s).head? = some 32 := by
  obtain ⟨hadd, hsub, hmul⟩ := signEnding_eq
  simp only [Operator.inline, List.mem_cons, List.not_mem_nil, or_false] at hop
  rcases hop with rfl | rfl | rfl <;> simp [*]

/-- What may stand in front of a formula that has to bind at `min`, from its end. -/
inductive Opening : (min : ℕ) → List UInt8 → Prop
  /-- Nothing. -/
  | start {min : ℕ} : Opening min []
  /-- An opening bracket or brace. -/
  | bracket {min : ℕ} {b : UInt8} {s : List UInt8} : b = 40 ∨ b = 123 → Opening min (b :: s)
  /-- The sign of an operator whose right operand follows. -/
  | sign {min : ℕ} {op : Operator} {s : List UInt8} : op ∈ Operator.inline → op.precedence < min →
    Opening min (signEnding op ++ s)

namespace Opening

variable {s : List UInt8}

theorem mono {min' : ℕ} (h : Opening min s) (hle : min ≤ min') : Opening min' s := by
  cases h with
  | start => exact start
  | bracket hb => exact bracket hb
  | sign hop hlt => exact sign hop (lt_of_lt_of_le hlt hle)

theorem head (h : Opening min s) : ∀ b ∈ s.head?, b = 40 ∨ b = 123 ∨ b = 32 := by
  cases h with
  | start => exact fun b hb => absurd hb (by simp)
  | bracket hb =>
    rintro b ⟨⟩
    exact hb.imp_right Or.inl
  | sign hop hlt =>
    intro b hb
    rw [head_signEnding hop] at hb
    cases hb
    exact Or.inr (Or.inr rfl)

theorem not_numeral (h : Opening min s) : ∀ b ∈ s.head?, isNumeralByte b = false := fun b hb => by
  rcases h.head b hb with rfl | rfl | rfl <;> decide

theorem not_letter (h : Opening min s) : ∀ b ∈ s.head?, isLetter b = false := fun b hb => by
  rcases h.head b hb with rfl | rfl | rfl <;> decide

/-- A formula that binds at least as tightly as an operator has to does not stand behind its sign. -/
theorem not_sign {op : Operator} (hop : op ∈ Operator.inline) (hle : min ≤ op.precedence) :
    ¬Opening min (signEnding op ++ s) := by
  intro h
  have hhead := head_signEnding hop s
  generalize hu : signEnding op ++ s = u at h hhead
  cases h with
  | start => cases hhead
  | bracket hb =>
    cases hhead
    rcases hb with hb | hb <;> exact absurd hb (by decide)
  | sign hop' hlt =>
    obtain ⟨rfl, -⟩ := signEnding_append_inj hop hop' hu
    omega

end Opening

/-! ## One formula after the other -/

/-- Behind whatever may stand in front of them, equal formulas come from the same tree. -/
def Reads (min : ℕ) (a b : Expr α) : Prop :=
  ∀ s t, Opening min s → Opening min t → a.ending min ++ s = b.ending min ++ t →
    a.same b = true ∧ s = t

section Cases

variable {a b l l' r r' : Expr α} {op op' : Operator}

theorem Reads.group (ha : a.tightness < min) (hb : b.tightness < min)
    (hmin : min ≤ Operator.atomPrecedence) (h : Reads 0 a b) : Reads min a b := by
  intro s t _ _ heq
  rw [ending_of_lt ha hmin, ending_of_lt hb hmin] at heq
  simp only [List.append_assoc, List.append_cancel_left_eq] at heq
  obtain ⟨hsame, heq⟩ := h _ _ (.bracket (Or.inl rfl)) (.bracket (Or.inl rfl)) heq
  exact ⟨hsame, List.append_cancel_left (show opening ++ s = opening ++ t from heq)⟩

theorem Reads.pending (hmin : min ≤ Operator.atomPrecedence) (h : Reads 0 a b) :
    Reads min (pending a) (pending b) := by
  intro s t _ _ heq
  rw [ending_of_le hmin hmin, ending_of_le hmin hmin, ending_pending, ending_pending] at heq
  simp only [List.cons_append, List.append_assoc, List.cons.injEq, List.append_cancel_left_eq,
    true_and] at heq
  obtain ⟨hsame, heq⟩ := h _ _ (.bracket (Or.inl rfl)) (.bracket (Or.inl rfl)) heq
  exact ⟨hsame, List.append_cancel_left (show opening ++ s = opening ++ t from heq)⟩

theorem same_bin_iff : (bin op l r).same (bin op' l' r') = true ↔
    op = op' ∧ l.same l' = true ∧ r.same r' = true := by
  rw [same, Bool.and_eq_true, Bool.and_eq_true, beq_iff_eq, and_assoc]

theorem pow_precedence_le : Operator.pow.precedence ≤ Operator.atomPrecedence := by decide

/-- Fractions and powers end in the braces of an operand; what stands in front of them tells which. -/
theorem Reads.braced (hop : op = .div ∨ op = .pow) (hop' : op' = .div ∨ op' = .pow)
    (hmin : min ≤ Operator.pow.precedence) (hfraction : Reads 0 l l')
    (hbase : Reads Operator.atomPrecedence l l') (hr : Reads 0 r r') :
    Reads min (bin op l r) (bin op' l' r') := by
  have hatom := pow_precedence_le
  intro s t hs ht heq
  rcases hop with rfl | rfl <;> rcases hop' with rfl | rfl <;>
    rw [ending_of_le hmin (hmin.trans hatom), ending_of_le hmin (hmin.trans hatom)] at heq
  · rw [ending_div, ending_div] at heq
    simp only [List.cons_append, List.append_assoc, List.cons.injEq, true_and, List.nil_append] at heq
    obtain ⟨hright, heq⟩ := hr _ _ (.bracket (Or.inr rfl)) (.bracket (Or.inr rfl)) heq
    obtain ⟨hleft, heq⟩ := hfraction _ _ (.bracket (Or.inr rfl)) (.bracket (Or.inr rfl))
      (List.cons.inj (List.cons.inj heq).2).2
    exact ⟨same_bin_iff.mpr ⟨rfl, hleft, hright⟩, by simpa using heq⟩
  · rw [ending_div, ending_pow] at heq
    simp only [List.cons_append, List.append_assoc, List.cons.injEq, true_and] at heq
    have h := (hr _ _ (.bracket (Or.inr rfl)) (.bracket (Or.inr rfl)) heq).2
    simp at h
  · rw [ending_pow, ending_div] at heq
    simp only [List.cons_append, List.append_assoc, List.cons.injEq, true_and] at heq
    have h := (hr _ _ (.bracket (Or.inr rfl)) (.bracket (Or.inr rfl)) heq).2
    simp at h
  · rw [ending_pow, ending_pow] at heq
    simp only [List.cons_append, List.append_assoc, List.cons.injEq, true_and] at heq
    obtain ⟨hright, heq⟩ := hr _ _ (.bracket (Or.inr rfl)) (.bracket (Or.inr rfl)) heq
    obtain ⟨hleft, heq⟩ := hbase s t (hs.mono (hmin.trans hatom)) (ht.mono (hmin.trans hatom))
      (List.cons.inj (List.cons.inj heq).2).2
    exact ⟨same_bin_iff.mpr ⟨rfl, hleft, hright⟩, heq⟩

omit [Scalar α] in
theorem tightness_inline (hop : op ∈ Operator.inline) :
    (bin op l r).tightness = op.precedence ∧ op.precedence < Operator.pow.precedence := by
  simp only [Operator.inline, List.mem_cons, List.not_mem_nil, or_false] at hop
  rcases hop with rfl | rfl | rfl <;> exact ⟨rfl, by decide⟩

theorem ending_inline_of_le (hop : op ∈ Operator.inline) (hneg : (bin op l r).isNegation = false)
    (hmin : min ≤ op.precedence) : (bin op l r).ending min =
      r.ending (op.precedence + 1) ++ (signEnding op ++ l.ending op.precedence) := by
  obtain ⟨htight, hlt⟩ := tightness_inline (l := l) (r := r) hop
  rw [ending_of_le (hmin.trans htight.ge) ((hmin.trans hlt.le).trans pow_precedence_le),
    ending_inline hop hneg]

theorem ending_inline_congr (hop : op ∈ Operator.inline) (hneg : (bin op l r).isNegation = false)
    {m : ℕ} (hmin : min ≤ op.precedence) (hm : m ≤ op.precedence) :
    (bin op l r).ending min = (bin op l r).ending m := by
  rw [ending_inline_of_le hop hneg hmin, ending_inline_of_le hop hneg hm]

/-- Two operators that bind equally tightly: the right operands agree, then the signs, then the left
operands. -/
theorem Reads.inline (hop : op ∈ Operator.inline) (hop' : op' ∈ Operator.inline)
    (hneg : (bin op l r).isNegation = false) (hneg' : (bin op' l' r').isNegation = false)
    (hprec : op.precedence = op'.precedence) (hmin : min ≤ op.precedence)
    (hl : Reads op.precedence l l') (hr : Reads (op.precedence + 1) r r') :
    Reads min (bin op l r) (bin op' l' r') := by
  intro s t hs ht heq
  rw [ending_inline_of_le hop hneg hmin, ending_inline_of_le hop' hneg' (hprec ▸ hmin), ← hprec,
    List.append_assoc, List.append_assoc, List.append_assoc, List.append_assoc] at heq
  obtain ⟨hright, heq⟩ := hr _ _ (.sign hop (Nat.lt_succ_self _))
    (.sign hop' (hprec ▸ Nat.lt_succ_self _)) heq
  obtain ⟨rfl, hrest⟩ := signEnding_append_inj hop hop' heq
  obtain ⟨hleft, rfl⟩ := hl s t (hs.mono hmin) (ht.mono hmin) hrest
  exact ⟨same_bin_iff.mpr ⟨rfl, hleft, hright⟩, rfl⟩

/-- A formula that binds more tightly than an operator is no formula of that operator: it would be the
right operand, and stand behind the sign. -/
theorem ending_inline_ne (hop : op ∈ Operator.inline) (hneg : (bin op l r).isNegation = false)
    (hmin : min ≤ op.precedence) (hb : b.ending min = b.ending (op.precedence + 1))
    (hr : Reads (op.precedence + 1) r b ∨ Reads (op.precedence + 1) b r) {s t : List UInt8}
    (ht : Opening min t) : (bin op l r).ending min ++ s ≠ b.ending min ++ t := by
  intro heq
  have hsign : Opening (op.precedence + 1) (signEnding op ++ (l.ending op.precedence ++ s)) :=
    .sign hop (Nat.lt_succ_self _)
  have ht' : Opening (op.precedence + 1) t := ht.mono (Nat.le_succ_of_le hmin)
  rw [ending_inline_of_le hop hneg hmin, hb, List.append_assoc, List.append_assoc] at heq
  have hst : signEnding op ++ (l.ending op.precedence ++ s) = t := by
    rcases hr with hr | hr
    · exact (hr _ _ hsign ht' heq).2
    · exact (hr _ _ ht' hsign heq.symm).2.symm
  exact Opening.not_sign hop hmin (hst ▸ ht)

end Cases

end Ending

/-! ## All formulas -/

section Numbers

variable [NumeralScalar α] {min : ℕ} {a b e : Expr α}

theorem Reads.num {v w : α} (hv : Scalar.IsFinite v) (hw : Scalar.IsFinite w) :
    Reads min (num v) (num w) := by
  intro s t hs ht heq
  rcases NumeralScalar.text_append_cases hv hw hs.not_numeral ht.not_numeral heq with
    ⟨htext, rfl⟩ | ⟨-, rfl⟩ | ⟨-, rfl⟩
  · exact ⟨(NumeralScalar.text_eq_iff v w hv hw).mp htext, rfl⟩
  · rcases ht.head 45 rfl with h | h | h <;> exact absurd h (by decide)
  · rcases hs.head 45 rfl with h | h | h <;> exact absurd h (by decide)

omit [NumeralScalar α] in
theorem Reads.var [Scalar α] {x y : String} (hx : (Utf8.bytes x).all isLetter = true)
    (hy : (Utf8.bytes y).all isLetter = true) : Reads min (var x : Expr α) (var y) := by
  intro s t hs ht heq
  have hrun : ∀ {z : String}, (Utf8.bytes z).all isLetter = true →
      ∀ c ∈ Utf8.backward z, isLetter c = true := fun hz c hc =>
    List.all_eq_true.mp hz c (List.mem_reverse.mp hc)
  obtain ⟨hxy, hst⟩ := run_append_inj (hrun hx) (hrun hy) hs.not_letter ht.not_letter heq
  exact ⟨beq_iff_eq.mpr (Utf8.backward_injective hxy), hst⟩

/-- What the last byte of a formula tells about it. -/
inductive Last where
  | name
  | numeral
  | brace
  | prime
  | parenthesis
deriving DecidableEq

/-- What a byte tells about the formula that ends in it. A name may be empty, and then the formula ends in
what stands in front of it. -/
def Last.ofByte? : Option UInt8 → Last
  | none => .name
  | some b =>
    if isNumeralByte b then .numeral
    else if b = 125 then .brace
    else if b = 39 then .prime
    else if b = 41 then .parenthesis
    else .name

theorem Last.ofByte?_of_letter {b : UInt8} (h : isLetter b = true) : ofByte? (some b) = .name := by
  have hall : ∀ b : UInt8, isLetter b = true → ofByte? (some b) = .name := by decide +kernel
  exact hall b h

theorem Last.ofByte?_of_numeral {b : UInt8} (h : isNumeralByte b = true) :
    ofByte? (some b) = .numeral := if_pos h

theorem Opening.ofByte?_head {s : List UInt8} (h : Opening min s) : Last.ofByte? s.head? = .name := by
  have hhead := h.head
  cases s with
  | nil => rfl
  | cons b s => rcases hhead b rfl with rfl | rfl | rfl <;> rfl

/-- How a formula without an operator between operands ends. -/
def last : Expr α → Last
  | .num _ => .numeral
  | .var _ => .name
  | .pending _ => .prime
  | _ => .brace

/-- The formula needs parentheses, or it holds together as tightly as a power. -/
def Compact (min : ℕ) (e : Expr α) : Prop :=
  e.tightness < min ∨ Operator.pow.precedence ≤ e.tightness

theorem Unnegated.cases_bin {op : Operator} {l r : Expr α} (h : (bin op l r).Unnegated) :
    op ∈ Operator.inline ∨ op = .div ∨ op = .pow := by
  have hop := h.1
  simp only [Operator.standard, List.mem_cons, List.not_mem_nil, or_false] at hop
  rcases hop with rfl | rfl | rfl | rfl | rfl <;> simp [Operator.inline]

theorem Unnegated.braced_of_tight {op : Operator} {l r : Expr α} (h : (bin op l r).Unnegated)
    (htight : Operator.pow.precedence ≤ (bin op l r).tightness) : op = .div ∨ op = .pow := by
  refine h.cases_bin.resolve_left fun hop => ?_
  obtain ⟨heq, hlt⟩ := tightness_inline (l := l) (r := r) hop
  omega

theorem ofByte?_ending (he : e.Unnegated) (htight : Operator.pow.precedence ≤ e.tightness)
    {s : List UInt8} (hs : Opening min s) : Last.ofByte? (e.ending 0 ++ s).head? = e.last := by
  cases e with
  | num v =>
    obtain ⟨body, hbody, htext⟩ := NumeralScalar.text_numeral v he
    have hne := hbody.backward_ne_nil
    have hnumeral := hbody.isNumeralByte
    have hending : ∃ sign, (num v).ending 0 = Utf8.backward body ++ sign := by
      rcases htext with htext | htext
      · exact ⟨[], by rw [ending, renderLatex, htext, List.append_nil]⟩
      · exact ⟨[45], by rw [ending, renderLatex, htext, Utf8.backward_minus_append]⟩
    obtain ⟨sign, hending⟩ := hending
    rw [hending]
    cases hrun : Utf8.backward body with
    | nil => exact absurd hrun hne
    | cons b more =>
      exact Last.ofByte?_of_numeral (hnumeral b (hrun ▸ List.mem_cons_self ..))
  | var x =>
    show Last.ofByte? (Utf8.backward x ++ s).head? = .name
    cases hrun : Utf8.backward x with
    | nil => exact hs.ofByte?_head
    | cons b more =>
      have hmem : b ∈ Utf8.bytes x := by
        rw [← List.mem_reverse]
        exact (hrun ▸ List.mem_cons_self .. : b ∈ Utf8.backward x)
      exact Last.ofByte?_of_letter (List.all_eq_true.mp he b hmem)
  | pending t =>
    rw [ending_pending]
    rfl
  | bin op l r =>
    rcases he.braced_of_tight htight with rfl | rfl
    · rw [ending_div]
      rfl
    · rw [ending_pow]
      rfl
  | hole => exact he.elim

theorem ofByte?_ending_of_lt (h : e.tightness < min) (hmin : min ≤ Operator.atomPrecedence)
    (s : List UInt8) : Last.ofByte? (e.ending min ++ s).head? = .parenthesis := by
  rw [ending_of_lt h hmin]
  rfl

/-- An operator between its operands, or a formula that reads the same wherever it stands. -/
theorem Unnegated.inline_or_compact (he : e.Unnegated) (min : ℕ) :
    (∃ op l r, e = bin op l r ∧ op ∈ Operator.inline ∧ min ≤ op.precedence) ∨ e.Compact min := by
  by_cases htight : min ≤ e.tightness
  · cases e with
    | bin op l r =>
      rcases he.cases_bin with hop | rfl | rfl
      · obtain ⟨heq, -⟩ := tightness_inline (l := l) (r := r) hop
        exact Or.inl ⟨op, l, r, rfl, hop, heq ▸ htight⟩
      · exact Or.inr (Or.inr le_rfl)
      · exact Or.inr (Or.inr le_rfl)
    | _ => exact Or.inr (Or.inr pow_precedence_le)
  · exact Or.inr (Or.inl (Nat.lt_of_not_le htight))

omit [NumeralScalar α] in
theorem Compact.ending_eq [Scalar α] {m : ℕ} (h : e.Compact min) (hle : min ≤ m)
    (hm : m ≤ Operator.pow.precedence) : e.ending min = e.ending m := by
  have hatom := hm.trans pow_precedence_le
  rcases h with h | h
  · rw [ending_of_lt h (hle.trans hatom), ending_of_lt (h.trans_le hle) hatom]
  · rw [ending_of_le (hle.trans (hm.trans h)) (hle.trans hatom), ending_of_le (hm.trans h) hatom]

/-- Pairs of trees of smaller total size are read wherever they stand. -/
def SmallerRead (a b : Expr α) : Prop :=
  ∀ a' b' : Expr α, a'.Unnegated → b'.Unnegated → sizeOf a' + sizeOf b' < sizeOf a + sizeOf b →
    ∀ m ≤ Operator.atomPrecedence, Reads m a' b'

/-- Two formulas that hold together as tightly as powers. Their last bytes tell of which kind they are. -/
theorem reads_of_tight (ha : a.Unnegated) (hb : b.Unnegated) (hta : Operator.pow.precedence ≤ a.tightness)
    (htb : Operator.pow.precedence ≤ b.tightness) (hmina : min ≤ a.tightness) (hminb : min ≤ b.tightness)
    (hmin : min ≤ Operator.atomPrecedence) (ih : SmallerRead a b) : Reads min a b := by
  intro s t hs ht heq
  have hlast : a.last = b.last := by
    have hbyte := congrArg (fun u => Last.ofByte? u.head?) heq
    rwa [ending_of_le hmina hmin, ending_of_le hminb hmin, ofByte?_ending ha hta hs,
      ofByte?_ending hb htb ht] at hbyte
  cases a with
  | num v =>
    cases b with
    | num w => exact Reads.num ha hb s t hs ht heq
    | _ => cases hlast
  | var x =>
    cases b with
    | var y => exact Reads.var ha hb s t hs ht heq
    | _ => cases hlast
  | pending u =>
    cases b with
    | pending u' =>
      refine Reads.pending hmin (ih u u' ha hb ?_ 0 (Nat.zero_le _)) s t hs ht heq
      simp only [pending.sizeOf_spec]
      omega
    | _ => cases hlast
  | bin op l r =>
    cases b with
    | bin op' l' r' =>
      have hop := ha.braced_of_tight hta
      have hpow : min ≤ Operator.pow.precedence := by
        refine hmina.trans ?_
        rcases hop with rfl | rfl <;> exact le_rfl
      have hl : ∀ m ≤ Operator.atomPrecedence, Reads m l l' :=
        ih l l' ha.2.2.1 hb.2.2.1 (by simp only [bin.sizeOf_spec]; omega)
      have hr : ∀ m ≤ Operator.atomPrecedence, Reads m r r' :=
        ih r r' ha.2.2.2 hb.2.2.2 (by simp only [bin.sizeOf_spec]; omega)
      exact Reads.braced hop (hb.braced_of_tight htb) hpow (hl 0 (Nat.zero_le _)) (hl _ le_rfl)
        (hr 0 (Nat.zero_le _)) s t hs ht heq
    | hole => exact hb.elim
    | _ => cases hlast
  | hole => exact ha.elim

/-- Two compact formulas. One in parentheses ends in no byte in which one without them ends. -/
theorem Compact.reads (ha : a.Unnegated) (hb : b.Unnegated) (hca : a.Compact min)
    (hcb : b.Compact min) (hmin : min ≤ Operator.atomPrecedence) (ih : SmallerRead a b)
    (hgroup : a.tightness < min → Reads 0 a b) : Reads min a b := by
  by_cases hga : a.tightness < min <;> by_cases hgb : b.tightness < min
  · exact Reads.group hga hgb hmin (hgroup hga)
  · intro s t hs ht heq
    have hlast := congrArg (fun u => Last.ofByte? u.head?) heq
    rw [ofByte?_ending_of_lt hga hmin, ending_of_le (Nat.le_of_not_lt hgb) hmin,
      ofByte?_ending hb (hcb.resolve_left hgb) ht] at hlast
    cases b <;> cases hlast
  · intro s t hs ht heq
    have hlast := congrArg (fun u => Last.ofByte? u.head?) heq
    rw [ofByte?_ending_of_lt hgb hmin, ending_of_le (Nat.le_of_not_lt hga) hmin,
      ofByte?_ending ha (hca.resolve_left hga) hs] at hlast
    cases a <;> cases hlast
  · exact reads_of_tight ha hb (hca.resolve_left hga) (hcb.resolve_left hgb) (Nat.le_of_not_lt hga)
      (Nat.le_of_not_lt hgb) hmin ih

/-- The step of the induction: formulas are read if those of smaller trees are, and, where both are in
parentheses, those inside. -/
theorem reads_step (ha : a.Unnegated) (hb : b.Unnegated) (hmin : min ≤ Operator.atomPrecedence)
    (ih : SmallerRead a b) (hgroup : a.tightness < min → Reads 0 a b) : Reads min a b := by
  rcases ha.inline_or_compact min with ⟨op, l, r, rfl, hop, hle⟩ | hca <;>
    rcases hb.inline_or_compact min with ⟨op', l', r', rfl, hop', hle'⟩ | hcb
  · have hlt := (tightness_inline (l := l) (r := r) hop).2.trans_le pow_precedence_le
    have hlt' := (tightness_inline (l := l') (r := r') hop').2.trans_le pow_precedence_le
    -- the operator that binds less tightly is found first, in one of the two trees or in both
    rcases lt_trichotomy op.precedence op'.precedence with hprec | hprec | hprec
    · refine fun s t hs ht heq => absurd heq (ending_inline_ne hop ha.2.1 hle
        (ending_inline_congr hop' hb.2.1 hle' hprec) (Or.inl ?_) ht)
      exact ih r _ ha.2.2.2 hb (by simp only [bin.sizeOf_spec]; omega) _ hlt
    · refine Reads.inline hop hop' ha.2.1 hb.2.1 hprec hle ?_ ?_
      · exact ih l l' ha.2.2.1 hb.2.2.1 (by simp only [bin.sizeOf_spec]; omega) _ hlt.le
      · exact ih r r' ha.2.2.2 hb.2.2.2 (by simp only [bin.sizeOf_spec]; omega) _ hlt
    · refine fun s t hs ht heq => absurd heq.symm (ending_inline_ne hop' hb.2.1 hle'
        (ending_inline_congr hop ha.2.1 hle hprec) (Or.inr ?_) hs)
      exact ih _ r' ha hb.2.2.2 (by simp only [bin.sizeOf_spec]; omega) _ hlt'
  · have hlt := (tightness_inline (l := l) (r := r) hop).2
    refine fun s t hs ht heq => absurd heq (ending_inline_ne hop ha.2.1 hle
      (hcb.ending_eq (Nat.le_succ_of_le hle) hlt) (Or.inl ?_) ht)
    exact ih r b ha.2.2.2 hb (by simp only [bin.sizeOf_spec]; omega) _
      (hlt.trans_le pow_precedence_le)
  · have hlt := (tightness_inline (l := l') (r := r') hop').2
    refine fun s t hs ht heq => absurd heq.symm (ending_inline_ne hop' hb.2.1 hle'
      (hca.ending_eq (Nat.le_succ_of_le hle') hlt) (Or.inr ?_) hs)
    exact ih a r' ha hb.2.2.2 (by simp only [bin.sizeOf_spec]; omega) _
      (hlt.trans_le pow_precedence_le)
  · exact hca.reads ha hb hcb hmin ih hgroup

theorem reads (ha : a.Unnegated) (hb : b.Unnegated) (hmin : min ≤ Operator.atomPrecedence) :
    Reads min a b := by
  induction hn : sizeOf a + sizeOf b using Nat.strong_induction_on generalizing a b min with
  | _ n ih =>
    subst hn
    have hsmaller : SmallerRead a b := fun a' b' ha' hb' hlt m hm => ih _ hlt ha' hb' hm rfl
    have hwhole : Reads 0 a b :=
      reads_step ha hb (Nat.zero_le _) hsmaller fun h => absurd h (Nat.not_lt_zero _)
    exact reads_step ha hb hmin hsmaller fun _ => hwhole

theorem Unnegated.latex_eq (h : e.Unnegated) : e.latex = e.renderLatex 0 := by
  rw [latex, if_pos h.isWhole]

/-- Trees that are the same have the same formula. -/
theorem Unnegated.renderLatex_congr (ha : a.Unnegated) (hb : b.Unnegated) (h : a.same b = true) :
    a.renderLatex min = b.renderLatex min := by
  induction a generalizing b min with
  | num v =>
    cases b with
    | num w => exact (NumeralScalar.text_eq_iff v w ha hb).mpr h
    | _ => cases h
  | var x =>
    cases b with
    | var y => exact beq_iff_eq.mp h
    | _ => cases h
  | bin op l r ihl ihr =>
    cases b with
    | bin op' l' r' =>
      obtain ⟨rfl, hl, hr⟩ := same_bin_iff.mp h
      obtain ⟨-, hneg, hal, har⟩ := ha
      obtain ⟨-, hneg', hbl, hbr⟩ := hb
      cases op <;>
        simp only [renderLatex, hneg, hneg', ihl hal hbl hl, ihr har hbr hr]
    | _ => cases h
  | pending t ih =>
    cases b with
    | pending t' =>
      have ht : t.renderLatex 0 = t'.renderLatex 0 := ih ha hb h
      rw [renderLatex, renderLatex, ht]
    | _ => cases h
  | hole => exact ha.elim

theorem Unnegated.latex_eq_iff (ha : a.Unnegated) (hb : b.Unnegated) :
    a.latex = b.latex ↔ a.same b = true := by
  rw [ha.latex_eq, hb.latex_eq]
  refine ⟨fun h => ?_, ha.renderLatex_congr hb⟩
  have hending : a.ending 0 ++ [] = b.ending 0 ++ [] := by rw [ending, ending, h]
  exact (reads ha hb (Nat.zero_le _) [] [] .start .start hending).1

end Numbers

/-- Formulas are unambiguous: trees that can be shown have the same formula exactly when they are the same
tree, numbers being compared as scalars are. -/
theorem latex_eq_iff_same [DisplayScalar α] {a b : Expr α} (ha : a.Displayable) (hb : b.Displayable) :
    a.latex = b.latex ↔ a.same b = true :=
  ha.unnegated.latex_eq_iff hb.unnegated

/-- Two zeros with different signs are written alike and compare equal. -/
theorem latex_eq_iff_same_zeros :
    let shown (zero : Float) : Expr Float :=
      pow (div (num 2) (pending (sub (var "x") (num zero)))) (-3)
    ((shown 0).Displayable ∧ (shown (-0)).Displayable) ∧
      ((shown 0).latex = (shown (-0)).latex ↔ (shown 0).same (shown (-0)) = true) := by
  intro shown
  have hshown : ∀ zero : Float, (num zero : Expr Float).Displayable → (shown zero).Displayable := by
    intro zero hzero
    have hdifference : (sub (var "x") (num zero) : Expr Float).Displayable :=
      ⟨by decide, show (Utf8.bytes "x").all isLetter = true by decide +kernel, hzero⟩
    have htwo : (num 2 : Expr Float).Displayable := ⟨by decide +kernel, by decide +kernel⟩
    exact ⟨⟨by decide, htwo, hdifference⟩, show Scalar.IsFinite (-3 : Float) by decide +kernel⟩
  have h : (shown 0).Displayable ∧ (shown (-0)).Displayable :=
    ⟨hshown 0 ⟨by decide +kernel, by decide +kernel⟩,
      hshown (-0) ⟨by decide +kernel, by decide +kernel⟩⟩
  exact ⟨h, latex_eq_iff_same h.1 h.2⟩

end Expr

end Fluxion
