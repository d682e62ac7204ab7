import Fluxion.Expr.Print
import Fluxion.Proofs.Decimal.Floating
import Fluxion.Proofs.Grammar.Recognition
import Fluxion.Proofs.Numbers
import Fluxion.Proofs.Token.Partition

/-!
# No text has fewer parentheses

`Expr.parentheses min e` counts the pairs of parentheses without which `e` would fall apart at a place for
bindings of at least `min`. The printer writes no others. A derivation cannot do with fewer: its
categories are the places, and the only production that leads from a tight binding back to a loose one
derives a pair of parentheses. So no text is read as the same tree with fewer parentheses than are
printed.
-/

namespace Fluxion

open Grammar

/-- The byte of an opening parenthesis. -/
def openingByte : UInt8 := 0x28

variable {α : Type}

namespace Expr

/-- The pairs of parentheses that a tree needs where a binding of at least `min` is needed. -/
def parentheses (min : ℕ) : Expr α → ℕ
  | num _ => 0
  | var _ => 0
  | bin op l r => (if op.precedence < min then 1 else 0) + l.parentheses (leftLevel op) +
      r.parentheses (op.precedence + 1)
  | pending t => 1 + t.parentheses 0
  | hole => 0

theorem parentheses_mono (e : Expr α) {min min' : ℕ} (h : min ≤ min') :
    e.parentheses min ≤ e.parentheses min' := by
  cases e with
  | bin op l r =>
    unfold parentheses
    split_ifs <;> omega
  | _ => exact le_refl _

/-- One pair around a tree makes it fit anywhere. -/
theorem parentheses_le_succ (e : Expr α) (min min' : ℕ) :
    e.parentheses min' ≤ e.parentheses min + 1 := by
  cases e with
  | bin op l r =>
    unfold parentheses
    split_ifs <;> omega
  | _ => exact Nat.le_succ _

/-- Trees that are the same differ in their numbers at most. -/
theorem congr_of_same [BEq α] {e m : Expr α} (h : e.same m = true) :
    e.isWhole = m.isWhole ∧ e.names = m.names ∧ ∀ min, e.parentheses min = m.parentheses min := by
  induction e generalizing m with
  | num v => cases m <;> simp_all [same, isWhole, names, parentheses]
  | var x => cases m <;> simp_all [same, isWhole, names, parentheses]
  | bin op l r ihl ihr =>
    cases m with
    | bin op' l' r' =>
      rw [same, Bool.and_eq_true, Bool.and_eq_true, beq_iff_eq] at h
      obtain ⟨⟨rfl, hl⟩, hr⟩ := h
      obtain ⟨hwl, hnl, hpl⟩ := ihl hl
      obtain ⟨hwr, hnr, hpr⟩ := ihr hr
      refine ⟨?_, ?_, fun min => ?_⟩
      · rw [isWhole, isWhole, hwl, hwr]
      · rw [names, names, hnl, hnr]
      · rw [parentheses, parentheses, hpl, hpr]
    | _ => cases h
  | pending t ih =>
    cases m with
    | pending t' =>
      obtain ⟨hw, hn, hp⟩ := ih h
      refine ⟨hw, hn, fun min => ?_⟩
      rw [parentheses, parentheses, hp]
    | _ => cases h
  | hole => cases m <;> simp_all [same, isWhole, names, parentheses]

end Expr

/-! ## What is printed -/

theorem count_bytes_append (s t : String) (b : UInt8) :
    (Utf8.bytes (s ++ t)).count b = (Utf8.bytes s).count b + (Utf8.bytes t).count b := by
  rw [Utf8.bytes_append, List.count_append]

theorem count_bytes_symbol (op : Operator) : (Utf8.bytes op.symbol).count openingByte = 0 := by
  cases op with
  | other code =>
    have hunknown : (Utf8.bytes "?").count openingByte = 0 := by decide +kernel
    exact hunknown
  | _ => decide +kernel

/-- A numeral has no parenthesis. -/
theorem Numeral.IsPlain.count_opening {s : String} (h : Numeral.IsPlain s) :
    (Utf8.bytes s).count openingByte = 0 := by
  obtain ⟨whole, fraction, -, hwhole, hfraction, hbytes⟩ := h
  have hdigit : ∀ bs : List UInt8, (∀ b ∈ bs, isDigit b = true) → openingByte ∉ bs :=
    fun bs hbs hmem => absurd (hbs _ hmem) (by decide)
  have hpoint : openingByte ≠ pointByte := by decide
  rw [List.count_eq_zero]
  rcases hbytes with hbytes | hbytes
  · rw [hbytes]
    exact hdigit whole hwhole
  · rw [hbytes, List.mem_append, List.mem_cons]
    rintro (hmem | hmem | hmem)
    · exact hdigit whole hwhole hmem
    · exact hpoint hmem
    · exact hdigit fraction hfraction hmem

namespace Expr

theorem count_enclose (min prec : ℕ) (s : String) :
    (Utf8.bytes (enclose min prec s)).count openingByte =
      (if prec < min then 1 else 0) + (Utf8.bytes s).count openingByte := by
  have hopening : (Utf8.bytes "(").count openingByte = 1 := by decide +kernel
  have hclosing : (Utf8.bytes ")").count openingByte = 0 := by decide +kernel
  unfold enclose
  split
  · rw [count_bytes_append, count_bytes_append, hopening, hclosing, Nat.add_zero]
  · rw [Nat.zero_add]

/-- The printer writes no parentheses but those that are needed. -/
theorem count_render_le [DecimalScalar α] {e : Expr α}
    (hfinite : e.EveryNumber (Scalar.isFinite · = true)) (hnames : e.Lettered) (min : ℕ) :
    (Utf8.bytes (e.render min)).count openingByte ≤ e.parentheses min := by
  induction e generalizing min with
  | num v =>
    obtain ⟨body, hplain, htext | htext⟩ := DecimalScalar.exists_numeral v hfinite
    · rw [render, htext, hplain.count_opening]
      exact Nat.zero_le _
    · have hminus : (Utf8.bytes "-").count openingByte = 0 := by decide +kernel
      rw [render, htext, count_bytes_append, hminus, hplain.count_opening]
      exact Nat.zero_le _
  | var x =>
    have hletters := hnames x (List.mem_singleton_self x)
    rw [render, List.count_eq_zero_of_not_mem fun hmem =>
      absurd (List.all_eq_true.mp hletters _ hmem) (by decide)]
    exact Nat.zero_le _
  | bin op l r ihl ihr =>
    obtain ⟨hnl, hnr⟩ := lettered_bin.mp hnames
    have hl := ihl hfinite.1 hnl
    have hr := ihr hfinite.2 hnr
    rw [render, parentheses]
    split
    · -- a negation writes its operand only, and at a looser place
      have hminus : (Utf8.bytes "-").count openingByte = 0 := by decide +kernel
      have hloose := r.parentheses_mono (Nat.le_add_right op.precedence 1)
      have hright := hr op.precedence
      rw [count_enclose, count_bytes_append, hminus]
      omega
    · have hleft := hl (leftLevel op)
      have hright := hr (op.precedence + 1)
      rw [count_enclose, count_bytes_append, count_bytes_append, count_bytes_symbol]
      omega
  | pending t ih =>
    have hopening : (Utf8.bytes "(").count openingByte = 1 := by decide +kernel
    have hprime : (Utf8.bytes ")'").count openingByte = 0 := by decide +kernel
    have ht := ih hfinite hnames 0
    rw [render, parentheses, count_bytes_append, count_bytes_append, hopening, hprime]
    omega
  | hole =>
    have hempty : (Utf8.bytes "").count openingByte = 0 := by decide +kernel
    exact le_of_eq hempty

end Expr

/-! ## What a derivation cannot do without -/

namespace Grammar

theorem parentheses_sum (sign : Sign) (l r : Expr α) :
    (Expr.bin sign.operator l r).parentheses 2 = l.parentheses 2 + r.parentheses 3 := by
  cases sign <;> exact congrArg (· + _) (Nat.zero_add _)

theorem parentheses_product (scaling : Scaling) (l r : Expr α) :
    (Expr.bin scaling.operator l r).parentheses 3 = l.parentheses 3 + r.parentheses 4 := by
  cases scaling <;> exact congrArg (· + _) (Nat.zero_add _)

theorem parentheses_power (b : Expr α) (v : α) :
    (Expr.pow b v).parentheses 4 = b.parentheses 5 := Nat.zero_add _

/-- What ends with a repetition begins with an operand at a tighter place. -/
theorem parentheses_chain_le {min n k : ℕ} {e : Expr α} {f : Expr α → Expr α}
    (he : e.parentheses (min + 1) ≤ n)
    (hf : ∀ left : Expr α, (f left).parentheses min ≤ left.parentheses min + k) :
    (f e).parentheses min ≤ n + k := by
  calc (f e).parentheses min
      ≤ e.parentheses min + k := hf e
    _ ≤ e.parentheses (min + 1) + k := Nat.add_le_add_right (e.parentheses_mono (Nat.le_succ min)) k
    _ ≤ n + k := Nat.add_le_add_right he k

/-- `n` pairs of parentheses are enough for what a phrase stands for, in the place of its category. -/
def Suffices (n : ℕ) : {c : Category} → c.Meaning α → Prop
  | .expression, e => e.parentheses 2 ≤ n
  | .terms, f => ∀ left : Expr α, (f left).parentheses 2 ≤ left.parentheses 2 + n
  | .term, e => e.parentheses 3 ≤ n
  | .factors, f => ∀ left : Expr α, (f left).parentheses 3 ≤ left.parentheses 3 + n
  | .factor, e => e.parentheses 4 ≤ n
  | .signedNumber, _ => True
  | .primary, e => e.parentheses 5 ≤ n

/-- The pairs of parentheses in the word of a derivation. -/
def Phrase.pairs {c : Category} (d : Phrase c) : ℕ := d.yield.count (.symbol .opening)

namespace Phrase

theorem pairs_moreTerms (sign : Sign) (next : Phrase .term) (rest : Phrase .terms) :
    (moreTerms sign next rest).pairs = next.pairs + rest.pairs := by
  cases sign <;> simp [pairs, yield, Sign.kind]

theorem pairs_moreFactors (scaling : Scaling) (next : Phrase .factor) (rest : Phrase .factors) :
    (moreFactors scaling next rest).pairs = next.pairs + rest.pairs := by
  cases scaling <;> simp [pairs, yield, Scaling.kind]

theorem pairs_power (base : Phrase .primary) (exponent : Phrase .signedNumber) :
    (power base exponent).pairs = base.pairs + exponent.pairs := by
  simp [pairs, yield]

theorem pairs_parenthesized (inner : Phrase .expression) :
    (parenthesized inner).pairs = inner.pairs + 1 := by
  simp [pairs, yield]

variable [Scalar α]

/-- The parentheses in the word of a derivation are enough for what it stands for. -/
theorem suffices_pairs {c : Category} (d : Phrase c) :
    Suffices d.pairs (d.meaning : c.Meaning α) := by
  induction d with
  | expression first rest ihfirst ihrest | term first rest ihfirst ihrest =>
    exact (parentheses_chain_le ihfirst ihrest).trans_eq List.count_append.symm
  | noTerms | noFactors => exact fun left => le_refl _
  | moreTerms sign next rest ihnext ihrest =>
    intro left
    have hrest := ihrest (.bin sign.operator left next.meaning)
    have hnext : (next.meaning : Expr α).parentheses 3 ≤ next.pairs := ihnext
    rw [parentheses_sum] at hrest
    rw [pairs_moreTerms]
    exact hrest.trans (by omega)
  | moreFactors scaling next rest ihnext ihrest =>
    intro left
    have hrest := ihrest (.bin scaling.operator left next.meaning)
    have hnext : (next.meaning : Expr α).parentheses 4 ≤ next.pairs := ihnext
    rw [parentheses_product] at hrest
    rw [pairs_moreFactors]
    exact hrest.trans (by omega)
  | plain base ih => exact (Expr.parentheses_mono _ (by omega)).trans ih
  | power base exponent ihbase ihexponent =>
    have hbase : (base.meaning : Expr α).parentheses 5 ≤ base.pairs := ihbase
    show (Expr.pow base.meaning (exponent.meaning : α)).parentheses 4 ≤ _
    rw [parentheses_power, pairs_power]
    omega
  | signedNumber sign literal => trivial
  | number literal => exact Nat.zero_le _
  | identifier name => exact Nat.zero_le _
  | parenthesized inner ih =>
    -- the only step from a tight place to a loose one costs a pair
    have hinner : (inner.meaning : Expr α).parentheses 2 ≤ inner.pairs := ih
    have hpair := (inner.meaning : Expr α).parentheses_le_succ 2 5
    show (inner.meaning : Expr α).parentheses 5 ≤ _
    rw [pairs_parenthesized]
    omega

end Phrase

end Grammar

/-! ## What a text holds -/

theorem eq_openingByte {b : UInt8} (h : TokenKind.ofByte? b = some .opening) : b = openingByte := by
  revert b
  decide +kernel

/-- Each opening token takes a byte of its own. -/
theorem Divides.count_opening_le {offset : ℕ} {bs : List UInt8} {ts : List Token}
    (h : Divides offset bs ts) :
    (ts.map Token.terminal).count (.symbol .opening) ≤ bs.count openingByte := by
  induction h with
  | ending hblanks => exact Nat.zero_le _
  | @token offset blanks rest t ts hblanks hoffset hend hlexeme hrest ih =>
    have ht : [t.terminal].count (.symbol .opening) ≤ (Utf8.bytes t.literal).count openingByte := by
      by_cases hkind : t.terminal = .symbol .opening
      · obtain ⟨kind, literal, start⟩ := t
        obtain rfl : kind = .opening := Token.kind_of_terminal hkind
        obtain ⟨b, hb, hbyte⟩ := hlexeme
        rw [hb, eq_openingByte hbyte, List.count_singleton_self, hkind, List.count_singleton_self]
      · rw [List.count_eq_zero_of_not_mem fun hmem => hkind (List.mem_singleton.mp hmem).symm]
        exact Nat.zero_le _
    rw [List.map_cons, ← List.singleton_append, List.count_append, List.count_append,
      List.count_append]
    omega

namespace Expr

theorem Expressible.everyNumber_isFinite [DecimalScalar α] {e : Expr α} (h : e.Expressible) :
    e.EveryNumber (Scalar.isFinite · = true) := by
  induction e with
  | num v => exact h.1
  | var x => trivial
  | bin op l r ihl ihr =>
    rcases h.cases_bin with ⟨-, hl, hr⟩ | ⟨v, -, rfl, hl, hv⟩
    · exact ⟨ihl hl, ihr hr⟩
    · exact ⟨ihl hl, hv⟩
  | pending t ih => exact h.elim
  | hole => exact h.elim

/-- What is printed is read as the tree again, and no text that is read as the tree has fewer opening
parentheses. -/
theorem count_print_le [DecimalScalar α] {e m : Expr α} {text : List UInt8}
    (hparse : Expr.parse text = .ok m) (hsame : m.same e = true) :
    (∃ m', Expr.parse (Utf8.bytes e.print) = .ok m' ∧ m'.same e = true) ∧
      (Utf8.bytes e.print).count openingByte ≤ text.count openingByte := by
  have hexpressible : e.Expressible := (expressible_of_parse hparse).of_same hsame
  refine ⟨hexpressible.parse_print, ?_⟩
  have hgrammatical := grammatical_parse hparse
  obtain ⟨ts, hts, -, d, hyield, rfl⟩ := exists_derivation hparse
  obtain ⟨-, hnames, hparentheses⟩ := congr_of_same hsame
  have hletters : e.Lettered := fun x hx => hgrammatical.lettered x (hnames ▸ hx)
  have hpairs : d.pairs ≤ (ts.map Token.terminal).count (.symbol .opening) := by
    rw [← hyield, List.count_append]
    exact Nat.le_add_right _ _
  rw [hexpressible.print_eq]
  calc (Utf8.bytes (e.render 0)).count openingByte
      ≤ e.parentheses 0 := count_render_le hexpressible.everyNumber_isFinite hletters 0
    _ = (d.meaning : Expr α).parentheses 0 := (hparentheses 0).symm
    _ ≤ (d.meaning : Expr α).parentheses 2 := parentheses_mono _ (by omega)
    _ ≤ d.pairs := d.suffices_pairs
    _ ≤ (ts.map Token.terminal).count (.symbol .opening) := hpairs
    _ ≤ text.count openingByte := (tokenize_eq_ok_iff_divides.mp hts).count_opening_le

/-- Parentheses around an atom and around a product in a sum are not printed, those around a sum in a
product and around the base of a power are. -/
theorem count_print_le_nested :
    let text := "((a-(2.0))*b)+(x*(y))^-1"
    let e : Expr Float := add (mul (sub (var "a") (num 2)) (var "b")) (pow (mul (var "x") (var "y")) (-1))
    (Expr.parse (Utf8.bytes text) = .ok e ∧ e.same e = true) ∧
      ((∃ m, Expr.parse (Utf8.bytes e.print) = .ok m ∧ m.same e = true) ∧
        (Utf8.bytes e.print).count openingByte ≤ (Utf8.bytes text).count openingByte) ∧
      (Utf8.bytes e.print).count openingByte = 2 ∧ (Utf8.bytes text).count openingByte = 5 := by
  intro text e
  have hparse : Expr.parse (Utf8.bytes text) = .ok e := by decide +kernel
  have hsame : e.same e = true := by decide +kernel
  exact ⟨⟨hparse, hsame⟩, count_print_le hparse hsame, by decide +kernel, by decide +kernel⟩

end Expr

end Fluxion
