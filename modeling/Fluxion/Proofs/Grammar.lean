import Fluxion.Expr.Parse
import Mathlib.Data.List.Basic

/-!
# The grammar

The productions of the grammar as data. A `Phrase c` is a derivation from the category `c`, with one
constructor for each alternative of a production; a repetition is a category of its own, because it is
derived step by step. The `yield` of a derivation is the word that it derives, and its `meaning` is the
tree that it stands for when repeated operators associate to the left.

The grammar is unambiguous: a word has at most one derivation. Stated for one category, that would not
survive an induction, so it is stated for a word with more behind it. What follows must not be able to
continue a phrase of the category.
-/

namespace Fluxion

namespace Grammar

/-- What the grammar sees of a token: its class, and the text of a number or a name. -/
inductive Terminal where
  /-- A number. -/
  | number (literal : String)
  /-- A name. -/
  | identifier (name : String)
  /-- A token of any other class, the end included. -/
  | symbol (kind : TokenKind)
deriving DecidableEq, Repr

/-- `'+' | '-'` -/
inductive Sign where
  | plus
  | minus
deriving DecidableEq, Repr

namespace Sign

/-- The class of the sign as a token. -/
def kind : Sign → TokenKind
  | plus => .plus
  | minus => .minus

/-- The operator that the sign is between two terms. -/
def operator : Sign → Operator
  | plus => .add
  | minus => .sub

end Sign

/-- `'*' | '/'` -/
inductive Scaling where
  | star
  | slash
deriving DecidableEq, Repr

namespace Scaling

/-- The class of the symbol as a token. -/
def kind : Scaling → TokenKind
  | star => .star
  | slash => .slash

/-- The operator that the symbol is between two factors. -/
def operator : Scaling → Operator
  | star => .mul
  | slash => .div

end Scaling

/-- The left sides of the productions. -/
inductive Category where
  | expression
  /-- `(('+' | '-') term)*` -/
  | terms
  | term
  /-- `(('*' | '/') factor)*` -/
  | factors
  | factor
  | signedNumber
  | primary
deriving DecidableEq, Repr

/-- A derivation from a category. -/
inductive Phrase : Category → Type where
  /-- `expression := term (('+' | '-') term)*` -/
  | expression (first : Phrase .term) (rest : Phrase .terms) : Phrase .expression
  /-- No further term. -/
  | noTerms : Phrase .terms
  /-- One more term and what follows it. -/
  | moreTerms (sign : Sign) (next : Phrase .term) (rest : Phrase .terms) : Phrase .terms
  /-- `term := factor (('*' | '/') factor)*` -/
  | term (first : Phrase .factor) (rest : Phrase .factors) : Phrase .term
  /-- No further factor. -/
  | noFactors : Phrase .factors
  /-- One more factor and what follows it. -/
  | moreFactors (scaling : Scaling) (next : Phrase .factor) (rest : Phrase .factors) :
    Phrase .factors
  /-- `factor := primary` -/
  | plain (base : Phrase .primary) : Phrase .factor
  /-- `factor := primary '^' signedNumber` -/
  | power (base : Phrase .primary) (exponent : Phrase .signedNumber) : Phrase .factor
  /-- `signedNumber := ('+' | '-')? number` -/
  | signedNumber (sign : Option Sign) (literal : String) : Phrase .signedNumber
  /-- `primary := number` -/
  | number (literal : String) : Phrase .primary
  /-- `primary := identifier` -/
  | identifier (name : String) : Phrase .primary
  /-- `primary := '(' expression ')'` -/
  | parenthesized (inner : Phrase .expression) : Phrase .primary

namespace Phrase

/-- The word that a derivation derives. -/
def yield : {c : Category} → Phrase c → List Terminal
  | _, expression first rest => first.yield ++ rest.yield
  | _, noTerms => []
  | _, moreTerms sign next rest => .symbol sign.kind :: (next.yield ++ rest.yield)
  | _, term first rest => first.yield ++ rest.yield
  | _, noFactors => []
  | _, moreFactors scaling next rest => .symbol scaling.kind :: (next.yield ++ rest.yield)
  | _, plain base => base.yield
  | _, power base exponent => base.yield ++ .symbol .caret :: exponent.yield
  | _, signedNumber none literal => [.number literal]
  | _, signedNumber (some sign) literal => [.symbol sign.kind, .number literal]
  | _, number literal => [.number literal]
  | _, identifier name => [.identifier name]
  | _, parenthesized inner => .symbol .opening :: (inner.yield ++ [.symbol .closing])

end Phrase

/-- What a derivation from a category stands for. A repetition stands for what it does to the tree to its
left. -/
abbrev Category.Meaning (α : Type) : Category → Type
  | expression | term | factor | primary => Expr α
  | terms | factors => Expr α → Expr α
  | signedNumber => α

/-- The value of a literal; zero for one that is too large. -/
def literalValue {α : Type} [Scalar α] (literal : String) : α := (Numeral.value? literal).getD 0

/-- What a derivation stands for, repeated operators associating to the left. -/
def Phrase.meaning {α : Type} [Scalar α] : {c : Category} → Phrase c → c.Meaning α
  | _, expression first rest => rest.meaning first.meaning
  | _, noTerms => id
  | _, moreTerms sign next rest => fun left => rest.meaning (.bin sign.operator left next.meaning)
  | _, term first rest => rest.meaning first.meaning
  | _, noFactors => id
  | _, moreFactors scaling next rest => fun left =>
    rest.meaning (.bin scaling.operator left next.meaning)
  | _, plain base => base.meaning
  | _, power base exponent => .pow base.meaning exponent.meaning
  | _, signedNumber (some .minus) literal => -literalValue literal
  | _, signedNumber _ literal => literalValue literal
  | _, number literal => .num (literalValue literal)
  | _, identifier name => .var name
  | _, parenthesized inner => inner.meaning

/-! ## Repetitions grow at their end -/

namespace Phrase

/-- A repetition with one more factor at its end. -/
def appendFactor : Phrase .factors → Scaling → Phrase .factor → Phrase .factors
  | noFactors, scaling, last => moreFactors scaling last noFactors
  | moreFactors scaling' next rest, scaling, last =>
    moreFactors scaling' next (rest.appendFactor scaling last)

/-- A repetition with one more term at its end. -/
def appendTerm : Phrase .terms → Sign → Phrase .term → Phrase .terms
  | noTerms, sign, last => moreTerms sign last noTerms
  | moreTerms sign' next rest, sign, last => moreTerms sign' next (rest.appendTerm sign last)

@[simp] theorem yield_appendFactor (fs : Phrase .factors) (scaling : Scaling)
    (last : Phrase .factor) :
    (fs.appendFactor scaling last).yield = fs.yield ++ .symbol scaling.kind :: last.yield := by
  fun_induction appendFactor fs scaling last with
  | case1 => simp [yield]
  | case2 scaling' next rest scaling last ih => simp [yield, ih]

@[simp] theorem yield_appendTerm (ts : Phrase .terms) (sign : Sign) (last : Phrase .term) :
    (ts.appendTerm sign last).yield = ts.yield ++ .symbol sign.kind :: last.yield := by
  fun_induction appendTerm ts sign last with
  | case1 => simp [yield]
  | case2 sign' next rest sign last ih => simp [yield, ih]

section Meaning

variable {α : Type} [Scalar α]

theorem meaning_appendFactor (fs : Phrase .factors) (scaling : Scaling) (last : Phrase .factor)
    (left : Expr α) :
    (fs.appendFactor scaling last).meaning left =
      .bin scaling.operator (fs.meaning left) last.meaning := by
  fun_induction appendFactor fs scaling last generalizing left with
  | case1 => rfl
  | case2 scaling' next rest scaling last ih => exact ih _

theorem meaning_appendTerm (ts : Phrase .terms) (sign : Sign) (last : Phrase .term)
    (left : Expr α) :
    (ts.appendTerm sign last).meaning left =
      .bin sign.operator (ts.meaning left) last.meaning := by
  fun_induction appendTerm ts sign last generalizing left with
  | case1 => rfl
  | case2 sign' next rest sign last ih => exact ih _

/-- A term with one more factor. -/
theorem exists_append_factor (d : Phrase .term) (scaling : Scaling) (last : Phrase .factor) :
    ∃ d' : Phrase .term, d'.yield = d.yield ++ .symbol scaling.kind :: last.yield ∧
      (d'.meaning : Expr α) = .bin scaling.operator d.meaning last.meaning := by
  cases d with
  | term first rest =>
    exact ⟨term first (rest.appendFactor scaling last), by simp [yield],
      meaning_appendFactor rest scaling last _⟩

/-- An expression with one more term. -/
theorem exists_append_term (d : Phrase .expression) (sign : Sign) (last : Phrase .term) :
    ∃ d' : Phrase .expression, d'.yield = d.yield ++ .symbol sign.kind :: last.yield ∧
      (d'.meaning : Expr α) = .bin sign.operator d.meaning last.meaning := by
  cases d with
  | expression first rest =>
    exact ⟨expression first (rest.appendTerm sign last), by simp [yield],
      meaning_appendTerm rest sign last _⟩

end Meaning

end Phrase

/-! ## One derivation for each word -/

/-- The symbols that may continue a phrase of the category. -/
def Category.continuations : Category → List TokenKind
  | expression | terms => [.plus, .minus, .star, .slash, .caret]
  | term | factors => [.star, .slash, .caret]
  | factor => [.caret]
  | signedNumber | primary => []

/-- What follows does not continue a phrase of the category. -/
def Stops (c : Category) (rest : List Terminal) : Prop :=
  ∀ kind ∈ c.continuations, rest.head? ≠ some (.symbol kind)

theorem Stops.of_subset {c c' : Category} (h : c.continuations ⊆ c'.continuations)
    {rest : List Terminal} (hrest : Stops c' rest) : Stops c rest :=
  fun kind hkind => hrest kind (h hkind)

theorem stops_cons {c : Category} {kind : TokenKind} (h : kind ∉ c.continuations)
    (rest : List Terminal) : Stops c (.symbol kind :: rest) := by
  intro kind' hkind' hhead
  cases hhead
  exact h hkind'

theorem stops_primary (rest : List Terminal) : Stops .primary rest :=
  fun _ hkind => absurd hkind List.not_mem_nil

/-- A factor ends where the repetition behind it goes on or ends. -/
theorem Stops.factors {rest : List Terminal} (h : Stops .term rest) (fs : Phrase .factors) :
    Stops .factor (fs.yield ++ rest) := by
  cases fs with
  | noFactors => exact h.of_subset (by decide)
  | moreFactors scaling next more => exact stops_cons (by cases scaling <;> decide) _

/-- A term ends where the repetition behind it goes on or ends. -/
theorem Stops.terms {rest : List Terminal} (h : Stops .expression rest) (ts : Phrase .terms) :
    Stops .term (ts.yield ++ rest) := by
  cases ts with
  | noTerms => exact h.of_subset (by decide)
  | moreTerms sign next more => exact stops_cons (by cases sign <;> decide) _

theorem Sign.kind_injective {s s' : Sign} (h : s.kind = s'.kind) : s = s' := by
  cases s <;> cases s' <;> first | rfl | cases h

theorem Scaling.kind_injective {s s' : Scaling} (h : s.kind = s'.kind) : s = s' := by
  cases s <;> cases s' <;> first | rfl | cases h

/-- Where nothing continues them, two phrases of one category at the front of the same word are the same
phrase. -/
theorem Phrase.split_unique {c : Category} (a b : Phrase c) {r r' : List Terminal}
    (hr : Stops c r) (hr' : Stops c r') (h : a.yield ++ r = b.yield ++ r') : a = b ∧ r = r' := by
  induction a generalizing r r' with
  | expression first rest ihfirst ihrest =>
    cases b with
    | expression first' rest' =>
      rw [yield, yield, List.append_assoc, List.append_assoc] at h
      obtain ⟨rfl, hrest⟩ := ihfirst first' (hr.terms rest) (hr'.terms rest') h
      obtain ⟨rfl, hr⟩ := ihrest rest' hr hr' hrest
      exact ⟨rfl, hr⟩
  | noTerms =>
    cases b with
    | noTerms => exact ⟨rfl, h⟩
    | moreTerms sign next rest =>
      rw [yield, List.nil_append] at h
      exact absurd (congrArg List.head? h) (hr sign.kind (by cases sign <;> decide))
  | moreTerms sign next rest ihnext ihrest =>
    cases b with
    | noTerms =>
      rw [yield, yield, List.nil_append] at h
      exact absurd (congrArg List.head? h.symm) (hr' sign.kind (by cases sign <;> decide))
    | moreTerms sign' next' rest' =>
      rw [yield, yield, List.cons_append, List.cons_append, List.append_assoc, List.append_assoc,
        List.cons.injEq, Terminal.symbol.injEq] at h
      obtain rfl := Sign.kind_injective h.1
      obtain ⟨rfl, hrest⟩ := ihnext next' (hr.terms rest) (hr'.terms rest') h.2
      obtain ⟨rfl, hr⟩ := ihrest rest' hr hr' hrest
      exact ⟨rfl, hr⟩
  | term first rest ihfirst ihrest =>
    cases b with
    | term first' rest' =>
      rw [yield, yield, List.append_assoc, List.append_assoc] at h
      obtain ⟨rfl, hrest⟩ := ihfirst first' (hr.factors rest) (hr'.factors rest') h
      obtain ⟨rfl, hr⟩ := ihrest rest' hr hr' hrest
      exact ⟨rfl, hr⟩
  | noFactors =>
    cases b with
    | noFactors => exact ⟨rfl, h⟩
    | moreFactors scaling next rest =>
      rw [yield, List.nil_append] at h
      exact absurd (congrArg List.head? h) (hr scaling.kind (by cases scaling <;> decide))
  | moreFactors scaling next rest ihnext ihrest =>
    cases b with
    | noFactors =>
      rw [yield, yield, List.nil_append] at h
      exact absurd (congrArg List.head? h.symm) (hr' scaling.kind (by cases scaling <;> decide))
    | moreFactors scaling' next' rest' =>
      rw [yield, yield, List.cons_append, List.cons_append, List.append_assoc, List.append_assoc,
        List.cons.injEq, Terminal.symbol.injEq] at h
      obtain rfl := Scaling.kind_injective h.1
      obtain ⟨rfl, hrest⟩ := ihnext next' (hr.factors rest) (hr'.factors rest') h.2
      obtain ⟨rfl, hr⟩ := ihrest rest' hr hr' hrest
      exact ⟨rfl, hr⟩
  | plain base ih =>
    cases b with
    | plain base' =>
      obtain ⟨rfl, hr⟩ := ih base' (stops_primary r) (stops_primary r') h
      exact ⟨rfl, hr⟩
    | power base' exponent' =>
      rw [yield, yield, List.append_assoc] at h
      obtain ⟨-, hrest⟩ := ih base' (stops_primary _) (stops_primary _) h
      exact absurd (congrArg List.head? hrest) (hr .caret (by decide))
  | power base exponent ihbase ihexponent =>
    cases b with
    | plain base' =>
      rw [yield, yield, List.append_assoc] at h
      obtain ⟨-, hrest⟩ := ihbase base' (stops_primary _) (stops_primary _) h
      exact absurd (congrArg List.head? hrest.symm) (hr' .caret (by decide))
    | power base' exponent' =>
      rw [yield, yield, List.append_assoc, List.append_assoc] at h
      obtain ⟨rfl, hrest⟩ := ihbase base' (stops_primary _) (stops_primary _) h
      rw [List.cons_append, List.cons_append, List.cons.injEq] at hrest
      obtain ⟨rfl, hr⟩ := ihexponent exponent' (stops_primary r) (stops_primary r') hrest.2
      exact ⟨rfl, hr⟩
  | signedNumber sign literal =>
    cases b with
    | signedNumber sign' literal' =>
      cases sign <;> cases sign' <;> simp [yield] at h ⊢
      · exact h
      · exact ⟨⟨Sign.kind_injective h.1, h.2.1⟩, h.2.2⟩
  | number literal => cases b <;> simp_all [yield]
  | identifier name => cases b <;> simp_all [yield]
  | parenthesized inner ih =>
    cases b with
    | parenthesized inner' =>
      rw [yield, yield, List.cons_append, List.cons_append, List.append_assoc, List.append_assoc,
        List.cons.injEq] at h
      obtain ⟨rfl, hrest⟩ := ih inner' (stops_cons (by decide) r) (stops_cons (by decide) r') h.2
      exact ⟨rfl, (List.cons.inj hrest).2⟩
    | _ => cases h

/-- A word has at most one derivation. -/
theorem Phrase.yield_injective {c : Category} {a b : Phrase c} (h : a.yield = b.yield) : a = b := by
  have hstops : Stops c [] := fun _ _ hhead => by cases hhead
  exact (split_unique a b hstops hstops (by rw [h])).1

end Grammar

end Fluxion
