import Fluxion.Proofs.Grammar
import Fluxion.Proofs.RoundTrip

/-!
# Every derivation is read

From a state in which a category may come next, the word of a derivation from that category leads to a
state that holds the meaning of the derivation, in the form of the category: a primary, a factor, what
ends a product, what ends a sum. A repetition is read behind such a form and changes the tree in it.
-/

namespace Fluxion

open Grammar

/-- The token as the grammar sees it. -/
def Token.terminal (t : Token) : Terminal :=
  match t.kind with
  | .number => .number t.literal
  | .identifier => .identifier t.literal
  | kind => .symbol kind

theorem Token.terminal_eq_number {t : Token} {literal : String} :
    t.terminal = .number literal ↔ t.kind = .number ∧ t.literal = literal := by
  unfold Token.terminal
  split <;> simp_all

theorem Token.terminal_eq_identifier {t : Token} {name : String} :
    t.terminal = .identifier name ↔ t.kind = .identifier ∧ t.literal = name := by
  unfold Token.terminal
  split <;> simp_all

theorem Token.kind_of_terminal {t : Token} {kind : TokenKind} (h : t.terminal = .symbol kind) :
    t.kind = kind := by
  unfold Token.terminal at h
  split at h
  · cases h
  · cases h
  · exact Terminal.symbol.inj h

theorem Token.terminal_of_kind {t : Token} {kind : TokenKind} (h : t.kind = kind)
    (hnumber : kind ≠ .number) (hidentifier : kind ≠ .identifier) : t.terminal = .symbol kind := by
  unfold Token.terminal
  split <;> simp_all

theorem Token.terminal_of_sign {t : Token} {sign : Sign} (h : t.kind = sign.kind) :
    t.terminal = .symbol sign.kind :=
  terminal_of_kind h (by cases sign <;> decide) (by cases sign <;> decide)

theorem Token.terminal_of_scaling {t : Token} {scaling : Scaling} (h : t.kind = scaling.kind) :
    t.terminal = .symbol scaling.kind :=
  terminal_of_kind h (by cases scaling <;> decide) (by cases scaling <;> decide)

variable {α : Type} [Scalar α]

/-- No number in the word is too large. -/
def Grammar.InRange (α : Type) [Scalar α] (w : List Terminal) : Prop :=
  ∀ literal, .number literal ∈ w → (Numeral.value? (α := α) literal).isSome = true

theorem Grammar.InRange.append_left {w w' : List Terminal} (h : InRange α (w ++ w')) : InRange α w :=
  fun literal hmem => h literal (List.mem_append_left _ hmem)

theorem Grammar.InRange.append_right {w w' : List Terminal} (h : InRange α (w ++ w')) :
    InRange α w' :=
  fun literal hmem => h literal (List.mem_append_right _ hmem)

theorem Grammar.InRange.tail {t : Terminal} {w : List Terminal} (h : InRange α (t :: w)) :
    InRange α w :=
  fun literal hmem => h literal (List.mem_cons_of_mem _ hmem)

theorem Grammar.literalValue_eq {literal : String} {v : α} (h : Numeral.value? literal = some v) :
    literalValue literal = v := by
  rw [literalValue, h]
  rfl

theorem Grammar.InRange.value_eq {w : List Terminal} (h : InRange α w) {literal : String}
    (hmem : .number literal ∈ w) : Numeral.value? literal = some (literalValue literal : α) := by
  obtain ⟨v, hv⟩ := Option.isSome_iff_exists.mp (h literal hmem)
  rw [literalValue_eq hv, hv]

namespace Parser

/-! ## Words that lead from state to state -/

/-- Tokens that spell the word lead from one state to another, wherever another token follows. -/
def Leads (w : List Terminal) (s s' : State α) : Prop :=
  ∀ ts rest failure, ts.map Token.terminal = w → rest ≠ [] →
    run failure s (ts ++ rest) = run failure s' rest

theorem leads_nil (s : State α) : Leads [] s s := by
  intro ts rest failure hts _
  rw [List.map_eq_nil_iff.mp hts]
  rfl

theorem Leads.append {w w' : List Terminal} {s s₁ s₂ : State α} (h : Leads w s s₁)
    (h' : Leads w' s₁ s₂) : Leads (w ++ w') s s₂ := by
  intro ts rest failure hts hrest
  obtain ⟨ts₁, ts₂, rfl, hts₁, hts₂⟩ := List.map_eq_append_iff.mp hts
  rw [List.append_assoc, h ts₁ _ failure hts₁ (by simp [hrest])]
  exact h' ts₂ rest failure hts₂ hrest

/-- A symbol that can come next. -/
theorem Leads.symbol {w : List Terminal} {kind : TokenKind} {s s₁ s₂ : State α}
    (hmove : ∀ literal offset, s.move? ⟨kind, literal, offset⟩ = some (.shift s₁))
    (h : Leads w s₁ s₂) : Leads (.symbol kind :: w) s s₂ := by
  refine Leads.append (w := [.symbol kind]) (fun ts rest failure hts _ => ?_) h
  obtain ⟨t, rfl, ht⟩ := List.map_eq_singleton_iff.mp hts
  obtain ⟨tkind, literal, offset⟩ := t
  obtain rfl : tkind = kind := Token.kind_of_terminal ht
  exact run_shift (hmove literal offset)

theorem leads_identifier {name : String} {s s' : State α}
    (hmove : ∀ offset, s.move? ⟨.identifier, name, offset⟩ = some (.shift s')) :
    Leads [.identifier name] s s' := by
  intro ts rest failure hts _
  obtain ⟨t, rfl, ht⟩ := List.map_eq_singleton_iff.mp hts
  obtain ⟨tkind, literal, offset⟩ := t
  obtain ⟨rfl, rfl⟩ : tkind = .identifier ∧ literal = name := Token.terminal_eq_identifier.mp ht
  exact run_shift (hmove offset)

theorem leads_number {literal : String} {v : α} (hv : Numeral.value? literal = some v)
    {s : State α} (next : α → State α)
    (hmove : ∀ offset, s.move? ⟨.number, literal, offset⟩ = some (.literal next)) :
    Leads [.number literal] s (next v) := by
  intro ts rest failure hts hrest
  obtain ⟨t, rfl, ht⟩ := List.map_eq_singleton_iff.mp hts
  obtain ⟨tkind, tliteral, offset⟩ := t
  obtain ⟨rfl, rfl⟩ : tkind = .number ∧ tliteral = literal := Token.terminal_eq_number.mp ht
  rw [List.singleton_append, run, hmove offset]
  dsimp only
  rw [if_neg (by simpa using hrest), hv]

/-! ## Words in the places of the grammar -/

/-- At a place for bindings of at least `min`, the word is read as the tree. -/
def ReadsAt (min : ℕ) (w : List Terminal) (e : Expr α) : Prop :=
  ∀ s, Fits min s → ∃ s', Leads w s s' ∧ Ends min s s' e

/-- Behind a tree at a place for bindings of at least `min`, the word turns it into another tree. -/
def ExtendsAt (min : ℕ) (w : List Terminal) (f : Expr α → Expr α) : Prop :=
  ∀ s s₁ e, Fits min s → Ends min s s₁ e → ∃ s₂, Leads w s₁ s₂ ∧ Ends min s s₂ (f e)

/-- Behind a base and its caret, the word is read as the exponent. -/
def ReadsExponent (w : List Terminal) (v : α) : Prop :=
  ∀ s base, s.expecting = .exponent base → Leads w s (s.withFactor (.pow base v) false)

theorem readsAt_number {literal : String} {v : α} (hv : Numeral.value? literal = some v) :
    ReadsAt 5 [.number literal] (.num v) := by
  intro s hs
  refine ⟨s.withFactor (.num v) true, ?_, hs.ends_primary _⟩
  refine leads_number hv (fun u => s.withFactor (.num u) true) fun offset => ?_
  unfold State.move?
  rw [hs.operand]

theorem readsAt_identifier (name : String) : ReadsAt 5 [.identifier name] (.var name : Expr α) := by
  intro s hs
  refine ⟨s.withFactor (.var name) true, ?_, hs.ends_primary _⟩
  refine leads_identifier fun offset => ?_
  unfold State.move?
  rw [hs.operand]

theorem ReadsAt.parenthesize {w : List Terminal} {e : Expr α} (h : ReadsAt 2 w e) :
    ReadsAt 5 (.symbol .opening :: (w ++ [.symbol .closing])) e := by
  intro s hs
  obtain ⟨s₁, hleads, hends⟩ := h _ (fits_start 2 (s.level :: s.outer))
  obtain ⟨level, f, p, rfl, rfl⟩ := (ends_sum (le_refl 2)).mp hends
  refine ⟨s.withFactor (level.expression f) true, ?_, hs.ends_primary _⟩
  refine Leads.symbol (fun literal offset => ?_) (hleads.append (Leads.symbol (fun literal offset => ?_)
    (leads_nil _)))
  · unfold State.move?
    rw [hs.operand]
  · cases p <;> rfl

theorem ReadsAt.power {w w' : List Terminal} {e : Expr α} {v : α} (h : ReadsAt 5 w e)
    (h' : ReadsExponent w' v) : ReadsAt 4 (w ++ .symbol .caret :: w') (.pow e v) := by
  intro s hs
  obtain ⟨s₁, hleads, hends⟩ := h s (hs.mono (by omega))
  rw [(ends_primary (le_refl 5)).mp hends] at hleads
  have hexponent := h' ⟨s.level, s.outer, .exponent e⟩ e rfl
  exact ⟨_, hleads.append (Leads.symbol (fun literal offset => rfl) hexponent),
    ends_factor.mpr ⟨false, rfl⟩⟩

theorem readsExponent_unsigned {literal : String} {v : α} (hv : Numeral.value? literal = some v) :
    ReadsExponent [.number literal] v := by
  intro s base hs
  refine leads_number hv (fun u => s.withFactor (.pow base u) false) fun offset => ?_
  unfold State.move?
  rw [hs]

theorem readsExponent_signed {literal : String} {v : α} (hv : Numeral.value? literal = some v)
    (sign : Sign) :
    ReadsExponent [.symbol sign.kind, .number literal] (if sign = .minus then -v else v) := by
  intro s base hs
  have hmagnitude : ∀ negative, Leads [.number literal] { s with expecting := .magnitude base negative }
      (s.withFactor (.pow base (if negative then -v else v)) false) := fun negative =>
    leads_number hv (fun u => s.withFactor (.pow base (if negative then -u else u)) false)
      fun offset => rfl
  cases sign with
  | plus =>
    refine Leads.symbol (fun _ _ => ?_) (hmagnitude false)
    unfold State.move?
    rw [hs]
    rfl
  | minus =>
    refine Leads.symbol (fun _ _ => ?_) (hmagnitude true)
    unfold State.move?
    rw [hs]
    rfl

/-- What binds tightly enough for a place, with a repetition behind it. -/
theorem ReadsAt.chain {min min' : ℕ} (hle : min ≤ min') {w w' : List Terminal} {e : Expr α}
    {f : Expr α → Expr α} (h : ReadsAt min' w e) (h' : ExtendsAt min w' f) :
    ReadsAt min (w ++ w') (f e) := by
  intro s hs
  obtain ⟨s₁, hleads₁, hends₁⟩ := h s (hs.mono hle)
  obtain ⟨s₂, hleads₂, hends₂⟩ := h' s s₁ e hs (hends₁.loosen hle hs)
  exact ⟨s₂, hleads₁.append hleads₂, hends₂⟩

theorem extendsAt_nil (min : ℕ) : ExtendsAt min [] (id : Expr α → Expr α) :=
  fun _ s₁ _ _ hends => ⟨s₁, leads_nil s₁, hends⟩

theorem ExtendsAt.terms {w w' : List Terminal} {e : Expr α} {f : Expr α → Expr α} (sign : Sign)
    (h : ReadsAt 3 w e) (h' : ExtendsAt 2 w' f) :
    ExtendsAt 2 (.symbol sign.kind :: (w ++ w')) fun left => f (.bin sign.operator left e) := by
  intro s s₁ left hs hends
  obtain ⟨level, g, p, rfl, rfl⟩ := (ends_sum (le_refl 2)).mp hends
  have hfits : Fits 3 (State.withSum ⟨level, s.outer, .operator g p⟩ sign.operator g) :=
    ⟨rfl, fun _ => rfl, fun h => absurd h (by omega)⟩
  obtain ⟨s₂, hleads₂, hends₂⟩ := h _ hfits
  obtain ⟨product, k, q, rfl, rfl⟩ := ends_product.mp hends₂
  obtain ⟨s₃, hleads₃, hends₃⟩ := h' s _ _ hs ((ends_sum (le_refl 2)).mpr ⟨_, k, q, rfl, rfl⟩)
  refine ⟨s₃, Leads.symbol (fun literal offset => ?_) (hleads₂.append hleads₃), hends₃⟩
  cases sign <;> cases p <;> rfl

theorem ExtendsAt.factors {w w' : List Terminal} {e : Expr α} {f : Expr α → Expr α}
    (scaling : Scaling) (h : ReadsAt 4 w e) (h' : ExtendsAt 3 w' f) :
    ExtendsAt 3 (.symbol scaling.kind :: (w ++ w'))
      fun left => f (.bin scaling.operator left e) := by
  intro s s₁ left hs hends
  obtain ⟨product, g, p, rfl, rfl⟩ := ends_product.mp hends
  have hfits : Fits 4
      (State.withProduct ⟨⟨s.level.sum, product⟩, s.outer, .operator g p⟩ scaling.operator g) :=
    ⟨rfl, fun h => absurd h (by omega), fun h => absurd h (by omega)⟩
  obtain ⟨s₂, hleads₂, hends₂⟩ := h _ hfits
  obtain ⟨q, rfl⟩ := ends_factor.mp hends₂
  obtain ⟨s₃, hleads₃, hends₃⟩ := h' s _ _ hs (ends_product.mpr ⟨_, e, q, rfl, rfl⟩)
  refine ⟨s₃, Leads.symbol (fun literal offset => ?_) (hleads₂.append hleads₃), hends₃⟩
  cases scaling <;> cases p <;> rfl

/-! ## Derivations -/

/-- The form in which a phrase is read, category by category. -/
def IsRead : {c : Category} → Phrase c → c.Meaning α → Prop
  | .expression, d, e => ReadsAt 2 d.yield e
  | .terms, d, f => ExtendsAt 2 d.yield f
  | .term, d, e => ReadsAt 3 d.yield e
  | .factors, d, f => ExtendsAt 3 d.yield f
  | .factor, d, e => ReadsAt 4 d.yield e
  | .signedNumber, d, v => ReadsExponent d.yield v
  | .primary, d, e => ReadsAt 5 d.yield e

/-- Every derivation without a number that is too large is read as what it stands for. -/
theorem isRead_meaning {c : Category} (d : Phrase c) (h : InRange α d.yield) :
    IsRead d (d.meaning : c.Meaning α) := by
  induction d with
  | expression first rest ihfirst ihrest =>
    exact ReadsAt.chain (by omega) (ihfirst h.append_left) (ihrest h.append_right)
  | noTerms => exact extendsAt_nil 2
  | moreTerms sign next rest ihnext ihrest =>
    exact ExtendsAt.terms sign (ihnext h.tail.append_left) (ihrest h.tail.append_right)
  | term first rest ihfirst ihrest =>
    exact ReadsAt.chain (by omega) (ihfirst h.append_left) (ihrest h.append_right)
  | noFactors => exact extendsAt_nil 3
  | moreFactors scaling next rest ihnext ihrest =>
    exact ExtendsAt.factors scaling (ihnext h.tail.append_left) (ihrest h.tail.append_right)
  | plain base ih =>
    have hread : ReadsAt 4 (base.yield ++ []) (id base.meaning : Expr α) :=
      ReadsAt.chain (by omega) (ih h) (extendsAt_nil 4)
    rwa [List.append_nil] at hread
  | power base exponent ihbase ihexponent =>
    exact ReadsAt.power (ihbase h.append_left) (ihexponent h.append_right.tail)
  | signedNumber sign literal =>
    cases sign with
    | none => exact readsExponent_unsigned (h.value_eq (List.mem_singleton.mpr rfl))
    | some sign =>
      have hvalue : Numeral.value? literal = some (literalValue literal : α) :=
        h.value_eq (by simp [Phrase.yield])
      have hread := readsExponent_signed hvalue sign
      cases sign <;> exact hread
  | number literal => exact readsAt_number (h.value_eq (List.mem_singleton.mpr rfl))
  | identifier name => exact readsAt_identifier name
  | parenthesized inner ih => exact ReadsAt.parenthesize (ih h.tail.append_left)

end Parser

end Fluxion
