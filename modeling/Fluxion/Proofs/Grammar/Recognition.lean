import Fluxion.Proofs.Grammar.Reading

/-!
# The parser accepts exactly the grammar

Every derivation is read, and whatever is read has a derivation: each part of a state is the meaning of a
phrase or of the beginning of one, and the words of these phrases, put one after the other, are the tokens
that were read. That is an invariant of the single step, so it holds when the end is accepted.
-/

namespace Fluxion

open Grammar

variable {α : Type} [Scalar α]

namespace Parser

/-! ## What a token can do -/

/-- The moves of the parser, each with what is expected and the class of the token. -/
inductive Moves (s : State α) (t : Token) : Move α → Prop where
  | number (hs : s.expecting = .operand) (ht : t.kind = .number) :
    Moves s t (.literal fun v => s.withFactor (.num v) true)
  | identifier (hs : s.expecting = .operand) (ht : t.kind = .identifier) :
    Moves s t (.shift (s.withFactor (.var t.literal) true))
  | opening (hs : s.expecting = .operand) (ht : t.kind = .opening) :
    Moves s t (.shift ⟨.start, s.level :: s.outer, .operand⟩)
  | caret {f : Expr α} (hs : s.expecting = .operator f true) (ht : t.kind = .caret) :
    Moves s t (.shift { s with expecting := .exponent f })
  | sign {base : Expr α} (sign : Sign) (hs : s.expecting = .exponent base)
    (ht : t.kind = sign.kind) :
    Moves s t (.shift { s with expecting := .magnitude base (decide (sign = .minus)) })
  | exponent {base : Expr α} (hs : s.expecting = .exponent base) (ht : t.kind = .number) :
    Moves s t (.literal fun v => s.withFactor (.pow base v) false)
  | magnitude {base : Expr α} {negative : Bool} (hs : s.expecting = .magnitude base negative)
    (ht : t.kind = .number) :
    Moves s t (.literal fun v => s.withFactor (.pow base (if negative then -v else v)) false)
  | sum {f : Expr α} {primary : Bool} (sign : Sign) (hs : s.expecting = .operator f primary)
    (ht : t.kind = sign.kind) : Moves s t (.shift (s.withSum sign.operator f))
  | product {f : Expr α} {primary : Bool} (scaling : Scaling)
    (hs : s.expecting = .operator f primary) (ht : t.kind = scaling.kind) :
    Moves s t (.shift (s.withProduct scaling.operator f))
  | closing {f : Expr α} {primary : Bool} {level : Level α} {outer : List (Level α)}
    (hs : s.expecting = .operator f primary) (ht : t.kind = .closing)
    (hout : s.outer = level :: outer) :
    Moves s t (.shift ⟨level, outer, .operator (s.level.expression f) true⟩)
  | ending {f : Expr α} {primary : Bool} (hs : s.expecting = .operator f primary)
    (ht : t.kind = .ending) (hout : s.outer = []) :
    Moves s t (.accept (s.level.expression f))

theorem moves_of_move? {s : State α} {t : Token} {m : Move α} (h : s.move? t = some m) :
    Moves s t m := by
  rw [State.move?] at h
  split at h
  · cases h; exact .number ‹_› ‹_›
  · cases h; exact .identifier ‹_› ‹_›
  · cases h; exact .opening ‹_› ‹_›
  · cases h; exact .sign .plus ‹_› ‹_›
  · cases h; exact .sign .minus ‹_› ‹_›
  · cases h; exact .exponent ‹_› ‹_›
  · cases h; exact .magnitude ‹_› ‹_›
  · cases h; exact .caret ‹_› ‹_›
  · cases h; exact .sum .plus ‹_› ‹_›
  · cases h; exact .sum .minus ‹_› ‹_›
  · cases h; exact .product .star ‹_› ‹_›
  · cases h; exact .product .slash ‹_› ‹_›
  · split at h <;> cases h
    exact .closing ‹_› ‹_› ‹_›
  · split at h <;> cases h
    exact .ending ‹_› ‹_› (List.isEmpty_iff.mp ‹_›)
  · cases h

/-- The class of the tokens that make such a move. -/
def Move.MadeBy (kind : TokenKind) : Move α → Prop
  | .shift _ => kind ≠ .number ∧ kind ≠ .ending
  | .literal _ => kind = .number
  | .accept _ => kind = .ending

theorem madeBy_of_move? {s : State α} {t : Token} {m : Move α} (h : s.move? t = some m) :
    m.MadeBy t.kind := by
  have hsign (sign : Sign) : sign.kind ≠ .number ∧ sign.kind ≠ .ending := by cases sign <;> decide
  have hscaling (scaling : Scaling) : scaling.kind ≠ .number ∧ scaling.kind ≠ .ending := by
    cases scaling <;> decide
  cases moves_of_move? h with
  | number hs ht => exact ht
  | identifier hs ht => exact ⟨by simp [ht], by simp [ht]⟩
  | opening hs ht => exact ⟨by simp [ht], by simp [ht]⟩
  | caret hs ht => exact ⟨by simp [ht], by simp [ht]⟩
  | sign sign hs ht => exact ht ▸ hsign sign
  | exponent hs ht => exact ht
  | magnitude hs ht => exact ht
  | sum sign hs ht => exact ht ▸ hsign sign
  | product scaling hs ht => exact ht ▸ hscaling scaling
  | closing hs ht hout => exact ⟨by simp [ht], by simp [ht]⟩
  | ending hs ht hout => exact ht

/-! ## Whatever is read has a derivation -/

/-- The word is an expression and the sign behind it, or nothing if no sum waits. -/
def SpellsSum (w : List Terminal) : Option (Waiting α) → Prop
  | none => w = []
  | some waiting => ∃ (d : Phrase .expression) (sign : Sign),
    waiting = ⟨d.meaning, sign.operator⟩ ∧ w = d.yield ++ [.symbol sign.kind]

/-- The word is a term and the symbol behind it, or nothing if no product waits. -/
def SpellsProduct (w : List Terminal) : Option (Waiting α) → Prop
  | none => w = []
  | some waiting => ∃ (d : Phrase .term) (scaling : Scaling),
    waiting = ⟨d.meaning, scaling.operator⟩ ∧ w = d.yield ++ [.symbol scaling.kind]

/-- The word is what waits inside one pair of parentheses. -/
def Level.Spells (w : List Terminal) (l : Level α) : Prop :=
  ∃ u v, w = u ++ v ∧ SpellsSum u l.sum ∧ SpellsProduct v l.product

/-- The word is what waits outside of the innermost parentheses, each level with the parenthesis that
is open behind it. -/
def SpellsOuter (w : List Terminal) : List (Level α) → Prop
  | [] => w = []
  | level :: outer =>
    ∃ u v, w = u ++ (v ++ [.symbol .opening]) ∧ SpellsOuter u outer ∧ level.Spells v

/-- The word is what was read last and is not yet an operand. -/
def Expecting.Spells (w : List Terminal) : Expecting α → Prop
  | .operand => w = []
  | .exponent base =>
    ∃ d : Phrase .primary, base = d.meaning ∧ w = d.yield ++ [.symbol .caret]
  | .magnitude base negative => ∃ (d : Phrase .primary) (sign : Sign), base = d.meaning ∧
    negative = decide (sign = .minus) ∧ w = d.yield ++ [.symbol .caret, .symbol sign.kind]
  | .operator factor true => ∃ d : Phrase .primary, factor = d.meaning ∧ w = d.yield
  | .operator factor false => ∃ d : Phrase .factor, factor = d.meaning ∧ w = d.yield

/-- The word is what was read. -/
def State.Spells (w : List Terminal) (s : State α) : Prop :=
  ∃ u v x, w = u ++ (v ++ x) ∧ SpellsOuter u s.outer ∧ s.level.Spells v ∧ s.expecting.Spells x

/-- The word is what was read, a token with the given literal at its end. -/
def Move.Spells (w : List Terminal) (literal : String) : Move α → Prop
  | .shift s => s.Spells w
  | .literal next => ∀ v, Numeral.value? literal = some v → (next v).Spells w
  | .accept e => ∃ d : Phrase .expression, e = d.meaning ∧ w = d.yield ++ [.symbol .ending]

theorem SpellsSum.attach {w : List Terminal} {waiting : Option (Waiting α)}
    (h : SpellsSum w waiting) (last : Phrase .term) :
    ∃ d : Phrase .expression, d.meaning = Parser.attach waiting last.meaning ∧
      d.yield = w ++ last.yield := by
  cases waiting with
  | none =>
    obtain rfl : w = [] := h
    exact ⟨.expression last .noTerms, rfl, by simp [Phrase.yield]⟩
  | some waiting =>
    obtain ⟨d, sign, rfl, rfl⟩ := h
    obtain ⟨d', hyield, hmeaning⟩ := d.exists_append_term (α := α) sign last
    exact ⟨d', hmeaning, by simp [hyield]⟩

theorem SpellsProduct.attach {w : List Terminal} {waiting : Option (Waiting α)}
    (h : SpellsProduct w waiting) (last : Phrase .factor) :
    ∃ d : Phrase .term, d.meaning = Parser.attach waiting last.meaning ∧
      d.yield = w ++ last.yield := by
  cases waiting with
  | none =>
    obtain rfl : w = [] := h
    exact ⟨.term last .noFactors, rfl, by simp [Phrase.yield]⟩
  | some waiting =>
    obtain ⟨d, scaling, rfl, rfl⟩ := h
    obtain ⟨d', hyield, hmeaning⟩ := d.exists_append_factor (α := α) scaling last
    exact ⟨d', hmeaning, by simp [hyield]⟩

theorem Level.spells_start : (Level.start : Level α).Spells [] := ⟨[], [], rfl, rfl, rfl⟩

theorem State.spells_start : (State.start : State α).Spells [] :=
  ⟨[], [], [], rfl, rfl, Level.spells_start, rfl⟩

/-- What waits in a level and a factor behind it form an expression. -/
theorem Level.Spells.expression {w : List Terminal} {l : Level α} (h : l.Spells w)
    (last : Phrase .factor) :
    ∃ d : Phrase .expression, d.meaning = l.expression last.meaning ∧
      d.yield = w ++ last.yield := by
  obtain ⟨u, v, rfl, hsum, hproduct⟩ := h
  obtain ⟨d, hmeaning, hyield⟩ := hproduct.attach last
  obtain ⟨d', hmeaning', hyield'⟩ := hsum.attach d
  refine ⟨d', ?_, ?_⟩
  · rw [hmeaning', hmeaning]
    rfl
  · rw [hyield', hyield, List.append_assoc]

/-- Whether or not an exponent may follow, a factor has been read. -/
theorem Expecting.Spells.factor {w : List Terminal} {f : Expr α} {primary : Bool}
    (h : (Expecting.operator f primary).Spells w) :
    ∃ d : Phrase .factor, f = d.meaning ∧ w = d.yield := by
  cases primary with
  | false => exact h
  | true =>
    obtain ⟨d, rfl, rfl⟩ := h
    exact ⟨.plain d, rfl, rfl⟩

theorem State.Spells.withSum {w : List Terminal} {s : State α} (hs : s.Spells w) {f : Expr α}
    {primary : Bool} (hf : s.expecting = .operator f primary) (sign : Sign) :
    (s.withSum sign.operator f).Spells (w ++ [.symbol sign.kind]) := by
  obtain ⟨u, v, x, rfl, houter, hlevel, hexpecting⟩ := hs
  rw [hf] at hexpecting
  obtain ⟨d, rfl, rfl⟩ := hexpecting.factor
  obtain ⟨d', hmeaning, hyield⟩ := hlevel.expression d
  refine ⟨u, d'.yield ++ [.symbol sign.kind], [], ?_, houter, ⟨_, [], (List.append_nil _).symm, ?_, rfl⟩,
    rfl⟩
  · simp [hyield]
  · exact ⟨d', sign, by rw [hmeaning], rfl⟩

theorem State.Spells.withProduct {w : List Terminal} {s : State α} (hs : s.Spells w) {f : Expr α}
    {primary : Bool} (hf : s.expecting = .operator f primary) (scaling : Scaling) :
    (s.withProduct scaling.operator f).Spells (w ++ [.symbol scaling.kind]) := by
  obtain ⟨u, v, x, rfl, houter, ⟨v₁, v₂, rfl, hsum, hproduct⟩, hexpecting⟩ := hs
  rw [hf] at hexpecting
  obtain ⟨d, rfl, rfl⟩ := hexpecting.factor
  obtain ⟨d', hmeaning, hyield⟩ := hproduct.attach d
  refine ⟨u, v₁ ++ (d'.yield ++ [.symbol scaling.kind]), [], ?_, houter, ⟨v₁, _, rfl, hsum, ?_⟩, rfl⟩
  · simp [hyield]
  · exact ⟨d', scaling, by rw [Level.term, hmeaning], rfl⟩

/-- The part of a state that expects something is replaced, and the word goes on with it. -/
theorem State.Spells.expect {w : List Terminal} {s : State α} (hs : s.Spells w)
    {expecting : Expecting α} {more : List Terminal}
    (h : ∀ x, s.expecting.Spells x → expecting.Spells (x ++ more)) :
    State.Spells (w ++ more) { s with expecting } := by
  obtain ⟨u, v, x, rfl, houter, hlevel, hexpecting⟩ := hs
  exact ⟨u, v, x ++ more, by simp, houter, hlevel, h x hexpecting⟩

/-- One token: what it does goes on with the word. -/
theorem State.Spells.move {w : List Terminal} {s : State α} (hs : s.Spells w) {t : Token}
    {m : Move α} (h : s.move? t = some m) : m.Spells (w ++ [t.terminal]) t.literal := by
  cases moves_of_move? h with
  | number hexpecting hkind =>
    intro v hv
    rw [Token.terminal_eq_number.mpr ⟨hkind, rfl⟩]
    refine hs.expect fun x hx => ?_
    rw [hexpecting] at hx
    obtain rfl : x = [] := hx
    exact ⟨.number t.literal, by rw [Phrase.meaning, literalValue_eq hv], rfl⟩
  | identifier hexpecting hkind =>
    rw [Token.terminal_eq_identifier.mpr ⟨hkind, rfl⟩]
    refine hs.expect fun x hx => ?_
    rw [hexpecting] at hx
    obtain rfl : x = [] := hx
    exact ⟨.identifier t.literal, rfl, rfl⟩
  | opening hexpecting hkind =>
    rw [Token.terminal_of_kind hkind (by decide) (by decide)]
    obtain ⟨u, v, x, rfl, houter, hlevel, hx⟩ := hs
    rw [hexpecting] at hx
    obtain rfl : x = [] := hx
    exact ⟨_, [], [], by simp, ⟨u, v, rfl, houter, hlevel⟩, Level.spells_start, rfl⟩
  | caret hexpecting hkind =>
    rw [Token.terminal_of_kind hkind (by decide) (by decide)]
    refine hs.expect fun x hx => ?_
    rw [hexpecting] at hx
    obtain ⟨d, rfl, rfl⟩ := hx
    exact ⟨d, rfl, rfl⟩
  | sign sign hexpecting hkind =>
    rw [Token.terminal_of_sign hkind]
    refine hs.expect fun x hx => ?_
    rw [hexpecting] at hx
    obtain ⟨d, rfl, rfl⟩ := hx
    exact ⟨d, sign, rfl, rfl, by simp⟩
  | exponent hexpecting hkind =>
    intro v hv
    rw [Token.terminal_eq_number.mpr ⟨hkind, rfl⟩]
    refine hs.expect fun x hx => ?_
    rw [hexpecting] at hx
    obtain ⟨d, rfl, rfl⟩ := hx
    refine ⟨.power d (.signedNumber none t.literal), ?_, by simp [Phrase.yield]⟩
    simp [Phrase.meaning, literalValue_eq hv]
  | magnitude hexpecting hkind =>
    intro v hv
    rw [Token.terminal_eq_number.mpr ⟨hkind, rfl⟩]
    refine hs.expect fun x hx => ?_
    rw [hexpecting] at hx
    obtain ⟨d, sign, rfl, rfl, rfl⟩ := hx
    refine ⟨.power d (.signedNumber (some sign) t.literal), ?_, by simp [Phrase.yield]⟩
    cases sign <;> simp [Phrase.meaning, literalValue_eq hv]
  | sum sign hexpecting hkind =>
    rw [Token.terminal_of_sign hkind]
    exact hs.withSum hexpecting sign
  | product scaling hexpecting hkind =>
    rw [Token.terminal_of_scaling hkind]
    exact hs.withProduct hexpecting scaling
  | closing hexpecting hkind hout =>
    rw [Token.terminal_of_kind hkind (by decide) (by decide)]
    obtain ⟨u, v, x, rfl, houter, hlevel, hx⟩ := hs
    rw [hexpecting] at hx
    rw [hout] at houter
    obtain ⟨d, rfl, rfl⟩ := hx.factor
    obtain ⟨u', v', rfl, houter, hlevel'⟩ := houter
    obtain ⟨d', hmeaning, hyield⟩ := hlevel.expression d
    refine ⟨u', v', _, ?_, houter, hlevel', .parenthesized d', hmeaning.symm, rfl⟩
    simp [Phrase.yield, hyield]
  | ending hexpecting hkind hout =>
    rw [Token.terminal_of_kind hkind (by decide) (by decide)]
    obtain ⟨u, v, x, rfl, houter, hlevel, hx⟩ := hs
    rw [hexpecting] at hx
    rw [hout] at houter
    obtain ⟨d, rfl, rfl⟩ := hx.factor
    obtain rfl : u = [] := houter
    obtain ⟨d', hmeaning, hyield⟩ := hlevel.expression d
    exact ⟨d', hmeaning.symm, by simp [hyield]⟩

/-- All tokens: if they are accepted, those up to the end spell an expression. -/
theorem spells_run {failure : ParseError} {ts : List Token} {w : List Terminal} {s : State α}
    (hs : s.Spells w) {e : Expr α} (h : run failure s ts = .ok e) :
    ∃ read last rest, ts = read ++ last :: rest ∧ last.kind = .ending ∧
      (∀ t ∈ read, t.kind = .number → (Numeral.value? (α := α) t.literal).isSome = true) ∧
      ∃ d : Phrase .expression, e = d.meaning ∧ w ++ read.map Token.terminal = d.yield := by
  induction ts generalizing s w with
  | nil => cases h
  | cons t ts ih =>
    rw [run] at h
    cases hmove : s.move? t with
    | none => rw [hmove] at h; cases h
    | some m =>
      rw [hmove] at h
      have hm := hs.move hmove
      have hkind := madeBy_of_move? hmove
      -- the tokens behind `t` are read from the next state, whose word ends with `t`
      have hnext : ∀ {s' : State α}, s'.Spells (w ++ [t.terminal]) → run failure s' ts = .ok e →
          (t.kind = .number → (Numeral.value? (α := α) t.literal).isSome = true) →
          ∃ read last rest, t :: ts = read ++ last :: rest ∧ last.kind = .ending ∧
            (∀ t ∈ read, t.kind = .number → (Numeral.value? (α := α) t.literal).isSome = true) ∧
            ∃ d : Phrase .expression, e = d.meaning ∧ w ++ read.map Token.terminal = d.yield := by
        intro s' hs' hrun ht
        obtain ⟨read, last, rest, rfl, hlast, hrange, d, hd, hyield⟩ := ih hs' hrun
        refine ⟨t :: read, last, rest, rfl, hlast, List.forall_mem_cons.mpr ⟨ht, hrange⟩, d, hd, ?_⟩
        rw [← hyield, List.append_assoc]
        rfl
      cases m with
      | shift s' => exact hnext hm h fun ht => absurd ht hkind.1
      | literal next =>
        dsimp only at h
        split at h
        · cases h
        · split at h
          · rename_i v hv
            exact hnext (hm v hv) h fun _ => by rw [hv]; rfl
          · cases h
      | accept e' =>
        cases h
        obtain ⟨d, rfl, hyield⟩ := hm
        rw [Token.terminal_of_kind hkind (by decide) (by decide)] at hyield
        exact ⟨[], t, ts, rfl, hkind, fun _ ht => absurd ht List.not_mem_nil, d, rfl, by
          simpa using List.append_cancel_right hyield⟩

end Parser

/-! ## Texts -/

namespace Expr

/-- Whatever is parsed has a derivation, and no number in it is too large. -/
theorem exists_derivation {text : List UInt8} {n : Expr α} (h : Expr.parse text = .ok n) :
    ∃ ts, tokenize text = .ok ts ∧
      (∀ t ∈ ts, t.kind = .number → (Numeral.value? (α := α) t.literal).isSome = true) ∧
      ∃ d : Phrase .expression, d.yield ++ [.symbol .ending] = ts.map Token.terminal ∧
        d.meaning = n := by
  obtain ⟨read, last, rest, hlist, hlast, hrange, d, rfl, hyield⟩ :=
    Parser.spells_run Parser.State.spells_start h
  obtain ⟨rfl, hfailure⟩ := tokensFrom_ending hlist hlast
  refine ⟨read ++ [last], tokenize_eq_ok.mpr ⟨hfailure, hlist⟩, fun t ht hkind => ?_, d, ?_, rfl⟩
  · rcases List.mem_append.mp ht with ht | ht
    · exact hrange t ht hkind
    · rw [List.mem_singleton.mp ht, hlast] at hkind
      cases hkind
  · rw [List.map_append, ← hyield, List.map_singleton,
      Token.terminal_of_kind hlast (by decide) (by decide)]
    rfl

/-- Whatever has a derivation in which no number is too large is parsed. -/
theorem parse_of_derivation {text : List UInt8} {ts : List Token} (hts : tokenize text = .ok ts)
    (hrange : ∀ t ∈ ts, t.kind = .number → (Numeral.value? (α := α) t.literal).isSome = true)
    {d : Phrase .expression} (hd : d.yield ++ [.symbol .ending] = ts.map Token.terminal) :
    Expr.parse text = .ok (d.meaning : Expr α) := by
  obtain ⟨-, hlist⟩ := tokenize_eq_ok.mp hts
  obtain ⟨read, last, rfl, hread, hlast⟩ := List.map_eq_append_iff.mp hd.symm
  obtain ⟨t, rfl, ht⟩ := List.map_eq_singleton_iff.mp hlast
  have hin : InRange α d.yield := by
    intro literal hmem
    rw [← hread] at hmem
    obtain ⟨t', ht', hterminal⟩ := List.mem_map.mp hmem
    obtain ⟨hkind, rfl⟩ := Token.terminal_eq_number.mp hterminal
    exact hrange t' (List.mem_append_left _ ht') hkind
  have hplace : Parser.ReadsAt 2 d.yield d.meaning := Parser.isRead_meaning d hin
  obtain ⟨s, hleads, hends⟩ := hplace .start (Parser.fits_start 2 [])
  obtain ⟨level, f, p, rfl, hmeaning⟩ := (Parser.ends_sum (le_refl 2)).mp hends
  rw [← hmeaning]
  unfold Expr.parse
  dsimp only
  rw [hlist, hleads read [t] _ hread (by simp)]
  obtain ⟨tkind, literal, offset⟩ := t
  obtain rfl : tkind = .ending := Token.kind_of_terminal ht
  cases p <;> rfl

/-- The parser accepts exactly the texts whose tokens, the end included, are derived by the grammar with
no number that is too large, and it returns what the derivation stands for. The grammar gives each word
one derivation at most, so what is returned depends on the classes and the literals of the tokens
only. -/
theorem parse_eq_ok_iff_derivation :
    (∀ (text : List UInt8) (n : Expr α), Expr.parse text = .ok n ↔
      ∃ ts, tokenize text = .ok ts ∧
        (∀ t ∈ ts, t.kind = .number → (Numeral.value? (α := α) t.literal).isSome = true) ∧
        ∃ d : Phrase .expression, d.yield ++ [.symbol .ending] = ts.map Token.terminal ∧
          d.meaning = n) ∧
      (∀ d d' : Phrase .expression, d.yield = d'.yield → d = d') ∧
      ∀ (text text' : List UInt8) (ts ts' : List Token), tokenize text = .ok ts →
        tokenize text' = .ok ts' → ts.map Token.terminal = ts'.map Token.terminal →
        ∀ n : Expr α, Expr.parse text = .ok n → Expr.parse text' = .ok n := by
  refine ⟨fun text n => ⟨exists_derivation, ?_⟩, fun d d' => Phrase.yield_injective, ?_⟩
  · rintro ⟨ts, hts, hrange, d, hd, rfl⟩
    exact parse_of_derivation hts hrange hd
  · intro text text' ts ts' hts hts' hsame n hn
    obtain ⟨us, hus, hrange, d, hd, rfl⟩ := exists_derivation hn
    obtain rfl : ts = us := Except.ok.inj (hts.symm.trans hus)
    refine parse_of_derivation hts' (fun t ht hkind => ?_) (hd.trans hsame)
    -- a number of the second text is also one of the first
    have hmem : t.terminal ∈ ts.map Token.terminal := hsame ▸ List.mem_map_of_mem ht
    obtain ⟨t', ht', hterminal⟩ := List.mem_map.mp hmem
    rw [Token.terminal_eq_number.mpr ⟨hkind, rfl⟩] at hterminal
    obtain ⟨hkind', hliteral⟩ := Token.terminal_eq_number.mp hterminal
    rw [← hliteral]
    exact hrange t' ht' hkind'

end Expr

end Fluxion
