import Fluxion.Proofs.Grammar.Recognition
import Fluxion.Scalar.Float
import Mathlib.Order.Bounds.Basic

/-!
# The first token that cannot continue

A word is viable if a sentence, which is an expression and the end behind it, begins with it. What the
parser has read is viable, for a phrase can be found that completes each part of a state. What it refuses
is not: which classes may come next depends on the place where the parser stands and on the number of open
parentheses only, and along the word of a derivation it is never refused. So an error points at the first
token with which the text stops being the beginning of a sentence.
-/

namespace Fluxion

namespace Grammar

/-- A sentence begins with the word. -/
def Viable (w : List Terminal) : Prop :=
  ∃ d : Phrase .expression, w <+: d.yield ++ [.symbol .ending]

theorem Viable.of_prefix {w w' : List Terminal} (h : Viable w') (hw : w <+: w') : Viable w := by
  obtain ⟨d, hd⟩ := h
  exact ⟨d, hw.trans hd⟩

theorem viable_take {ts : List Token} {j k : ℕ} (h : Viable ((ts.take j).map Token.terminal))
    (hle : k ≤ j) : Viable ((ts.take k).map Token.terminal) :=
  h.of_prefix ((List.take_prefix_take_left hle).map _)

theorem viable_of_expression {w : List Terminal} {d : Phrase .expression} (h : w <+: d.yield) :
    Viable w :=
  ⟨d, h.trans (List.prefix_append _ _)⟩

/-- The class of the token that the grammar sees. -/
def Terminal.kind : Terminal → TokenKind
  | number _ => .number
  | identifier _ => .identifier
  | symbol kind => kind

/-! ## Places -/

/-- What may come next, without what has been read. -/
inductive Place where
  | operand
  | exponent
  | magnitude
  | operator (primary : Bool)
  | finished
deriving DecidableEq

/-- A place inside a number of open parentheses. -/
structure Position where
  place : Place
  depth : ℕ
deriving DecidableEq

namespace Position

/-- The position behind a token of the class; `none` if it cannot come next. -/
def after? (p : Position) (kind : TokenKind) : Option Position :=
  match p.place, kind with
  | .operand, .number | .operand, .identifier => some ⟨.operator true, p.depth⟩
  | .operand, .opening => some ⟨.operand, p.depth + 1⟩
  | .exponent, .plus | .exponent, .minus => some ⟨.magnitude, p.depth⟩
  | .exponent, .number | .magnitude, .number => some ⟨.operator false, p.depth⟩
  | .operator true, .caret => some ⟨.exponent, p.depth⟩
  | .operator _, .plus | .operator _, .minus | .operator _, .star | .operator _, .slash =>
    some ⟨.operand, p.depth⟩
  | .operator _, .closing => if p.depth = 0 then none else some ⟨.operator true, p.depth - 1⟩
  | .operator _, .ending => if p.depth = 0 then some ⟨.finished, 0⟩ else none
  | _, _ => none

/-- The position behind a word. -/
def follow? (p : Position) (w : List Terminal) : Option Position :=
  w.foldlM (fun q t => q.after? t.kind) p

theorem follow?_append (p : Position) (w w' : List Terminal) :
    p.follow? (w ++ w') = (p.follow? w).bind fun q => q.follow? w' :=
  List.foldlM_append

theorem follow?_singleton (p : Position) (t : Terminal) : p.follow? [t] = p.after? t.kind := by
  simp [follow?]

end Position

/-- The word leads from one place to another inside any number of open parentheses. -/
def Place.Leads (p : Place) (w : List Terminal) (q : Place) : Prop :=
  ∀ depth, Position.follow? ⟨p, depth⟩ w = some ⟨q, depth⟩

theorem Place.leads_nil (p : Place) : p.Leads [] p := fun _ => rfl

theorem Place.Leads.append {p q r : Place} {w w' : List Terminal} (h : p.Leads w q)
    (h' : q.Leads w' r) : p.Leads (w ++ w') r := by
  intro depth
  rw [Position.follow?_append, h depth]
  exact h' depth

theorem Place.Leads.cons {p q r : Place} {t : Terminal} {w : List Terminal} (h : p.Leads [t] q)
    (h' : q.Leads w r) : p.Leads (t :: w) r := h.append h'

/-- A place at which a phrase of the category may begin. -/
def Category.StartsAt : Category → Place → Prop
  | expression, p | term, p | factor, p | primary, p => p = .operand
  | terms, p | factors, p => ∃ primary, p = .operator primary
  | signedNumber, p => p = .exponent

/-- A place at which a phrase of the category may have ended. -/
def Category.EndsAt : Category → Place → Prop
  | primary, p => p = .operator true
  | _, p => ∃ primary, p = .operator primary

theorem leads_sign (primary : Bool) (sign : Sign) :
    (Place.operator primary).Leads [.symbol sign.kind] .operand := by
  intro depth
  cases primary <;> cases sign <;> rfl

theorem leads_scaling (primary : Bool) (scaling : Scaling) :
    (Place.operator primary).Leads [.symbol scaling.kind] .operand := by
  intro depth
  cases primary <;> cases scaling <;> rfl

/-- A derivation is never refused. -/
theorem leads_yield {c : Category} (d : Phrase c) {p : Place} (hp : c.StartsAt p) :
    ∃ q, c.EndsAt q ∧ p.Leads d.yield q := by
  induction d generalizing p with
  | expression first rest ihfirst ihrest | term first rest ihfirst ihrest =>
    obtain ⟨q, hq, hfirst⟩ := ihfirst hp
    obtain ⟨r, hr, hrest⟩ := ihrest hq
    exact ⟨r, hr, hfirst.append hrest⟩
  | noTerms | noFactors => exact ⟨p, hp, p.leads_nil⟩
  | moreTerms sign next rest ihnext ihrest =>
    obtain ⟨primary, rfl⟩ := hp
    obtain ⟨q, hq, hnext⟩ := ihnext rfl
    obtain ⟨r, hr, hrest⟩ := ihrest hq
    exact ⟨r, hr, (leads_sign primary sign).cons (hnext.append hrest)⟩
  | moreFactors scaling next rest ihnext ihrest =>
    obtain ⟨primary, rfl⟩ := hp
    obtain ⟨q, hq, hnext⟩ := ihnext rfl
    obtain ⟨r, hr, hrest⟩ := ihrest hq
    exact ⟨r, hr, (leads_scaling primary scaling).cons (hnext.append hrest)⟩
  | plain base ih =>
    obtain ⟨q, hq, hbase⟩ := ih hp
    exact ⟨q, ⟨true, hq⟩, hbase⟩
  | power base exponent ihbase ihexponent =>
    obtain ⟨q, rfl, hbase⟩ := ihbase hp
    obtain ⟨r, hr, hexponent⟩ := ihexponent rfl
    have hcaret : (Place.operator true).Leads [.symbol .caret] .exponent := fun depth => rfl
    exact ⟨r, hr, hbase.append (hcaret.cons hexponent)⟩
  | signedNumber sign literal =>
    obtain rfl : p = .exponent := hp
    refine ⟨.operator false, ⟨false, rfl⟩, fun depth => ?_⟩
    rcases sign with _ | _ | _ <;> rfl
  | number literal | identifier name =>
    obtain rfl : p = .operand := hp
    exact ⟨.operator true, rfl, fun depth => rfl⟩
  | parenthesized inner ih =>
    obtain rfl : p = .operand := hp
    obtain ⟨q, ⟨primary, rfl⟩, hinner⟩ := ih rfl
    refine ⟨.operator true, rfl, fun depth => ?_⟩
    -- the inner word is read with one more open parenthesis
    have hopening : Position.follow? ⟨.operand, depth⟩ [.symbol .opening] =
        some ⟨.operand, depth + 1⟩ := rfl
    have hclosing : Position.follow? ⟨.operator primary, depth + 1⟩ [.symbol .closing] =
        some ⟨.operator true, depth⟩ := by
      cases primary <;> rfl
    rw [Phrase.yield, ← List.singleton_append, Position.follow?_append, hopening, Option.bind_some,
      Position.follow?_append, hinner, Option.bind_some, hclosing]

/-- A viable word is never refused. -/
theorem Viable.isSome_follow? {w : List Terminal} (h : Viable w) :
    ((Position.mk .operand 0).follow? w).isSome = true := by
  obtain ⟨d, rest, hd⟩ := h
  obtain ⟨q, ⟨primary, rfl⟩, hleads⟩ := leads_yield d (c := .expression) rfl
  have hsentence : (Position.mk .operand 0).follow? (w ++ rest) = some ⟨.finished, 0⟩ := by
    rw [hd, Position.follow?_append, hleads, Option.bind_some]
    cases primary <;> rfl
  rw [Position.follow?_append] at hsentence
  obtain ⟨q, hq, -⟩ := Option.bind_eq_some_iff.mp hsentence
  rw [hq]
  rfl

end Grammar

open Grammar

theorem Token.kind_terminal (t : Token) : t.terminal.kind = t.kind := by
  unfold Token.terminal
  split <;> simp_all [Terminal.kind]

variable {α : Type} [Scalar α]

namespace Parser

/-! ## What is refused is not viable -/

/-- What the state expects. -/
def Expecting.place : Expecting α → Place
  | operand => .operand
  | exponent _ => .exponent
  | magnitude _ _ => .magnitude
  | operator _ primary => .operator primary

def State.position (s : State α) : Position := ⟨s.expecting.place, s.outer.length⟩

/-- Where a move leads; which number it is does not matter. -/
def Move.position : Move α → Position
  | shift s => s.position
  | literal next => (next 0).position
  | accept _ => ⟨.finished, 0⟩

/-- The parser moves from position to position. -/
theorem position_move? (s : State α) (t : Token) :
    (s.move? t).map Move.position = s.position.after? t.kind := by
  obtain ⟨level, outer, expecting⟩ := s
  obtain ⟨kind, literal, offset⟩ := t
  cases expecting with
  | operand | exponent base | magnitude base negative => cases kind <;> rfl
  | operator factor primary => cases outer <;> cases primary <;> cases kind <;> rfl

theorem position_literal {s : State α} {t : Token} {next : α → State α}
    (h : s.move? t = some (.literal next)) (v : α) : (next v).position = (next 0).position := by
  cases moves_of_move? h <;> rfl

/-! ## What is read is viable -/

/-- What waits outside and an expression inside are completed by the parentheses that are missing. -/
theorem exists_closed {w : List Terminal} {outer : List (Level α)} (h : SpellsOuter w outer)
    (d : Phrase .expression) : ∃ d' : Phrase .expression, w ++ d.yield <+: d'.yield := by
  induction outer generalizing w d with
  | nil =>
    obtain rfl : w = [] := h
    exact ⟨d, List.prefix_refl _⟩
  | cons level outer ih =>
    obtain ⟨u, v, rfl, houter, hlevel⟩ := h
    obtain ⟨e, -, hyield⟩ := hlevel.expression (.plain (.parenthesized d))
    obtain ⟨d', hd'⟩ := ih houter e
    refine ⟨d', List.IsPrefix.trans ?_ hd'⟩
    rw [hyield]
    exact ⟨[.symbol .closing], by simp [Phrase.yield]⟩

/-- A word goes on to a sentence if its last part goes on to a factor. -/
theorem State.Spells.viable_append {w : List Terminal} {s : State α} (hs : s.Spells w)
    {more : List Terminal}
    (h : ∀ x, s.expecting.Spells x → ∃ d : Phrase .factor, x ++ more <+: d.yield) :
    Viable (w ++ more) := by
  obtain ⟨u, v, x, rfl, houter, hlevel, hexpecting⟩ := hs
  obtain ⟨d, hd⟩ := h x hexpecting
  obtain ⟨e, -, hyield⟩ := hlevel.expression d
  obtain ⟨d', hd'⟩ := exists_closed houter e
  refine viable_of_expression (d := d') (List.IsPrefix.trans ?_ hd')
  rw [hyield, List.append_assoc, List.append_assoc]
  exact (List.prefix_append_right_inj u).mpr ((List.prefix_append_right_inj v).mpr hd)

theorem State.Spells.viable {w : List Terminal} {s : State α} (hs : s.Spells w) : Viable w := by
  have hw : Viable (w ++ []) := by
    refine hs.viable_append fun x hx => ?_
    rw [List.append_nil]
    generalize s.expecting = expecting at hx
    cases expecting with
    | operand =>
      obtain rfl : x = [] := hx
      exact ⟨.plain (.identifier "x"), List.nil_prefix⟩
    | exponent base =>
      obtain ⟨d, -, rfl⟩ := hx
      exact ⟨.power d (.signedNumber none "0"), [.number "0"], by simp [Phrase.yield]⟩
    | magnitude base negative =>
      obtain ⟨d, sign, -, -, rfl⟩ := hx
      exact ⟨.power d (.signedNumber (some sign) "0"), [.number "0"], by simp [Phrase.yield]⟩
    | operator factor primary =>
      obtain ⟨d, -, rfl⟩ := hx.factor
      exact ⟨d, List.prefix_refl _⟩
  rwa [List.append_nil] at hw

/-- A token that is not refused goes on to a sentence, too large a number as well. -/
theorem State.Spells.viable_move {w : List Terminal} {s : State α} (hs : s.Spells w) {t : Token}
    {m : Move α} (h : s.move? t = some m) : Viable (w ++ [t.terminal]) := by
  have hmoves := moves_of_move? h
  have hspells := hs.move h
  cases m with
  | shift s' => exact State.Spells.viable hspells
  | accept e =>
    obtain ⟨d, -, hyield⟩ := hspells
    exact ⟨d, by rw [hyield]⟩
  | literal next =>
    refine hs.viable_append fun x hx => ?_
    cases hmoves with
    | number hexpecting hkind =>
      rw [hexpecting] at hx
      obtain rfl : x = [] := hx
      rw [Token.terminal_eq_number.mpr ⟨hkind, rfl⟩]
      exact ⟨.plain (.number t.literal), List.prefix_refl _⟩
    | exponent hexpecting hkind =>
      rw [hexpecting] at hx
      obtain ⟨d, -, rfl⟩ := hx
      rw [Token.terminal_eq_number.mpr ⟨hkind, rfl⟩]
      exact ⟨.power d (.signedNumber none t.literal), by simp [Phrase.yield]⟩
    | magnitude hexpecting hkind =>
      rw [hexpecting] at hx
      obtain ⟨d, sign, -, -, rfl⟩ := hx
      rw [Token.terminal_eq_number.mpr ⟨hkind, rfl⟩]
      exact ⟨.power d (.signedNumber (some sign) t.literal), by simp [Phrase.yield]⟩

/-- No class that an error names would have been refused. -/
theorem isSome_move?_of_expected {s : State α} {t : Token} (h : t.kind ∈ s.expected) :
    (s.move? t).isSome = true := by
  obtain ⟨level, outer, expecting⟩ := s
  obtain ⟨kind, literal, offset⟩ := t
  cases expecting with
  | operand | exponent base | magnitude base negative =>
    revert h
    cases kind <;> simp [State.expected, State.move?]
  | operator factor primary =>
    revert h
    cases outer <;> cases primary <;> cases kind <;> simp [State.expected, State.move?]

omit [Scalar α] in
theorem expected_ne_nil (s : State α) : s.expected ≠ [] := by
  unfold State.expected
  split
  · exact List.cons_ne_nil _ _
  · exact List.cons_ne_nil _ _
  · exact List.cons_ne_nil _ _
  · split <;> exact List.cons_ne_nil _ _

/-! ## What is read -/

/-- The word has been read: it is what the parts of the state mean, and it leads to where the state
stands. -/
structure State.HasRead (s : State α) (w : List Terminal) : Prop where
  spells : s.Spells w
  follow : (Position.mk .operand 0).follow? w = some s.position

theorem State.hasRead_start : (State.start : State α).HasRead [] := ⟨State.spells_start, rfl⟩

variable {s : State α} {w : List Terminal}

theorem State.HasRead.follow_append (hs : s.HasRead w) (t : Token) :
    (Position.mk .operand 0).follow? (w ++ [t.terminal]) = (s.move? t).map Move.position := by
  rw [Position.follow?_append, hs.follow, Option.bind_some, Position.follow?_singleton,
    Token.kind_terminal, position_move?]

theorem State.HasRead.shift (hs : s.HasRead w) {t : Token} {s' : State α}
    (h : s.move? t = some (.shift s')) : s'.HasRead (w ++ [t.terminal]) := by
  refine ⟨hs.spells.move h, ?_⟩
  rw [hs.follow_append, h]
  rfl

theorem State.HasRead.literal (hs : s.HasRead w) {t : Token} {next : α → State α}
    (h : s.move? t = some (.literal next)) {v : α} (hv : Numeral.value? t.literal = some v) :
    (next v).HasRead (w ++ [t.terminal]) := by
  refine ⟨hs.spells.move h v hv, ?_⟩
  rw [hs.follow_append, h, position_literal h v]
  rfl

theorem State.HasRead.not_viable (hs : s.HasRead w) {t : Token} (h : s.move? t = none) :
    ¬Viable (w ++ [t.terminal]) := by
  intro hviable
  have hsome := hviable.isSome_follow?
  rw [hs.follow_append, h] at hsome
  cases hsome

/-- How reading the tokens ends, of which the word has been read before. -/
inductive Outcome (failure : ParseError) (w : List Terminal) (ts : List Token) :
    Except ParseError (Expr α) → Prop where
  /-- A sentence is accepted, and what follows the end is not looked at. -/
  | accepted {e : Expr α} (read : List Token) {rest : List Token} {last : Token}
    (hts : ts = read ++ last :: rest) (hlast : last.kind = .ending)
    (hviable : Viable (w ++ (read ++ [last]).map Token.terminal)) :
    Outcome failure w ts (.ok e)
  /-- The tokens end before the end comes. -/
  | cut (hend : ∀ t ∈ ts, t.kind ≠ .ending) (hviable : Viable (w ++ ts.map Token.terminal)) :
    Outcome failure w ts (.error failure)
  /-- A token is refused. -/
  | refused {expected : List TokenKind} (read : List Token) {rest : List Token} {t : Token}
    (hts : ts = read ++ t :: rest) (hviable : Viable (w ++ read.map Token.terminal))
    (hrefused : ¬Viable (w ++ (read ++ [t]).map Token.terminal)) (hne : expected ≠ [])
    (hexpected : ∀ u : Token, u.kind ∈ expected →
      Viable (w ++ (read ++ [u]).map Token.terminal)) :
    Outcome failure w ts (.error (.mismatch expected t.kind t.offset))

omit [Scalar α] in
/-- A token that has been read belongs to the word. -/
theorem Outcome.cons {failure : ParseError} {t : Token} {ts : List Token} (ht : t.kind ≠ .ending)
    {r : Except ParseError (Expr α)} (h : Outcome failure (w ++ [t.terminal]) ts r) :
    Outcome failure w (t :: ts) r := by
  have hword (us : List Token) :
      w ++ [t.terminal] ++ us.map Token.terminal = w ++ (t :: us).map Token.terminal := by
    rw [List.append_assoc, List.map_cons, List.singleton_append]
  cases h with
  | @accepted e read rest last hts hlast hviable =>
    rw [hword] at hviable
    exact .accepted (t :: read) (by rw [hts]; rfl) hlast hviable
  | cut hend hviable =>
    rw [hword] at hviable
    exact .cut (List.forall_mem_cons.mpr ⟨ht, hend⟩) hviable
  | @refused expected read rest u hts hviable hrefused hne hexpected =>
    rw [hword] at hviable hrefused
    refine .refused (t :: read) (by rw [hts]; rfl) hviable hrefused hne fun v hv => ?_
    have hv := hexpected v hv
    rwa [hword] at hv

/-- Reading tokens without a number that is too large: they are accepted, or they end too early, or
the first one that does not go on to a sentence is refused. -/
theorem outcome_run (failure : ParseError) {ts : List Token}
    (hrange : ∀ t ∈ ts, t.kind = .number → (Numeral.value? (α := α) t.literal).isSome = true)
    (hs : s.HasRead w) : Outcome failure w ts (run failure s ts) := by
  induction ts generalizing s w with
  | nil =>
    refine .cut (fun t ht => absurd ht List.not_mem_nil) ?_
    rw [List.map_nil, List.append_nil]
    exact hs.spells.viable
  | cons t ts ih =>
    obtain ⟨ht, hrange⟩ := List.forall_mem_cons.mp hrange
    rw [run]
    cases hmove : s.move? t with
    | none =>
      dsimp only
      refine .refused [] rfl ?_ (hs.not_viable hmove) (expected_ne_nil s) fun u hu => ?_
      · rw [List.map_nil, List.append_nil]
        exact hs.spells.viable
      · obtain ⟨m, hm⟩ := Option.isSome_iff_exists.mp (isSome_move?_of_expected hu)
        exact hs.spells.viable_move hm
    | some m =>
      have hmade := madeBy_of_move? hmove
      have hviable := hs.spells.viable_move hmove
      -- the state behind a token has read the word with the token at its end
      cases m with
      | accept e => exact .accepted [] rfl hmade hviable
      | shift s' => exact (ih hrange (hs.shift hmove)).cons hmade.2
      | literal next =>
        have hkind : t.kind = .number := hmade
        have hend : t.kind ≠ .ending := by rw [hkind]; decide
        obtain ⟨v, hv⟩ := Option.isSome_iff_exists.mp (ht hkind)
        dsimp only
        split
        · -- the value of the last number is not looked at when the tokens end behind it
          rename_i hempty
          obtain rfl := List.isEmpty_iff.mp hempty
          refine .cut (fun u hu => ?_) hviable
          rw [List.mem_singleton.mp hu]
          exact hend
        · rw [hv]
          exact (ih hrange (hs.literal hmove hv)).cons hend

end Parser

/-! ## Texts -/

namespace Expr

variable {text : List UInt8}

/-- How a text without a number that is too large is parsed: its tokens are viable, and it is accepted or
the error that stops them is reported, or a token is refused. -/
theorem parse_cases
    (hrange : ∀ t ∈ (tokens text).list, t.kind = .number →
      (Numeral.value? (α := α) t.literal).isSome = true) :
    (Viable ((tokens text).list.map Token.terminal) ∧
      match (tokens text).failure with
      | none => ∃ e, Expr.parse (α := α) text = .ok e
      | some e => Expr.parse (α := α) text = .error (.lexical e)) ∨
    ∃ expected j t, Expr.parse (α := α) text = .error (.mismatch expected t.kind t.offset) ∧
      (tokens text).list[j]? = some t ∧
      IsLeast {k | ¬Viable (((tokens text).list.take k).map Token.terminal)} (j + 1) ∧
      expected ≠ [] ∧ ∀ u : Token, u.kind ∈ expected →
        Viable (((tokens text).list.take j ++ [u]).map Token.terminal) := by
  have houtcome := Parser.outcome_run (.lexical ((tokens text).failure.getD .exhausted)) hrange
    Parser.State.hasRead_start
  have hparse : Expr.parse (α := α) text =
      Parser.run (.lexical ((tokens text).failure.getD .exhausted)) .start (tokens text).list := rfl
  rw [← hparse] at houtcome
  generalize hresult : Expr.parse (α := α) text = result at houtcome
  cases houtcome with
  | @accepted e read rest last hlist hlast hviable =>
    obtain ⟨rfl, hfailure⟩ := tokensFrom_ending hlist hlast
    refine Or.inl ⟨hlist ▸ hviable, ?_⟩
    have hnone : (tokens text).failure = none := hfailure
    rw [hnone]
    exact ⟨e, rfl⟩
  | cut hend hviable =>
    refine Or.inl ⟨hviable, ?_⟩
    rcases tokensFrom_stops text 0 with ⟨front, t, htokens, ht⟩ | ⟨list, char, stop, htokens⟩
    · have hlist : (tokens text).list = front ++ [t] := congrArg Tokens.list htokens
      exact absurd ht (hend t (by simp [hlist]))
    · have hfailure : (tokens text).failure = some (.unexpected char stop) :=
        congrArg Tokens.failure htokens
      rw [hfailure]
      rfl
  | @refused expected read rest t hlist hviable hrefused hne hexpected =>
    have htake : (tokens text).list.take read.length = read := by rw [hlist, List.take_left]
    have htake' : (tokens text).list.take (read.length + 1) = read ++ [t] := by
      rw [hlist, List.take_length_add_append]
      rfl
    refine Or.inr ⟨expected, read.length, t, rfl, by simp [hlist], ⟨?_, fun k hk => ?_⟩, hne, ?_⟩
    · change ¬Viable (((tokens text).list.take (read.length + 1)).map Token.terminal)
      rwa [htake']
    · by_contra hlt
      rw [← htake] at hviable
      exact hk (viable_take hviable (by omega))
    · rwa [htake]

variable (α) in
/-- If no number of the text is too large, the parser complains of a token exactly if the tokens stop being
the beginning of a sentence. It then points at the first token with which they do, and any token of a class
that it names would have gone on to a sentence. It reports the error that stops the tokens exactly if there
is one and the tokens in front of it are the beginning of a sentence. -/
theorem parse_error_at_first
    (hrange : ∀ t ∈ (tokens text).list, t.kind = .number →
      (Numeral.value? (α := α) t.literal).isSome = true) :
    ((∃ expected found offset, Expr.parse (α := α) text = .error (.mismatch expected found offset)) ↔
      ∃ j, ¬Viable (((tokens text).list.take j).map Token.terminal)) ∧
    (∀ expected found offset, Expr.parse (α := α) text = .error (.mismatch expected found offset) →
      ∃ j t, IsLeast {k | ¬Viable (((tokens text).list.take k).map Token.terminal)} (j + 1) ∧
        (tokens text).list[j]? = some t ∧ found = t.kind ∧ offset = t.offset ∧ expected ≠ [] ∧
        ∀ u : Token, u.kind ∈ expected →
          Viable (((tokens text).list.take j ++ [u]).map Token.terminal)) ∧
    ∀ e, Expr.parse (α := α) text = .error (.lexical e) ↔
      (tokens text).failure = some e ∧ Viable ((tokens text).list.map Token.terminal) := by
  rcases parse_cases (α := α) hrange with ⟨hviable, hresult⟩ |
    ⟨expected, j, t, hresult, ht, hleast, hne, hexpected⟩
  · have hall (k : ℕ) : Viable (((tokens text).list.take k).map Token.terminal) :=
      hviable.of_prefix ((List.take_prefix k _).map _)
    have hno (expected : List TokenKind) (found : TokenKind) (offset : ℕ) :
        Expr.parse (α := α) text ≠ .error (.mismatch expected found offset) := by
      intro herror
      rw [herror] at hresult
      split at hresult
      · obtain ⟨e, he⟩ := hresult
        cases he
      · cases hresult
    refine ⟨⟨?_, ?_⟩, fun expected found offset h => absurd h (hno _ _ _), fun e => ?_⟩
    · rintro ⟨expected, found, offset, h⟩
      exact absurd h (hno _ _ _)
    · rintro ⟨k, hk⟩
      exact absurd (hall k) hk
    · cases hfailure : (tokens text).failure with
      | none =>
        rw [hfailure] at hresult
        obtain ⟨n, hn⟩ := hresult
        simp [hn]
      | some e' =>
        rw [hfailure] at hresult
        simp [hresult, hviable]
  · refine ⟨⟨fun _ => ⟨j + 1, hleast.1⟩, fun _ => ⟨_, _, _, hresult⟩⟩, ?_, fun e => ?_⟩
    · intro expected' found offset h
      rw [hresult] at h
      cases h
      exact ⟨j, t, hleast, ht, rfl, rfl, hne, hexpected⟩
    · constructor
      · intro h
        rw [hresult] at h
        cases h
      · rintro ⟨-, hviable⟩
        exact absurd (hviable.of_prefix ((List.take_prefix _ _).map _)) hleast.1

/-- A power of a power stops being the beginning of a sentence at its second caret. -/
theorem parse_error_at_first_caret :
    (∀ t ∈ (tokens (Utf8.bytes "x^2^3")).list, t.kind = .number →
      (Numeral.value? (α := Float) t.literal).isSome = true) ∧
    ∃ j t, IsLeast {k | ¬Viable (((tokens (Utf8.bytes "x^2^3")).list.take k).map Token.terminal)}
      (j + 1) ∧ (tokens (Utf8.bytes "x^2^3")).list[j]? = some t ∧ t.kind = .caret ∧ t.offset = 3 := by
  have hrange : ∀ t ∈ (tokens (Utf8.bytes "x^2^3")).list, t.kind = .number →
      (Numeral.value? (α := Float) t.literal).isSome = true := by decide +kernel
  have hparse : Expr.parse (α := Float) (Utf8.bytes "x^2^3") = .error (.mismatch [.ending] .caret 3) := by
    decide +kernel
  obtain ⟨j, t, hleast, ht, hkind, hoffset, -⟩ :=
    (parse_error_at_first Float hrange).2.1 _ _ _ hparse
  exact ⟨hrange, j, t, hleast, ht, hkind.symm, hoffset.symm⟩

end Expr

end Fluxion
