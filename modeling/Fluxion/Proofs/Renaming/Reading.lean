import Fluxion.Proofs.Grammar.Recognition
import Fluxion.Proofs.Renaming.Passes

/-!
# Renamed texts

A text is renamed by replacing every run of letters. Such a run is always a token by itself, so the renamed
text has the same tokens with the identifiers renamed. The reader keeps the names that it meets and never
looks at them: on the renamed tokens it goes through the renamed states and ends with the renamed tree.
-/

namespace Fluxion

namespace Renaming

variable (σ : Renaming)

/-- The text with every run of letters replaced by its new name. -/
def text (bs : List UInt8) : List UInt8 :=
  match bs with
  | [] => []
  | b :: rest =>
    if isLetter b then
      Utf8.bytes (σ.apply (Utf8.ofAscii ((b :: rest).takeWhile isLetter))) ++
        text ((b :: rest).dropWhile isLetter)
    else b :: text rest
termination_by bs.length
decreasing_by
  · exact length_dropWhile_lt (by assumption)
  · exact Nat.lt_succ_self _

theorem text_nil : σ.text [] = [] := by rw [text]

theorem text_of_not_letter {b : UInt8} (h : isLetter b = false) (rest : List UInt8) :
    σ.text (b :: rest) = b :: σ.text rest := by
  rw [text, if_neg (by simp [h])]

theorem text_of_letter {b : UInt8} (h : isLetter b = true) (rest : List UInt8) :
    σ.text (b :: rest) =
      Utf8.bytes (σ.apply (Utf8.ofAscii ((b :: rest).takeWhile isLetter))) ++
        σ.text ((b :: rest).dropWhile isLetter) := by
  rw [text, if_pos h]

/-- The name of a run of letters, and what is read of its bytes. -/
theorem isIdentifier_run {b : UInt8} (h : isLetter b = true) (rest : List UInt8) :
    isIdentifier (Utf8.ofAscii ((b :: rest).takeWhile isLetter)) = true := by
  refine isIdentifier_ofAscii ?_ fun a ha => List.mem_takeWhile_imp ha
  rw [List.takeWhile_cons_of_pos h]
  exact List.cons_ne_nil _ _

/-- Where there was a letter there is one again. -/
theorem exists_letter {b : UInt8} (h : isLetter b = true) (rest : List UInt8) :
    ∃ c more, σ.text (b :: rest) = c :: more ∧ isLetter c = true := by
  have hname := isIdentifier_run h rest
  rw [← σ.isIdentifier_apply] at hname
  rw [σ.text_of_letter h]
  cases hbytes : Utf8.bytes (σ.apply (Utf8.ofAscii ((b :: rest).takeWhile isLetter))) with
  | nil =>
    have hempty : σ.apply (Utf8.ofAscii ((b :: rest).takeWhile isLetter)) = "" :=
      Utf8.bytes_injective (hbytes.trans (by decide +kernel))
    rw [hempty] at hname
    exact absurd hname (by decide +kernel)
  | cons c more =>
    rw [isIdentifier, Bool.and_eq_true, hbytes, List.all_cons, Bool.and_eq_true] at hname
    exact ⟨c, more ++ _, rfl, hname.2.1⟩

/-- Runs of bytes that are no letters are left as they are. -/
theorem span_text {p : UInt8 → Bool} (hp : ∀ b, isLetter b = true → p b = false) (bs : List UInt8) :
    (σ.text bs).takeWhile p = bs.takeWhile p ∧ (σ.text bs).dropWhile p = σ.text (bs.dropWhile p) := by
  induction bs with
  | nil => simp [text_nil]
  | cons b bs ih =>
    cases hletter : isLetter b with
    | true =>
      obtain ⟨c, more, htext, hc⟩ := σ.exists_letter hletter bs
      simp [htext, hp c hc, hp b hletter]
    | false =>
      rw [σ.text_of_not_letter hletter]
      cases hb : p b with
      | true => simp [hb, ih.1, ih.2]
      | false => simp [hb, σ.text_of_not_letter hletter]

theorem head?_text (bs : List UInt8) :
    ((σ.text bs).head? == some pointByte) = (bs.head? == some pointByte) := by
  have hpoint {c : UInt8} (hc : isLetter c = true) : (some c == some pointByte) = false := by
    rw [beq_eq_false_iff_ne]
    intro h
    rw [Option.some.inj h] at hc
    exact absurd hc (by decide)
  cases bs with
  | nil => rw [text_nil]
  | cons b bs =>
    cases hletter : isLetter b with
    | true =>
      obtain ⟨c, more, htext, hc⟩ := σ.exists_letter hletter bs
      rw [htext, List.head?_cons, List.head?_cons, hpoint hc, hpoint hletter]
    | false => rw [σ.text_of_not_letter hletter, List.head?_cons, List.head?_cons]

end Renaming

/-! ## Tokens -/

/-- The tokens are of one class and have the same text, up to renaming if they are identifiers. -/
structure Token.Renames (σ : Renaming) (t t' : Token) : Prop where
  kind : t'.kind = t.kind
  literal : t'.literal = if t.kind = .identifier then σ.apply t.literal else t.literal

/-- What stands at the front of a text and of the renamed text. -/
inductive Scan.Renames (σ : Renaming) : Scan → Scan → Prop
  | token {t t' : Token} (h : t.Renames σ t') (rest : List UInt8) :
    Renames σ (.token t rest) (.token t' (σ.text rest))
  | finish (offset offset' : ℕ) : Renames σ (.finish offset) (.finish offset')
  | reject (char char' : Char) (offset offset' : ℕ) (rest rest' : List UInt8) :
    Renames σ (.reject char offset rest) (.reject char' offset' rest')

section Tokens

variable (σ : Renaming)

theorem Scan.renames_number (bs : List UInt8) (offset offset' : ℕ) :
    (Scan.number bs offset).Renames σ (Scan.number (σ.text bs) offset') := by
  have hdigit : ∀ b, isLetter b = true → isDigit b = false := fun b hb => (not_blank_of_letter hb).2
  obtain ⟨hwhole, hafter⟩ := σ.span_text hdigit bs
  rw [Scan.number, Scan.number, hwhole, hafter]
  have hplain (literal : List UInt8) : Token.Renames σ ⟨.number, Utf8.ofAscii literal, offset⟩
      ⟨.number, Utf8.ofAscii literal, offset'⟩ := ⟨rfl, rfl⟩
  cases hrest : bs.dropWhile isDigit with
  | nil =>
    rw [σ.text_nil]
    have h := Scan.Renames.token (hplain (bs.takeWhile isDigit)) []
    rwa [σ.text_nil] at h
  | cons b more =>
    cases hletter : isLetter b with
    | true =>
      obtain ⟨c, more', htext, hc⟩ := σ.exists_letter hletter more
      have hpoint {a : UInt8} (ha : isLetter a = true) : (a == pointByte) = false := by
        rw [beq_eq_false_iff_ne]
        rintro rfl
        exact absurd ha (by decide)
      have h := Scan.Renames.token (hplain (bs.takeWhile isDigit)) (b :: more)
      simp only [htext, hpoint hc, hpoint hletter] at h ⊢
      exact h
    | false =>
      rw [σ.text_of_not_letter hletter]
      dsimp only
      split
      · obtain ⟨hfraction, hlast⟩ := σ.span_text hdigit more
        rw [hfraction, hlast, σ.head?_text]
        split
        · exact .reject ..
        · exact .token (hplain _) _
      · have h := Scan.Renames.token (hplain (bs.takeWhile isDigit)) (b :: more)
        rwa [σ.text_of_not_letter hletter] at h

theorem Scan.renames_identifier {b : UInt8} (h : isLetter b = true) (rest : List UInt8)
    (offset offset' : ℕ) :
    (Scan.identifier (b :: rest) offset).Renames σ (Scan.identifier (σ.text (b :: rest)) offset') := by
  have hname := Renaming.isIdentifier_run h rest
  have hnew : isIdentifier (σ.apply (Utf8.ofAscii ((b :: rest).takeWhile isLetter))) = true := by
    rw [σ.isIdentifier_apply, hname]
  rw [isIdentifier, Bool.and_eq_true, List.all_eq_true] at hnew
  have hrest : ∀ c ∈ (σ.text ((b :: rest).dropWhile isLetter)).head?, isLetter c = false := by
    cases hdrop : (b :: rest).dropWhile isLetter with
    | nil => simp [σ.text_nil]
    | cons c more =>
      have hc : isLetter c = false := by
        have := List.head?_dropWhile_not isLetter (b :: rest)
        rw [hdrop] at this
        simpa using this
      rw [σ.text_of_not_letter hc]
      rintro _ ⟨⟩
      exact hc
  obtain ⟨htake, hdrop⟩ := span_append hnew.2 hrest
  rw [Scan.identifier, Scan.identifier, σ.text_of_letter h, htake, hdrop,
    Utf8.ofAscii_bytes fun c hc => isLetter_lt (hnew.2 c hc)]
  refine .token ?_ _
  exact ⟨rfl, (if_pos rfl).symm⟩

theorem Scan.renames_ofVisible (bs : List UInt8) (offset offset' : ℕ) :
    (Scan.ofVisible bs offset).Renames σ (Scan.ofVisible (σ.text bs) offset') := by
  cases bs with
  | nil =>
    rw [σ.text_nil]
    exact .finish ..
  | cons b rest =>
    cases hletter : isLetter b with
    | true =>
      obtain ⟨c, more, htext, hc⟩ := σ.exists_letter hletter rest
      have h := Scan.renames_identifier σ hletter rest offset offset'
      rw [htext] at h ⊢
      simpa [Scan.ofVisible, (not_blank_of_letter hletter).2, (not_blank_of_letter hc).2, hletter, hc]
        using h
    | false =>
      have hnumber := Scan.renames_number σ (b :: rest) offset offset'
      rw [σ.text_of_not_letter hletter] at hnumber ⊢
      rw [Scan.ofVisible, Scan.ofVisible, hletter]
      split
      · exact hnumber
      · rw [if_neg Bool.false_ne_true, if_neg Bool.false_ne_true]
        cases hkind : TokenKind.ofByte? b with
        | none => exact .reject ..
        | some kind =>
          have hne : kind ≠ .identifier := fun h => TokenKind.ofByte?_ne_identifier b (h ▸ hkind)
          refine .token ?_ rest
          exact ⟨rfl, (if_neg hne).symm⟩

theorem scan_renames (bs : List UInt8) (offset offset' : ℕ) :
    (scan bs offset).Renames σ (scan (σ.text bs) offset') := by
  obtain ⟨-, hdrop⟩ := σ.span_text (fun b hb => (not_blank_of_letter hb).1) bs
  rw [scan, scan, hdrop]
  exact Scan.renames_ofVisible σ _ _ _

/-- The renamed text has the renamed tokens. -/
theorem tokensFrom_renames (bs : List UInt8) (offset offset' : ℕ) :
    List.Forall₂ (Token.Renames σ) (tokensFrom bs offset).list
      (tokensFrom (σ.text bs) offset').list := by
  induction bs, offset using tokensFrom.induct generalizing offset' with
  | case1 bs offset t rest hscan ih =>
    have h := scan_renames σ bs offset offset'
    rw [hscan] at h
    generalize hscan' : scan (σ.text bs) offset' = result at h
    cases h with
    | token ht =>
      rw [tokensFrom_token hscan, tokensFrom_token hscan']
      exact .cons ht (ih _)
  | case2 bs offset stop hscan =>
    have h := scan_renames σ bs offset offset'
    rw [hscan] at h
    generalize hscan' : scan (σ.text bs) offset' = result at h
    cases h with
    | finish =>
      rw [tokensFrom_finish hscan, tokensFrom_finish hscan']
      exact .cons ⟨rfl, rfl⟩ .nil
  | case3 bs offset char stop rest hscan =>
    have h := scan_renames σ bs offset offset'
    rw [hscan] at h
    generalize hscan' : scan (σ.text bs) offset' = result at h
    cases h with
    | reject =>
      rw [tokensFrom_reject hscan, tokensFrom_reject hscan']
      exact .nil

end Tokens

/-! ## The reader -/

namespace Parser

variable {α : Type} {f : String → String}

/-- The operand with its variables renamed. -/
def Waiting.rename (f : String → String) (w : Waiting α) : Waiting α := ⟨w.left.rename f, w.op⟩

/-- The operands of a level with their variables renamed. -/
def Level.rename (f : String → String) (l : Level α) : Level α :=
  ⟨l.sum.map (Waiting.rename f), l.product.map (Waiting.rename f)⟩

/-- What may come next, with the variables renamed that have been read. -/
def Expecting.rename (f : String → String) : Expecting α → Expecting α
  | .operand => .operand
  | .exponent base => .exponent (base.rename f)
  | .magnitude base negative => .magnitude (base.rename f) negative
  | .operator factor primary => .operator (factor.rename f) primary

/-- What has been read, with the variables renamed. -/
def State.rename (f : String → String) (s : State α) : State α :=
  ⟨s.level.rename f, s.outer.map (Level.rename f), s.expecting.rename f⟩

/-- What a token does to a renamed state. -/
def Move.rename (f : String → String) : Move α → Move α
  | .shift s => .shift (s.rename f)
  | .literal next => .literal fun v => (next v).rename f
  | .accept e => .accept (e.rename f)

theorem attach_rename (w : Option (Waiting α)) (e : Expr α) :
    attach (w.map (Waiting.rename f)) (e.rename f) = (attach w e).rename f := by
  cases w with
  | none => rfl
  | some w => rfl

theorem Level.term_rename (l : Level α) (e : Expr α) :
    (l.rename f).term (e.rename f) = (l.term e).rename f := attach_rename l.product e

theorem Level.expression_rename (l : Level α) (e : Expr α) :
    (l.rename f).expression (e.rename f) = (l.expression e).rename f := by
  rw [Level.expression, Level.term_rename]
  exact attach_rename l.sum (l.term e)

theorem State.withSum_rename (s : State α) (op : Operator) (e : Expr α) :
    (s.rename f).withSum op (e.rename f) = (s.withSum op e).rename f := by
  simp only [State.withSum, State.rename, Level.expression_rename]
  rfl

theorem State.withProduct_rename (s : State α) (op : Operator) (e : Expr α) :
    (s.rename f).withProduct op (e.rename f) = (s.withProduct op e).rename f := by
  simp only [State.withProduct, State.rename, Level.term_rename]
  rfl

variable [Scalar α] {σ : Renaming}

/-- One token leads from renamed states to renamed states. -/
theorem State.move?_rename (s : State α) {t t' : Token} (h : t.Renames σ t') :
    (s.rename σ.apply).move? t' = (s.move? t).map (Move.rename σ.apply) := by
  obtain ⟨level, outer, expecting⟩ := s
  obtain ⟨kind, literal, offset⟩ := t
  obtain ⟨kind', literal', offset'⟩ := t'
  obtain ⟨hkind, hliteral⟩ := h
  dsimp only at hkind hliteral
  subst hkind hliteral
  cases expecting with
  | operand => cases kind' <;> rfl
  | exponent base => cases kind' <;> rfl
  | magnitude base negative => cases kind' <;> rfl
  | operator factor primary =>
    have hsum (op : Operator) := congrArg (fun s => some (Move.shift s))
      (State.withSum_rename (f := σ.apply) ⟨level, outer, .operator factor primary⟩ op factor)
    have hproduct (op : Operator) := congrArg (fun s => some (Move.shift s))
      (State.withProduct_rename (f := σ.apply) ⟨level, outer, .operator factor primary⟩ op factor)
    have hexpression := level.expression_rename (f := σ.apply) factor
    cases kind' with
    | plus => cases primary <;> exact hsum .add
    | minus => cases primary <;> exact hsum .sub
    | star => cases primary <;> exact hproduct .mul
    | slash => cases primary <;> exact hproduct .div
    | caret => cases primary <;> rfl
    | closing =>
      cases outer with
      | nil => cases primary <;> rfl
      | cons l ls =>
        cases primary <;> exact congrArg (fun e => some (Move.shift ⟨l.rename σ.apply,
          ls.map (Level.rename σ.apply), .operator e true⟩)) hexpression
    | ending =>
      cases outer with
      | nil => cases primary <;> exact congrArg (fun e => some (Move.accept e)) hexpression
      | cons l ls => cases primary <;> rfl
    | _ => cases primary <;> rfl

/-- The reader does on renamed tokens what it does on the tokens. -/
theorem mirrors_run (failure failure' : ParseError) {ts ts' : List Token}
    (h : List.Forall₂ (Token.Renames σ) ts ts') (s : State α) :
    Mirrors (Expr.rename σ.apply) (run failure s ts) (run failure' (s.rename σ.apply) ts') := by
  induction h generalizing s with
  | nil => rfl
  | @cons t t' rest rest' ht hrest ih =>
    rw [run, run, s.move?_rename ht]
    cases hmove : s.move? t with
    | none => rfl
    | some m =>
      cases m with
      | accept e => rfl
      | shift s' => exact ih s'
      | literal next =>
        -- the only literals that are looked at are those of numbers, which no renaming changes
        have hkind : t.kind = .number := madeBy_of_move? hmove
        have hliteral : t'.literal = t.literal := ht.literal.trans (if_neg (by simp [hkind]))
        have hempty : rest'.isEmpty = rest.isEmpty := by cases hrest <;> rfl
        show Mirrors _ (if rest.isEmpty then _ else _) (if rest'.isEmpty then _ else _)
        rw [hempty, hliteral]
        split
        · rfl
        · cases Numeral.value? (α := α) t.literal with
          | none => rfl
          | some v => exact ih (next v)

end Parser

/-- Reading the renamed text gives the renamed tree. -/
theorem Expr.mirrors_parse {α : Type} [Scalar α] (σ : Renaming) (text : List UInt8) :
    Mirrors (Expr.rename σ.apply) (Expr.parse (α := α) text) (Expr.parse (σ.text text)) :=
  Parser.mirrors_run _ _ (tokensFrom_renames σ text 0 0) .start

end Fluxion
