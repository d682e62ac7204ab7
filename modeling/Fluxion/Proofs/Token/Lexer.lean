import Fluxion.Token.Lexer
import Fluxion.Proofs.Text.Ascii
import Mathlib.Data.List.TakeWhile

/-!
# Tokens

The tokens of a text, token by token: what `scan` reads off the front, `tokensFrom` puts in front of the
tokens of the rest. An identifier token is always a run of letters, and the end token is always the last
one. The other way round, a symbol, a run of letters and a plain numeral are read as one token each, the
last two where a symbol or nothing follows.
-/

namespace Fluxion

/-! ## One token after the other -/

theorem tokensFrom_token {bs rest : List UInt8} {offset : ℕ} {t : Token}
    (h : scan bs offset = .token t rest) :
    tokensFrom bs offset = (tokensFrom rest (t.offset + t.literal.utf8ByteSize)).cons t := by
  rw [tokensFrom]
  split <;> simp_all

theorem tokensFrom_finish {bs : List UInt8} {offset stop : ℕ} (h : scan bs offset = .finish stop) :
    tokensFrom bs offset = ⟨[⟨.ending, "", stop⟩], none⟩ := by
  rw [tokensFrom]
  split <;> simp_all

theorem tokensFrom_reject {bs rest : List UInt8} {offset stop : ℕ} {char : Char}
    (h : scan bs offset = .reject char stop rest) :
    tokensFrom bs offset = ⟨[], some (.unexpected char stop)⟩ := by
  rw [tokensFrom]
  split <;> simp_all

/-! ## Identifiers -/

theorem isLetter_lt {b : UInt8} (h : isLetter b = true) : b < 128 := by
  rw [isLetter] at h
  simp only [Bool.or_eq_true, Bool.and_eq_true, decide_eq_true_eq, UInt8.le_iff_toNat_le] at h
  rw [UInt8.lt_iff_toNat_lt]
  have hz : (0x7A : UInt8).toNat = 122 := rfl
  have hZ : (0x5A : UInt8).toNat = 90 := rfl
  have hlimit : (128 : UInt8).toNat = 128 := rfl
  omega

/-- A non-empty run of letters spells an identifier. -/
theorem isIdentifier_ofAscii {bs : List UInt8} (hne : bs ≠ []) (h : ∀ b ∈ bs, isLetter b = true) :
    isIdentifier (Utf8.ofAscii bs) = true := by
  have hempty : (Utf8.ofAscii bs).isEmpty = false := by
    rw [Bool.eq_false_iff]
    intro hemp
    rw [String.isEmpty_iff, Utf8.ofAscii] at hemp
    have := congrArg String.toList hemp
    simp [hne] at this
  rw [isIdentifier, hempty, Utf8.bytes_ofAscii fun b hb => isLetter_lt (h b hb)]
  simpa using h

/-- If the token is an identifier, it is a run of letters. -/
def Token.Spelled (t : Token) : Prop := t.kind = .identifier → isIdentifier t.literal = true

theorem TokenKind.ofByte?_ne_identifier (b : UInt8) : TokenKind.ofByte? b ≠ some .identifier := by
  intro h
  rw [TokenKind.ofByte?] at h
  split at h <;> cases h

theorem TokenKind.ofByte?_ne_number (b : UInt8) : TokenKind.ofByte? b ≠ some .number := by
  intro h
  rw [TokenKind.ofByte?] at h
  split at h <;> cases h

theorem Scan.kind_of_number {bs rest : List UInt8} {offset : ℕ} {t : Token}
    (h : Scan.number bs offset = .token t rest) : t.kind = .number := by
  rw [Scan.number] at h
  split at h
  · split at h
    · dsimp only at h
      split at h <;> cases h
      rfl
    · cases h
      rfl
  · cases h
    rfl

theorem scan_spelled {bs rest : List UInt8} {offset : ℕ} {t : Token}
    (h : scan bs offset = .token t rest) : t.Spelled := by
  intro hkind
  rw [scan] at h
  cases hbs : bs.dropWhile isBlank with
  | nil => rw [hbs, Scan.ofVisible] at h; cases h
  | cons b more =>
    rw [hbs, Scan.ofVisible] at h
    split at h
    · rw [Scan.kind_of_number h] at hkind
      cases hkind
    · split at h
      · rename_i hletter
        cases h
        refine isIdentifier_ofAscii ?_ fun a ha => List.mem_takeWhile_imp ha
        rw [List.takeWhile_cons_of_pos hletter]
        exact List.cons_ne_nil _ _
      · split at h
        · rename_i kind hof
          cases h
          exact absurd (hkind ▸ hof) (TokenKind.ofByte?_ne_identifier b)
        · cases h

theorem tokensFrom_spelled (bs : List UInt8) (offset : ℕ) :
    ∀ t ∈ (tokensFrom bs offset).list, t.Spelled := by
  induction bs, offset using tokensFrom.induct with
  | case1 bs offset t rest hscan ih =>
    rw [tokensFrom_token hscan]
    exact List.forall_mem_cons.mpr ⟨scan_spelled hscan, ih⟩
  | case2 bs offset stop hscan =>
    rw [tokensFrom_finish hscan]
    intro t ht hkind
    rw [List.mem_singleton.mp ht] at hkind
    cases hkind
  | case3 bs offset char stop rest hscan =>
    rw [tokensFrom_reject hscan]
    exact fun t ht => absurd ht List.not_mem_nil

/-! ## The end -/

theorem TokenKind.ofByte?_ne_ending (b : UInt8) : TokenKind.ofByte? b ≠ some .ending := by
  intro h
  rw [TokenKind.ofByte?] at h
  split at h <;> cases h

/-- What is scanned off the front is never the end. -/
theorem scan_kind_ne_ending {bs rest : List UInt8} {offset : ℕ} {t : Token}
    (h : scan bs offset = .token t rest) : t.kind ≠ .ending := by
  intro hkind
  rw [scan] at h
  cases hbs : bs.dropWhile isBlank with
  | nil => rw [hbs, Scan.ofVisible] at h; cases h
  | cons b more =>
    rw [hbs, Scan.ofVisible] at h
    split at h
    · rw [Scan.kind_of_number h] at hkind
      cases hkind
    · split at h
      · cases h
        cases hkind
      · split at h
        · rename_i kind hof
          cases h
          exact absurd (hkind ▸ hof) (TokenKind.ofByte?_ne_ending b)
        · cases h

/-- The end token is the last one, and the text is read to its end. -/
theorem tokensFrom_ending {bs : List UInt8} {offset : ℕ} {front rest : List Token} {t : Token}
    (h : (tokensFrom bs offset).list = front ++ t :: rest) (ht : t.kind = .ending) :
    rest = [] ∧ (tokensFrom bs offset).failure = none := by
  induction bs, offset using tokensFrom.induct generalizing front with
  | case1 bs offset t' bs' hscan ih =>
    rw [tokensFrom_token hscan] at h ⊢
    cases front with
    | nil =>
      cases h
      exact absurd ht (scan_kind_ne_ending hscan)
    | cons first front => exact ih (List.cons.inj h).2
  | case2 bs offset stop hscan =>
    rw [tokensFrom_finish hscan] at h ⊢
    cases front with
    | nil => exact ⟨(List.cons.inj h).2.symm, rfl⟩
    | cons first front => exact absurd (List.cons.inj h).2 (by simp)
  | case3 bs offset char stop bs' hscan =>
    rw [tokensFrom_reject hscan] at h
    exact absurd h (by simp)

/-- A text that is not read to its end has a character that no token contains; otherwise the last token is
the end. -/
theorem tokensFrom_stops (bs : List UInt8) (offset : ℕ) :
    (∃ front t, tokensFrom bs offset = ⟨front ++ [t], none⟩ ∧ t.kind = .ending) ∨
      ∃ list char stop, tokensFrom bs offset = ⟨list, some (.unexpected char stop)⟩ := by
  induction bs, offset using tokensFrom.induct with
  | case1 bs offset t bs' hscan ih =>
    rw [tokensFrom_token hscan]
    rcases ih with ⟨front, last, hrest, hlast⟩ | ⟨list, char, stop, hrest⟩
    · exact Or.inl ⟨t :: front, last, by rw [hrest]; rfl, hlast⟩
    · exact Or.inr ⟨t :: list, char, stop, by rw [hrest]; rfl⟩
  | case2 bs offset stop hscan => exact Or.inl ⟨[], _, tokensFrom_finish hscan, rfl⟩
  | case3 bs offset char stop bs' hscan => exact Or.inr ⟨[], char, stop, tokensFrom_reject hscan⟩

theorem tokenize_eq_ok {bs : List UInt8} {ts : List Token} :
    tokenize bs = .ok ts ↔ (tokens bs).failure = none ∧ (tokens bs).list = ts := by
  unfold tokenize
  cases (tokens bs).failure <;> simp

theorem tokenize_eq_error {bs : List UInt8} {e : LexError} :
    tokenize bs = .error e ↔ (tokens bs).failure = some e := by
  unfold tokenize
  cases (tokens bs).failure <;> simp

/-! ## Reading what was written -/

/-- The byte is a token by itself. -/
def IsSymbol (b : UInt8) : Prop := (TokenKind.ofByte? b).isSome = true

theorem IsSymbol.classes {b : UInt8} (h : IsSymbol b) :
    isBlank b = false ∧ isDigit b = false ∧ isLetter b = false ∧ b ≠ pointByte ∧ b < 128 := by
  have hall : ∀ i : Fin 256, (TokenKind.ofByte? (UInt8.ofFin i)).isSome = true →
      isBlank (UInt8.ofFin i) = false ∧ isDigit (UInt8.ofFin i) = false ∧
        isLetter (UInt8.ofFin i) = false ∧ UInt8.ofFin i ≠ pointByte ∧ UInt8.ofFin i < 128 := by
    decide +kernel
  have hb := hall b.toFin
  rw [UInt8.ofFin_toFin] at hb
  exact hb h

/-- Nothing that could prolong a name or a number: the end, or a symbol. -/
def Delimits (rest : List UInt8) : Prop := ∀ b ∈ rest.head?, IsSymbol b

theorem delimits_nil : Delimits [] := fun b hb => absurd hb (Option.not_mem_none b)

theorem delimits_cons {b : UInt8} {rest : List UInt8} (hb : IsSymbol b) : Delimits (b :: rest) := by
  intro c hc
  cases hc
  exact hb

/-- A run of bytes of one class ends where the rest starts with something else. -/
theorem span_append {p : UInt8 → Bool} {bs rest : List UInt8} (hbs : ∀ b ∈ bs, p b = true)
    (hrest : ∀ b ∈ rest.head?, p b = false) :
    (bs ++ rest).takeWhile p = bs ∧ (bs ++ rest).dropWhile p = rest := by
  rw [List.takeWhile_append_of_pos hbs, List.dropWhile_append_of_pos hbs]
  cases rest with
  | nil => simp
  | cons b rest =>
    have hb : ¬p b = true := by rw [hrest b rfl]; exact Bool.false_ne_true
    rw [List.takeWhile_cons_of_neg hb, List.dropWhile_cons_of_neg hb, List.append_nil]
    exact ⟨rfl, rfl⟩

theorem scan_of_not_blank {b : UInt8} {rest : List UInt8} (hb : isBlank b = false) (offset : ℕ) :
    scan (b :: rest) offset = Scan.ofVisible (b :: rest) offset := by
  have hb : ¬isBlank b = true := by rw [hb]; exact Bool.false_ne_true
  unfold scan
  rw [List.dropWhile_cons_of_neg hb, List.takeWhile_cons_of_neg hb]
  rfl

theorem scan_symbol {b : UInt8} {kind : TokenKind} (h : TokenKind.ofByte? b = some kind)
    (rest : List UInt8) (offset : ℕ) :
    scan (b :: rest) offset = .token ⟨kind, Utf8.ofAscii [b], offset⟩ rest := by
  have hsym : IsSymbol b := by unfold IsSymbol; rw [h]; rfl
  obtain ⟨hblank, hdigit, hletter, -, -⟩ := hsym.classes
  rw [scan_of_not_blank hblank, Scan.ofVisible, hdigit, hletter]
  simp [h]

theorem not_blank_of_letter {b : UInt8} (h : isLetter b = true) :
    isBlank b = false ∧ isDigit b = false := by
  have hall : ∀ i : Fin 256, isLetter (UInt8.ofFin i) = true →
      isBlank (UInt8.ofFin i) = false ∧ isDigit (UInt8.ofFin i) = false := by decide +kernel
  have hb := hall b.toFin
  rw [UInt8.ofFin_toFin] at hb
  exact hb h

theorem not_blank_of_digit {b : UInt8} (h : isDigit b = true) :
    isBlank b = false ∧ b ≠ pointByte ∧ b < 128 := by
  have hall : ∀ i : Fin 256, isDigit (UInt8.ofFin i) = true →
      isBlank (UInt8.ofFin i) = false ∧ UInt8.ofFin i ≠ pointByte ∧ UInt8.ofFin i < 128 := by
    decide +kernel
  have hb := hall b.toFin
  rw [UInt8.ofFin_toFin] at hb
  exact hb h

/-- An identifier is read as one token, unless a letter prolongs it. -/
theorem scan_identifier {x : String} (hx : isIdentifier x = true) {rest : List UInt8}
    (hrest : ∀ b ∈ rest.head?, isLetter b = false) (offset : ℕ) :
    scan (Utf8.bytes x ++ rest) offset = .token ⟨.identifier, x, offset⟩ rest := by
  unfold isIdentifier at hx
  rw [Bool.and_eq_true, Bool.not_eq_true', List.all_eq_true] at hx
  obtain ⟨hne, hletters⟩ := hx
  have hascii : Utf8.ofAscii (Utf8.bytes x) = x :=
    Utf8.ofAscii_bytes fun b hb => isLetter_lt (hletters b hb)
  obtain ⟨htake, hdrop⟩ := span_append hletters hrest
  cases hbs : Utf8.bytes x with
  | nil =>
    rw [hbs] at hascii
    rw [← hascii] at hne
    cases hne
  | cons b bs =>
    have hletter := hletters b (by rw [hbs]; exact List.mem_cons_self ..)
    obtain ⟨hblank, hdigit⟩ := not_blank_of_letter hletter
    rw [hbs] at htake hdrop
    rw [List.cons_append] at htake hdrop ⊢
    rw [scan_of_not_blank hblank, Scan.ofVisible, hdigit, hletter]
    simp only [Bool.false_eq_true, if_false, if_true]
    rw [Scan.identifier, htake, hdrop, ← hbs, hascii]

/-- Digits, perhaps with a point and more digits. -/
def Numeral.IsPlain (s : String) : Prop :=
  ∃ whole fraction : List UInt8, whole ≠ [] ∧ (∀ b ∈ whole, isDigit b = true) ∧
    (∀ b ∈ fraction, isDigit b = true) ∧
    (Utf8.bytes s = whole ∨ Utf8.bytes s = whole ++ pointByte :: fraction)

theorem Numeral.IsPlain.ascii {s : String} (hs : Numeral.IsPlain s) :
    Utf8.ofAscii (Utf8.bytes s) = s := by
  obtain ⟨whole, fraction, -, hwhole, hfraction, hbytes⟩ := hs
  have hdigits : ∀ b ∈ whole ++ pointByte :: fraction, b < 128 := by
    intro b hb
    rcases List.mem_append.mp hb with hb | hb
    · exact (not_blank_of_digit (hwhole b hb)).2.2
    · rcases List.mem_cons.mp hb with rfl | hb
      · decide
      · exact (not_blank_of_digit (hfraction b hb)).2.2
  refine Utf8.ofAscii_bytes fun b hb => ?_
  rcases hbytes with hbytes | hbytes
  · exact hdigits b (List.mem_append_left _ (hbytes ▸ hb))
  · exact hdigits b (hbytes ▸ hb)

/-- Whatever follows the first digit, a number is scanned. -/
theorem scan_digits {whole : List UInt8} (hne : whole ≠ []) (hwhole : ∀ b ∈ whole, isDigit b = true)
    (rest : List UInt8) (offset : ℕ) :
    scan (whole ++ rest) offset = Scan.number (whole ++ rest) offset := by
  cases whole with
  | nil => exact absurd rfl hne
  | cons b more =>
    have hdigit := hwhole b (List.mem_cons_self ..)
    rw [List.cons_append, scan_of_not_blank (not_blank_of_digit hdigit).1, Scan.ofVisible, hdigit]
    rfl

/-- Digits without a point behind them are a number. -/
theorem Scan.number_whole {whole rest : List UInt8} (hwhole : ∀ b ∈ whole, isDigit b = true)
    (hrest : ∀ b ∈ rest.head?, isDigit b = false ∧ b ≠ pointByte) (offset : ℕ) :
    Scan.number (whole ++ rest) offset = .token ⟨.number, Utf8.ofAscii whole, offset⟩ rest := by
  obtain ⟨htake, hdrop⟩ := span_append hwhole fun b hb => (hrest b hb).1
  rw [Scan.number, htake, hdrop]
  cases rest with
  | nil => rfl
  | cons b more =>
    have hb : (b == pointByte) = false := beq_eq_false_iff_ne.mpr (hrest b rfl).2
    dsimp only
    rw [hb]
    rfl

/-- Digits, a point and more digits are a number, unless a second point follows. -/
theorem Scan.number_point {whole fraction rest : List UInt8}
    (hwhole : ∀ b ∈ whole, isDigit b = true) (hfraction : ∀ b ∈ fraction, isDigit b = true)
    (hrest : ∀ b ∈ rest.head?, isDigit b = false) (offset : ℕ) :
    Scan.number (whole ++ pointByte :: (fraction ++ rest)) offset =
      if rest.head? == some pointByte then
        .reject '.' (offset + (whole ++ pointByte :: fraction).length) rest
      else .token ⟨.number, Utf8.ofAscii (whole ++ pointByte :: fraction), offset⟩ rest := by
  have hpoint : ∀ b ∈ (pointByte :: (fraction ++ rest)).head?, isDigit b = false := by
    intro b hb
    cases hb
    decide
  obtain ⟨htake, hdrop⟩ := span_append hwhole hpoint
  obtain ⟨htake', hdrop'⟩ := span_append hfraction hrest
  rw [Scan.number, htake, hdrop]
  dsimp only
  rw [htake', hdrop']
  rfl

/-- A plain numeral is read as one token, unless a digit or a point prolongs it. -/
theorem scan_numeral {s : String} (hs : Numeral.IsPlain s) {rest : List UInt8}
    (hrest : ∀ b ∈ rest.head?, isDigit b = false ∧ b ≠ pointByte) (offset : ℕ) :
    scan (Utf8.bytes s ++ rest) offset = .token ⟨.number, s, offset⟩ rest := by
  have hascii := hs.ascii
  obtain ⟨whole, fraction, hne, hwhole, hfraction, hbytes⟩ := hs
  rcases hbytes with hbytes | hbytes
  · rw [hbytes, scan_digits hne hwhole, Scan.number_whole hwhole hrest, ← hbytes, hascii]
  · have hpoint : (rest.head? == some pointByte) = false := by
      rw [beq_eq_false_iff_ne]
      intro hhead
      exact (hrest pointByte hhead).2 rfl
    rw [hbytes, List.append_assoc, List.cons_append, scan_digits hne hwhole,
      Scan.number_point hwhole hfraction fun b hb => (hrest b hb).1, hpoint, ← hbytes, hascii]
    rfl

/-- What delimits is no letter. -/
theorem Delimits.not_letter {rest : List UInt8} (h : Delimits rest) :
    ∀ b ∈ rest.head?, isLetter b = false := fun b hb => (h b hb).classes.2.2.1

/-- What delimits is neither a digit nor a point. -/
theorem Delimits.not_numeral {rest : List UInt8} (h : Delimits rest) :
    ∀ b ∈ rest.head?, isDigit b = false ∧ b ≠ pointByte := fun b hb =>
  ⟨(h b hb).classes.2.1, (h b hb).classes.2.2.2.1⟩

/-- Where nothing prolongs it, a text still has a token: a symbol, or the end. -/
theorem Delimits.tokensFrom_ne_nil {rest : List UInt8} (h : Delimits rest) (offset : ℕ) :
    (tokensFrom rest offset).list ≠ [] := by
  cases rest with
  | nil =>
    have hscan : scan [] offset = .finish offset := rfl
    rw [tokensFrom_finish hscan]
    exact List.cons_ne_nil _ _
  | cons b rest =>
    obtain ⟨kind, hkind⟩ := Option.isSome_iff_exists.mp (h b rfl)
    rw [tokensFrom_token (scan_symbol hkind rest offset)]
    exact List.cons_ne_nil _ _

end Fluxion
