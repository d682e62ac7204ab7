import Fluxion.Proofs.Token.Lexer

/-!
# Tokens divide a text

A token is a lexeme where it stands: it is spelled as its class asks for, and what follows does not
prolong it. `Divides` says that a text consists of blanks and lexemes in the order of the tokens, and that
is what tokenizing finds; it never has a choice. A text that cannot be divided has a first byte that no
token can take in. Whatever stands behind this byte, tokenizing stops in front of it, and the text before
it can be divided.
-/

namespace Fluxion

/-! ## Lexemes -/

/-- A run of bytes of one class in front, and what follows it. -/
theorem exists_span (p : UInt8 → Bool) (bs : List UInt8) :
    ∃ run rest, bs = run ++ rest ∧ (∀ b ∈ run, p b = true) ∧ ∀ b ∈ rest.head?, p b = false := by
  refine ⟨bs.takeWhile p, bs.dropWhile p, List.takeWhile_append_dropWhile.symm,
    fun b hb => List.mem_takeWhile_imp hb, fun b hb => ?_⟩
  have hnot := List.head?_dropWhile_not p bs
  rw [hb] at hnot
  exact hnot

/-- The token is spelled as its class asks for, and what follows it does not prolong it. Only the end has
nothing behind it for certain. -/
def Token.IsLexeme (t : Token) (rest : List UInt8) : Prop :=
  match t.kind with
  | .ending => Utf8.bytes t.literal = [] ∧ rest = []
  | .identifier => isIdentifier t.literal = true ∧ ∀ b ∈ rest.head?, isLetter b = false
  | .number => Numeral.IsPlain t.literal ∧ ∀ b ∈ rest.head?, isDigit b = false ∧ b ≠ pointByte
  | kind => ∃ b, Utf8.bytes t.literal = [b] ∧ TokenKind.ofByte? b = some kind

/-- Whether a token is a lexeme depends on the byte behind it only. -/
theorem Token.IsLexeme.congr {t : Token} {rest rest' : List UInt8} (h : t.IsLexeme rest)
    (hend : t.kind ≠ .ending) (hhead : ∀ b ∈ rest'.head?, b ∈ rest.head?) : t.IsLexeme rest' := by
  unfold IsLexeme at h ⊢
  split at h
  · exact absurd ‹_› hend
  · exact ⟨h.1, fun b hb => h.2 b (hhead b hb)⟩
  · exact ⟨h.1, fun b hb => h.2 b (hhead b hb)⟩
  · exact h

/-- A plain numeral from its digits. -/
theorem Numeral.isPlain_ofAscii {whole fraction bs : List UInt8} (hne : whole ≠ [])
    (hwhole : ∀ b ∈ whole, isDigit b = true) (hfraction : ∀ b ∈ fraction, isDigit b = true)
    (hbs : bs = whole ∨ bs = whole ++ pointByte :: fraction) :
    Numeral.IsPlain (Utf8.ofAscii bs) ∧ Utf8.bytes (Utf8.ofAscii bs) = bs := by
  have hascii : Utf8.bytes (Utf8.ofAscii bs) = bs := by
    refine Utf8.bytes_ofAscii fun b hb => ?_
    have hmem : b ∈ whole ++ pointByte :: fraction := by
      rcases hbs with rfl | rfl
      · exact List.mem_append_left _ hb
      · exact hb
    rcases List.mem_append.mp hmem with hb | hb
    · exact (not_blank_of_digit (hwhole b hb)).2.2
    · rcases List.mem_cons.mp hb with rfl | hb
      · decide
      · exact (not_blank_of_digit (hfraction b hb)).2.2
  exact ⟨⟨whole, fraction, hne, hwhole, hfraction, hascii.symm ▸ hbs⟩, hascii⟩

/-- Bytes that start with a digit start with a numeral; it is prolonged by a second point or by nothing. -/
theorem exists_numeral {c : UInt8} (hc : isDigit c = true) (more : List UInt8) :
    (∃ s rest, c :: more = Utf8.bytes s ++ rest ∧ Numeral.IsPlain s ∧
      ∀ b ∈ rest.head?, isDigit b = false ∧ b ≠ pointByte) ∨
    ∃ whole fraction rest, c :: more = whole ++ pointByte :: (fraction ++ pointByte :: rest) ∧
      whole ≠ [] ∧ (∀ b ∈ whole, isDigit b = true) ∧ ∀ b ∈ fraction, isDigit b = true := by
  obtain ⟨whole, after, hsplit, hwhole, hafter⟩ := exists_span isDigit (c :: more)
  have hne : whole ≠ [] := by
    rintro rfl
    have hnot := hafter c (by rw [← List.nil_append after, ← hsplit]; rfl)
    rw [hc] at hnot
    cases hnot
  by_cases hpoint : after.head? = some pointByte
  · obtain ⟨after, rfl⟩ := List.head?_eq_some_iff.mp hpoint
    obtain ⟨fraction, rest, rfl, hfraction, hrest⟩ := exists_span isDigit after
    by_cases hsecond : rest.head? = some pointByte
    · obtain ⟨rest, rfl⟩ := List.head?_eq_some_iff.mp hsecond
      exact Or.inr ⟨whole, fraction, rest, hsplit, hne, hwhole, hfraction⟩
    · obtain ⟨hplain, hbytes⟩ := Numeral.isPlain_ofAscii hne hwhole hfraction (Or.inr rfl)
      refine Or.inl ⟨_, rest, ?_, hplain, fun b hb => ⟨hrest b hb, ?_⟩⟩
      · rw [hbytes, hsplit, List.append_assoc, List.cons_append]
      · rintro rfl
        exact hsecond hb
  · have hnone : ∀ b ∈ ([] : List UInt8), isDigit b = true := fun b hb => absurd hb List.not_mem_nil
    obtain ⟨hplain, hbytes⟩ := Numeral.isPlain_ofAscii hne hwhole hnone (Or.inl rfl)
    refine Or.inl ⟨_, after, by rw [hbytes, hsplit], hplain, fun b hb => ⟨hafter b hb, ?_⟩⟩
    rintro rfl
    exact hpoint hb

/-! ## Reading a lexeme -/

theorem scan_blanks {blanks : List UInt8} (h : ∀ b ∈ blanks, isBlank b = true) (bs : List UInt8)
    (offset : ℕ) : scan (blanks ++ bs) offset = scan bs (offset + blanks.length) := by
  unfold scan
  rw [List.dropWhile_append_of_pos h, List.takeWhile_append_of_pos h, List.length_append,
    Nat.add_assoc]

/-- A lexeme behind blanks is scanned as its token. -/
theorem Token.IsLexeme.scan {t : Token} {rest : List UInt8} (h : t.IsLexeme rest)
    (hend : t.kind ≠ .ending) {blanks : List UInt8} (hblanks : ∀ b ∈ blanks, isBlank b = true)
    {offset : ℕ} (hoffset : t.offset = offset + blanks.length) :
    scan (blanks ++ (Utf8.bytes t.literal ++ rest)) offset = .token t rest := by
  obtain ⟨kind, literal, at'⟩ := t
  obtain rfl : at' = offset + blanks.length := hoffset
  rw [scan_blanks hblanks]
  have hsymbol : (∃ b, Utf8.bytes literal = [b] ∧ TokenKind.ofByte? b = some kind) →
      Fluxion.scan (Utf8.bytes literal ++ rest) (offset + blanks.length) =
        .token ⟨kind, literal, offset + blanks.length⟩ rest := by
    rintro ⟨b, hb, hkind⟩
    have hascii : Utf8.ofAscii [b] = literal := by
      have hsym : IsSymbol b := by unfold IsSymbol; rw [hkind]; rfl
      rw [← hb]
      refine Utf8.ofAscii_bytes fun c hc => ?_
      rw [hb, List.mem_singleton] at hc
      exact hc ▸ hsym.classes.2.2.2.2
    rw [hb, List.singleton_append, scan_symbol hkind, hascii]
  cases kind with
  | ending => exact absurd rfl hend
  | identifier => exact scan_identifier h.1 h.2 _
  | number => exact scan_numeral h.1 h.2 _
  | _ => exact hsymbol h

/-- A token that is scanned takes at least one byte. -/
theorem Token.IsLexeme.literal_ne_nil {t : Token} {rest : List UInt8} (h : t.IsLexeme rest)
    (hend : t.kind ≠ .ending) : Utf8.bytes t.literal ≠ [] := by
  intro hnil
  have hscan : Fluxion.scan ([] ++ (Utf8.bytes t.literal ++ rest)) t.offset = .token t rest :=
    h.scan hend (by simp) rfl
  have hshorter := scan_shrinks hscan
  rw [hnil] at hshorter
  exact absurd hshorter (lt_irrefl _)

/-! ## Divisions -/

/-- The bytes, which start at `offset`, consist of blanks and of the lexemes of the tokens in their order,
the end last. -/
inductive Divides : (offset : ℕ) → List UInt8 → List Token → Prop where
  | ending {offset : ℕ} {blanks : List UInt8} (hblanks : ∀ b ∈ blanks, isBlank b = true) :
    Divides offset blanks [⟨.ending, "", offset + blanks.length⟩]
  | token {offset : ℕ} {blanks rest : List UInt8} {t : Token} {ts : List Token}
    (hblanks : ∀ b ∈ blanks, isBlank b = true) (hoffset : t.offset = offset + blanks.length)
    (hend : t.kind ≠ .ending) (hlexeme : t.IsLexeme rest)
    (hrest : Divides (t.offset + t.literal.utf8ByteSize) rest ts) :
    Divides offset (blanks ++ (Utf8.bytes t.literal ++ rest)) (t :: ts)

/-- Tokens that divide a text are found. -/
theorem Divides.tokensFrom_eq {offset : ℕ} {bs : List UInt8} {ts : List Token}
    (h : Divides offset bs ts) : tokensFrom bs offset = ⟨ts, none⟩ := by
  induction h with
  | @ending offset blanks hblanks =>
    have hscan : scan blanks offset = .finish (offset + blanks.length) := by
      rw [← List.append_nil blanks, scan_blanks hblanks, List.append_nil]
      rfl
    exact tokensFrom_finish hscan
  | token hblanks hoffset hend hlexeme hrest ih =>
    rw [tokensFrom_token (hlexeme.scan hend hblanks hoffset), ih]
    rfl

/-! ## The byte that stops it -/

/-- What is read before the byte `b` is divided, and tokenizing stops at `b` whatever follows. -/
structure Blocks (offset : ℕ) (read : List UInt8) (b : UInt8) : Prop where
  divides : ∃ ts, Divides offset read ts
  failure (rest : List UInt8) : (tokensFrom (read ++ b :: rest) offset).failure =
    some (.unexpected (Utf8.firstChar (b :: rest)) (offset + read.length))

theorem utf8ByteSize_eq (s : String) : s.utf8ByteSize = (Utf8.bytes s).length := by
  rw [Utf8.bytes_eq_data, Array.length_toList]
  rfl

/-- A lexeme in front does not change where tokenizing stops. -/
theorem Blocks.token {offset : ℕ} {blanks read rest : List UInt8} {b : UInt8} {t : Token}
    (hblanks : ∀ b ∈ blanks, isBlank b = true) (hoffset : t.offset = offset + blanks.length)
    (hend : t.kind ≠ .ending) (hlexeme : t.IsLexeme (read ++ b :: rest))
    (h : Blocks (t.offset + t.literal.utf8ByteSize) read b) :
    Blocks offset (blanks ++ (Utf8.bytes t.literal ++ read)) b := by
  obtain ⟨⟨ts, hts⟩, hfailure⟩ := h
  refine ⟨⟨t :: ts, .token hblanks hoffset hend (hlexeme.congr hend fun c hc => ?_) hts⟩,
    fun rest' => ?_⟩
  · cases read with
    | nil => cases hc
    | cons d read => exact hc
  · have hlexeme' : t.IsLexeme (read ++ b :: rest') := by
      refine hlexeme.congr hend fun c hc => ?_
      cases read with
      | nil => exact hc
      | cons d read => exact hc
    have hlength : offset + (blanks ++ (Utf8.bytes t.literal ++ read)).length =
        t.offset + t.literal.utf8ByteSize + read.length := by
      rw [List.length_append, List.length_append, utf8ByteSize_eq, hoffset]
      omega
    rw [List.append_assoc, List.append_assoc, tokensFrom_token (hlexeme'.scan hend hblanks hoffset),
      hlength]
    exact hfailure rest'

/-- A second point stops a number. -/
theorem blocks_point {blanks whole fraction : List UInt8} (hblanks : ∀ b ∈ blanks, isBlank b = true)
    (hne : whole ≠ []) (hwhole : ∀ b ∈ whole, isDigit b = true)
    (hfraction : ∀ b ∈ fraction, isDigit b = true) (offset : ℕ) :
    Blocks offset (blanks ++ (whole ++ pointByte :: fraction)) pointByte := by
  obtain ⟨hplain, hbytes⟩ := Numeral.isPlain_ofAscii hne hwhole hfraction (Or.inr rfl)
  constructor
  · have hlexeme : Token.IsLexeme ⟨.number, Utf8.ofAscii (whole ++ pointByte :: fraction),
        offset + blanks.length⟩ [] := ⟨hplain, fun b hb => absurd hb (Option.not_mem_none b)⟩
    have hdivides := Divides.token hblanks rfl (by simp) hlexeme (.ending (by simp))
    rw [List.append_nil, hbytes] at hdivides
    exact ⟨_, hdivides⟩
  · intro rest
    have hdigit : ∀ b ∈ (pointByte :: rest).head?, isDigit b = false := by
      intro b hb
      cases hb
      decide
    have hscan : scan (blanks ++ (whole ++ pointByte :: fraction) ++ pointByte :: rest) offset =
        .reject '.' (offset + blanks.length + (whole ++ pointByte :: fraction).length)
          (pointByte :: rest) := by
      rw [List.append_assoc, scan_blanks hblanks, List.append_assoc, List.cons_append,
        scan_digits hne hwhole, Scan.number_point hwhole hfraction hdigit]
      rfl
    have hlength : offset + (blanks ++ (whole ++ pointByte :: fraction)).length =
        offset + blanks.length + (whole ++ pointByte :: fraction).length := by
      rw [List.length_append, Nat.add_assoc]
    rw [tokensFrom_reject hscan, hlength]
    rfl

/-- A byte that starts no token stops it at once. -/
theorem blocks_of_foreign {blanks : List UInt8} (hblanks : ∀ b ∈ blanks, isBlank b = true) {b : UInt8}
    (hblank : isBlank b = false) (hdigit : isDigit b = false) (hletter : isLetter b = false)
    (hsymbol : TokenKind.ofByte? b = none) (offset : ℕ) : Blocks offset blanks b := by
  refine ⟨⟨_, .ending hblanks⟩, fun rest => ?_⟩
  have hscan : scan (blanks ++ b :: rest) offset =
      .reject (Utf8.firstChar (b :: rest)) (offset + blanks.length) (b :: rest) := by
    rw [scan_blanks hblanks, scan_of_not_blank hblank, Scan.ofVisible, hdigit, hletter, hsymbol]
    simp
  rw [tokensFrom_reject hscan]

/-- What stands in front of bytes that are not blank: a token, or a byte that stops it. -/
theorem exists_lexeme_or_blocks {blanks : List UInt8} (hblanks : ∀ b ∈ blanks, isBlank b = true)
    {c : UInt8} (hc : isBlank c = false) (more : List UInt8) (offset : ℕ) :
    (∃ (t : Token) (rest : List UInt8), c :: more = Utf8.bytes t.literal ++ rest ∧
      t.offset = offset + blanks.length ∧ t.kind ≠ .ending ∧ t.IsLexeme rest) ∨
    ∃ read b rest, c :: more = read ++ b :: rest ∧ Blocks offset (blanks ++ read) b := by
  cases hdigit : isDigit c with
  | true =>
    rcases exists_numeral hdigit more with ⟨s, rest, hsplit, hplain, hrest⟩ |
      ⟨whole, fraction, rest, hsplit, hne, hwhole, hfraction⟩
    · exact Or.inl ⟨⟨.number, s, offset + blanks.length⟩, rest, hsplit, rfl, by simp, hplain, hrest⟩
    · refine Or.inr ⟨whole ++ pointByte :: fraction, pointByte, rest, ?_,
        blocks_point hblanks hne hwhole hfraction offset⟩
      rw [hsplit, List.append_assoc, List.cons_append]
  | false =>
    cases hletter : isLetter c with
    | true =>
      obtain ⟨run, rest, hsplit, hrun, hrest⟩ := exists_span isLetter (c :: more)
      have hne : run ≠ [] := by
        rintro rfl
        have hnot := hrest c (by rw [← List.nil_append rest, ← hsplit]; rfl)
        rw [hletter] at hnot
        cases hnot
      refine Or.inl ⟨⟨.identifier, Utf8.ofAscii run, offset + blanks.length⟩, rest, ?_, rfl, by simp,
        isIdentifier_ofAscii hne hrun, hrest⟩
      rw [hsplit, Utf8.bytes_ofAscii fun b hb => isLetter_lt (hrun b hb)]
    | false =>
      cases hsymbol : TokenKind.ofByte? c with
      | none =>
        refine Or.inr ⟨[], c, more, rfl, ?_⟩
        rw [List.append_nil]
        exact blocks_of_foreign hblanks hc hdigit hletter hsymbol offset
      | some kind =>
        have hsym : IsSymbol c := by unfold IsSymbol; rw [hsymbol]; rfl
        have hbytes : Utf8.bytes (Utf8.ofAscii [c]) = [c] :=
          Utf8.bytes_ofAscii fun b hb => (List.mem_singleton.mp hb).symm ▸ hsym.classes.2.2.2.2
        have hlexeme : ∃ b, Utf8.bytes (Utf8.ofAscii [c]) = [b] ∧ TokenKind.ofByte? b = some kind :=
          ⟨c, hbytes, hsymbol⟩
        refine Or.inl ⟨⟨kind, Utf8.ofAscii [c], offset + blanks.length⟩, more, ?_, rfl, ?_, ?_⟩
        · rw [hbytes, List.singleton_append]
        · rintro rfl
          exact TokenKind.ofByte?_ne_ending c hsymbol
        · -- no symbol is an identifier, a number or the end
          cases kind with
          | ending => exact absurd hsymbol (TokenKind.ofByte?_ne_ending c)
          | identifier => exact absurd hsymbol (TokenKind.ofByte?_ne_identifier c)
          | number => exact absurd hsymbol (TokenKind.ofByte?_ne_number c)
          | _ => exact hlexeme

/-- A text is divided into tokens, or it has a byte that stops it. -/
theorem divides_or_blocks (bs : List UInt8) (offset : ℕ) :
    (∃ ts, Divides offset bs ts) ∨ ∃ read b rest, bs = read ++ b :: rest ∧ Blocks offset read b := by
  -- what is behind a lexeme is shorter, but it is no tail that a structural induction would reach
  induction hn : bs.length using Nat.strong_induction_on generalizing bs offset with
  | _ n ih =>
    subst hn
    obtain ⟨blanks, visible, rfl, hblanks, hvisible⟩ := exists_span isBlank bs
    cases visible with
    | nil =>
      rw [List.append_nil]
      exact Or.inl ⟨_, .ending hblanks⟩
    | cons c more =>
      rcases exists_lexeme_or_blocks hblanks (hvisible c rfl) more offset with
        ⟨t, rest, hsplit, hoffset, hend, hlexeme⟩ | ⟨read, b, rest, hsplit, hblocks⟩
      · have hshorter : rest.length < (blanks ++ c :: more).length := by
          have hpos := List.length_pos_of_ne_nil (hlexeme.literal_ne_nil hend)
          rw [hsplit, List.length_append, List.length_append]
          omega
        rw [hsplit]
        rcases ih _ hshorter rest (t.offset + t.literal.utf8ByteSize) rfl with
          ⟨ts, hts⟩ | ⟨read, b, rest', rfl, hblocks⟩
        · exact Or.inl ⟨_, .token hblanks hoffset hend hlexeme hts⟩
        · refine Or.inr ⟨_, b, rest', ?_, hblocks.token hblanks hoffset hend hlexeme⟩
          rw [List.append_assoc, List.append_assoc]
      · refine Or.inr ⟨_, b, rest, ?_, hblocks⟩
        rw [hsplit, List.append_assoc]

/-- Tokenizing succeeds exactly with the tokens that divide the text. -/
theorem tokenize_eq_ok_iff_divides {s : List UInt8} {ts : List Token} :
    tokenize s = .ok ts ↔ Divides 0 s ts := by
  rw [tokenize_eq_ok]
  constructor
  · rintro ⟨hfailure, hlist⟩
    rcases divides_or_blocks s 0 with ⟨us, hus⟩ | ⟨read, b, rest, rfl, hblocks⟩
    · have heq : tokens s = ⟨us, none⟩ := hus.tokensFrom_eq
      rw [heq] at hlist
      exact hlist ▸ hus
    · have hstop := hblocks.failure rest
      change (tokens (read ++ b :: rest)).failure = _ at hstop
      rw [hfailure] at hstop
      cases hstop
  · intro h
    have heq : tokens s = ⟨ts, none⟩ := h.tokensFrom_eq
    rw [heq]
    exact ⟨rfl, rfl⟩

/-! ## Where the tokens stand -/

/-- The offset behind the token. -/
def Token.stop (t : Token) : ℕ := t.offset + t.literal.utf8ByteSize

namespace Divides

variable {offset : ℕ} {bs : List UInt8} {ts : List Token}

theorem exists_split (h : Divides offset bs ts) : ∀ t ∈ ts, ∃ read rest,
    bs = read ++ (Utf8.bytes t.literal ++ rest) ∧ t.offset = offset + read.length ∧
      t.IsLexeme rest := by
  induction h with
  | @ending offset blanks hblanks =>
    intro t ht
    have hempty : Utf8.bytes "" = [] := by decide +kernel
    rw [List.mem_singleton.mp ht]
    exact ⟨blanks, [], by rw [hempty, List.nil_append, List.append_nil], rfl, hempty, rfl⟩
  | @token offset blanks rest t ts hblanks hoffset hend hlexeme hrest ih =>
    refine List.forall_mem_cons.mpr ⟨⟨blanks, rest, rfl, hoffset, hlexeme⟩, fun u hu => ?_⟩
    obtain ⟨read, rest', hsplit, hstart, hlexeme'⟩ := ih u hu
    refine ⟨blanks ++ (Utf8.bytes t.literal ++ read), rest', ?_, ?_, hlexeme'⟩
    · rw [hsplit, List.append_assoc, List.append_assoc]
    · rw [hstart, hoffset, utf8ByteSize_eq, List.length_append, List.length_append]
      omega

theorem exists_front (h : Divides offset bs ts) : ∃ front,
    ts = front ++ [⟨.ending, "", offset + bs.length⟩] ∧ ∀ t ∈ front, t.kind ≠ .ending := by
  induction h with
  | ending hblanks => exact ⟨[], rfl, fun t ht => absurd ht List.not_mem_nil⟩
  | @token offset blanks rest t ts hblanks hoffset hend hlexeme hrest ih =>
    obtain ⟨front, hfront, hkinds⟩ := ih
    have hlength : t.offset + t.literal.utf8ByteSize + rest.length =
        offset + (blanks ++ (Utf8.bytes t.literal ++ rest)).length := by
      rw [hoffset, utf8ByteSize_eq, List.length_append, List.length_append]
      omega
    refine ⟨t :: front, ?_, List.forall_mem_cons.mpr ⟨hend, hkinds⟩⟩
    rw [hfront, hlength]
    rfl

theorem pairwise (h : Divides offset bs ts) :
    ts.Pairwise fun t u => t.offset < u.offset ∧ t.stop ≤ u.offset := by
  induction h with
  | ending hblanks => exact List.pairwise_singleton _ _
  | @token offset blanks rest t ts hblanks hoffset hend hlexeme hrest ih =>
    refine List.pairwise_cons.mpr ⟨fun u hu => ?_, ih⟩
    obtain ⟨read, rest', -, hstart, -⟩ := hrest.exists_split u hu
    have hpos := List.length_pos_of_ne_nil (hlexeme.literal_ne_nil hend)
    rw [← utf8ByteSize_eq] at hpos
    unfold Token.stop
    omega

theorem isBlank_of_outside (h : Divides offset bs ts) {i : ℕ} {b : UInt8} (hb : bs[i]? = some b)
    (hout : ∀ t ∈ ts, offset + i < t.offset ∨ t.stop ≤ offset + i) : isBlank b = true := by
  induction h generalizing i with
  | ending hblanks => exact hblanks b (List.mem_of_getElem? hb)
  | @token offset blanks rest t ts hblanks hoffset hend hlexeme hrest ih =>
    obtain ⟨hhead, htail⟩ := List.forall_mem_cons.mp hout
    rcases hhead with hbefore | hbehind
    · rw [List.getElem?_append_left (by omega)] at hb
      exact hblanks b (List.mem_of_getElem? hb)
    · have hlength := utf8ByteSize_eq t.literal
      unfold Token.stop at hbehind
      rw [List.getElem?_append_right (by omega), List.getElem?_append_right (by omega)] at hb
      refine ih hb fun u hu => ?_
      have hindex : t.offset + t.literal.utf8ByteSize +
          (i - blanks.length - (Utf8.bytes t.literal).length) = offset + i := by omega
      rw [hindex]
      exact htail u hu

end Divides

/-- How tokens divide a text. -/
structure Partition (s : List UInt8) (ts : List Token) : Prop where
  /-- The last token, and no other, is the end; it stands behind the text and is empty. -/
  ending : ∃ front, ts = front ++ [⟨.ending, "", s.length⟩] ∧ ∀ t ∈ front, t.kind ≠ .ending
  /-- Every token stands in the text at its offset, and is a lexeme there. -/
  lexeme : ∀ t ∈ ts, ∃ read rest, s = read ++ (Utf8.bytes t.literal ++ rest) ∧
    t.offset = read.length ∧ t.IsLexeme rest
  /-- Offsets increase, and no two tokens overlap. -/
  ordered : ts.Pairwise fun t u => t.offset < u.offset ∧ t.stop ≤ u.offset
  /-- A byte that lies in no token is blank. -/
  blank : ∀ i b, s[i]? = some b → (∀ t ∈ ts, i < t.offset ∨ t.stop ≤ i) → isBlank b = true

theorem Divides.partition {s : List UInt8} {ts : List Token} (h : Divides 0 s ts) :
    Partition s ts where
  ending := by
    have hfront := h.exists_front
    rwa [Nat.zero_add] at hfront
  lexeme t ht := by
    obtain ⟨read, rest, hsplit, hoffset, hlexeme⟩ := h.exists_split t ht
    rw [Nat.zero_add] at hoffset
    exact ⟨read, rest, hsplit, hoffset, hlexeme⟩
  ordered := h.pairwise
  blank i b hb hout := h.isBlank_of_outside hb (by rwa [Nat.zero_add])

/-- The tokens of a text are those that divide it: each is the longest that stands at its offset, and only
blanks stand between them. If a text has no tokens, it is because of the character at the offset that is
reported: the text before it has tokens, and every text that begins the same way up to this byte is refused
there. -/
theorem tokenize_partition (s : List UInt8) :
    (∀ ts, tokenize s = .ok ts ↔ Divides 0 s ts) ∧ (∀ ts, tokenize s = .ok ts → Partition s ts) ∧
      ∀ e, tokenize s = .error e → ∃ i, i < s.length ∧
        e = .unexpected (Utf8.firstChar (s.drop i)) i ∧ (∃ ts, tokenize (s.take i) = .ok ts) ∧
        ∀ s', s.take (i + 1) <+: s' →
          tokenize s' = .error (.unexpected (Utf8.firstChar (s'.drop i)) i) := by
  refine ⟨fun ts => tokenize_eq_ok_iff_divides, fun ts h => (tokenize_eq_ok_iff_divides.mp h).partition,
    fun e he => ?_⟩
  rcases divides_or_blocks s 0 with ⟨ts, hts⟩ | ⟨read, b, rest, rfl, ⟨ts, hts⟩, hfailure⟩
  · rw [tokenize_eq_ok_iff_divides.mpr hts] at he
    cases he
  · have hrefused (rest' : List UInt8) : tokenize (read ++ b :: rest') =
        .error (.unexpected (Utf8.firstChar ((read ++ b :: rest').drop read.length)) read.length) := by
      rw [List.drop_left, tokenize_eq_error]
      have hstop := hfailure rest'
      rwa [Nat.zero_add] at hstop
    refine ⟨read.length, by simp, ?_, ⟨ts, ?_⟩, fun s' hs' => ?_⟩
    · rw [hrefused] at he
      exact (Except.error.inj he).symm
    · rw [List.take_left]
      exact tokenize_eq_ok_iff_divides.mpr hts
    · have htake : (read ++ b :: rest).take (read.length + 1) = read ++ [b] := by
        rw [List.take_length_add_append]
        rfl
      rw [htake] at hs'
      obtain ⟨rest', rfl⟩ := hs'
      rw [List.append_assoc]
      exact hrefused rest'

/-- A point in a numeral, and a second one, which is refused whatever follows it. -/
theorem tokenize_partition_point :
    let s := Utf8.bytes "ab +1.5\n"
    let ts : List Token := [⟨.identifier, "ab", 0⟩, ⟨.plus, "+", 3⟩, ⟨.number, "1.5", 4⟩, ⟨.ending, "", 8⟩]
    (tokenize s = .ok ts ∧ Divides 0 s ts ∧ Partition s ts) ∧
      tokenize (Utf8.bytes "ab+1.5.") = .error (.unexpected '.' 6) ∧
      ∀ rest, tokenize (Utf8.bytes "ab+1.5." ++ rest) =
        .error (.unexpected (Utf8.firstChar (Utf8.bytes "." ++ rest)) 6) := by
  intro s ts
  have htokens : tokenize s = .ok ts := by decide +kernel
  have hrefused : tokenize (Utf8.bytes "ab+1.5.") = .error (.unexpected '.' 6) := by decide +kernel
  refine ⟨⟨htokens, ((tokenize_partition s).1 ts).mp htokens, (tokenize_partition s).2.1 ts htokens⟩,
    hrefused, fun rest => ?_⟩
  obtain ⟨i, -, he, -, hprefix⟩ := (tokenize_partition _).2.2 _ hrefused
  obtain rfl : 6 = i := (LexError.unexpected.inj he).2
  have htake : (Utf8.bytes "ab+1.5.").take 7 = Utf8.bytes "ab+1.5." := by decide +kernel
  have hread : Utf8.bytes "ab+1.5." = Utf8.bytes "ab+1.5" ++ Utf8.bytes "." := by decide +kernel
  have hdrop : (Utf8.bytes "ab+1.5." ++ rest).drop 6 = Utf8.bytes "." ++ rest := by
    rw [hread, List.append_assoc]
    exact List.drop_left' (by decide +kernel)
  rw [← hdrop]
  refine hprefix _ ?_
  rw [htake]
  exact List.prefix_append _ rest

end Fluxion
