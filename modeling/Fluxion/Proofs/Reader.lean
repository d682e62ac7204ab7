import Fluxion.Expr.Reader
import Fluxion.Scalar.Float
import Fluxion.Proofs.Token.Session

/-!
# A reader can be used again

A reader that takes its tokens out of a lexer one by one does what is done with all the tokens at once. It
begins with a reset of the lexer, so nothing that was read before, and no error that stopped it, has any
influence on what is read next.
-/

namespace Fluxion

variable {α : Type} [Scalar α]

namespace Reader

/-- A reader that goes on takes the first of the tokens that are to come. -/
theorem advance_ok {r r' : Reader} (h : r.advance = (.ok (), r')) :
    r.lexer.ahead = r'.current :: r'.lexer.ahead ∧ r'.lexer.stop = r.lexer.stop := by
  rw [advance] at h
  rcases r.lexer.next_cases with ⟨t, l', hnext, hahead, hstop⟩ | ⟨l', hnext, -, -, -⟩
  · rw [hnext] at h
    cases h
    exact ⟨hahead, hstop⟩
  · rw [hnext] at h
    cases h

/-- A reader that cannot go on has no token to come, and the error is the one that follows them. -/
theorem advance_error {r r' : Reader} {e : LexError} (h : r.advance = (.error e, r')) :
    r.lexer.ahead = [] ∧ r.lexer.stop = e := by
  rw [advance] at h
  rcases r.lexer.next_cases with ⟨t, l', hnext, -, -⟩ | ⟨l', hnext, hahead, -, -⟩
  · rw [hnext] at h
    cases h
  · rw [hnext] at h
    cases h
    exact ⟨hahead, rfl⟩

/-- Reading on from the current token is reading it and the tokens that are to come. -/
theorem read_eq_run (s : Parser.State α) (r : Reader) :
    (r.read s).1 = Parser.run (.lexical r.lexer.stop) s (r.current :: r.lexer.ahead) := by
  fun_induction read s r with
  | case1 s r hmove => simp [Parser.run, hmove]
  | case2 s r e hmove => simp [Parser.run, hmove]
  | case3 s r s' hmove e r' hadvance =>
    obtain ⟨hahead, hstop⟩ := advance_error hadvance
    simp [Parser.run, hmove, hahead, hstop]
  | case4 s r s' hmove r' hadvance ih =>
    obtain ⟨hahead, hstop⟩ := advance_ok hadvance
    rw [ih, hstop, ← hahead]
    conv_rhs => rw [Parser.run, hmove]
  | case5 s r next hmove e r' hadvance =>
    obtain ⟨hahead, hstop⟩ := advance_error hadvance
    simp [Parser.run, hmove, hahead, hstop]
  | case6 s r next hmove r' hadvance v hvalue ih =>
    obtain ⟨hahead, hstop⟩ := advance_ok hadvance
    rw [ih, hstop, ← hahead]
    conv_rhs => rw [Parser.run, hmove]
    simp [hahead, hvalue]
  | case7 s r next hmove r' hadvance hvalue =>
    obtain ⟨hahead, -⟩ := advance_ok hadvance
    simp [Parser.run, hmove, hahead, hvalue]

/-- Whatever was read before, a text is read as it is by itself. -/
theorem parse_eq (r : Reader) (text : List UInt8) :
    (r.parse text).1 = (Expr.parse text : Except ParseError (Expr α)) := by
  have hahead := r.lexer.ahead_reset text
  have hstop := r.lexer.stop_reset text
  rw [parse, Expr.parse]
  cases hadvance : advance ⟨r.lexer.reset text, r.current⟩ with
  | mk result r' =>
    cases result with
    | error e =>
      obtain ⟨hnone, he⟩ := advance_error hadvance
      dsimp only at hnone he ⊢
      rw [← hahead, ← hstop, hnone, he, Parser.run]
    | ok u =>
      obtain ⟨hfirst, hsame⟩ := advance_ok hadvance
      dsimp only at hfirst hsame ⊢
      rw [read_eq_run, hsame, ← hfirst, hahead, hstop]

theorem parseAll_eq (r : Reader) (texts : List (List UInt8)) :
    r.parseAll texts = texts.map fun text => (Expr.parse text : Except ParseError (Expr α)) := by
  induction texts generalizing r with
  | nil => rfl
  | cons text texts ih =>
    rw [parseAll]
    exact congrArg₂ List.cons (r.parse_eq text) (ih _)

end Reader

/-- The tokens of a text end with the end token, and there is no other among them. -/
theorem tokenize_ending {text : List UInt8} {ts : List Token} (h : tokenize text = .ok ts) :
    ∃ front last, ts = front ++ [last] ∧ last.kind = .ending ∧ ∀ t ∈ front, t.kind ≠ .ending := by
  obtain ⟨hfailure, rfl⟩ := tokenize_eq_ok.mp h
  rcases tokensFrom_stops text 0 with ⟨front, last, hstop, hlast⟩ | ⟨list, char, stop, hstop⟩
  · have hlist : (tokens text).list = front ++ [last] := by rw [tokens, hstop]
    refine ⟨front, last, hlist, hlast, fun t ht hkind => ?_⟩
    obtain ⟨before, behind, rfl⟩ := List.append_of_mem ht
    rw [List.append_assoc, List.cons_append] at hlist
    obtain ⟨hnil, -⟩ := tokensFrom_ending hlist hkind
    exact absurd hnil (by simp)
  · rw [tokens, hstop] at hfailure
    cases hfailure

/-- What a lexer answers since the last reset is decided by the text of that reset, whatever was called
before: the tokens of the text, the end token last, and then that it is exhausted; or, if the text has a
character that no token contains, the tokens before it and then the error about it, again and again. So
all the texts given to one reader are read as each of them is read by itself, and by a reader of its own. -/
theorem answers_since_reset :
    (∀ (l : Lexer) (earlier : List Lexer.Call) (text : List UInt8) (n : ℕ),
      (∀ ts, tokenize text = .ok ts →
        (∃ front last, ts = front ++ [last] ∧ last.kind = .ending ∧ ∀ t ∈ front, t.kind ≠ .ending) ∧
        l.answers (earlier ++ .reset text :: List.replicate n .next) =
          l.answers earlier ++ (List.range n).map (Lexer.script ts .exhausted)) ∧
      ∀ e, tokenize text = .error e →
        l.answers (earlier ++ .reset text :: List.replicate n .next) =
          l.answers earlier ++ (List.range n).map (Lexer.script (tokens text).list e)) ∧
    ∀ (r : Reader) (texts : List (List UInt8)),
      r.parseAll texts = texts.map (fun text => (Expr.parse text : Except ParseError (Expr α))) ∧
      r.parseAll texts =
        texts.map fun text => ((Reader.fresh.parse text).1 : Except ParseError (Expr α)) := by
  refine ⟨fun l earlier text n => ⟨fun ts hts => ⟨tokenize_ending hts, ?_⟩, fun e he => ?_⟩,
    fun r texts => ?_⟩
  · obtain ⟨hfailure, rfl⟩ := tokenize_eq_ok.mp hts
    rw [l.answers_reset, hfailure]
    rfl
  · rw [l.answers_reset, tokenize_eq_error.mp he]
    rfl
  · refine ⟨r.parseAll_eq texts, (r.parseAll_eq texts).trans ?_⟩
    exact List.map_congr_left fun text _ => (Reader.fresh.parse_eq text).symm

/-- A lexer that stands inside a number with two points is given another text with such a number. A reader is
given a text that breaks off, a text with such a number, and an expression. -/
theorem answers_since_reset_points :
    (Lexer.ofBytes (Utf8.bytes "1.2.3")).answers
        ([.next] ++ .reset (Utf8.bytes "x*1.2.") :: List.replicate 4 .next) =
      [.error (.unexpected '.' 3), .ok ⟨.identifier, "x", 0⟩, .ok ⟨.star, "*", 1⟩,
        .error (.unexpected '.' 5), .error (.unexpected '.' 5)] ∧
    Reader.fresh.parseAll [Utf8.bytes "(x+", Utf8.bytes "x*1.2.", Utf8.bytes "2*x"] =
      [.error (.mismatch [.number, .identifier, .opening] .ending 3), .error (.lexical (.unexpected '.' 5)),
        .ok (.mul (.num 2) (.var "x") : Expr Float)] := by
  refine ⟨?_, ?_⟩
  · have herror : tokenize (Utf8.bytes "x*1.2.") = .error (.unexpected '.' 5) := by decide +kernel
    rw [((answers_since_reset (α := Float)).1 _ _ _ 4).2 _ herror]
    decide +kernel
  · rw [((answers_since_reset (α := Float)).2 _ _).1]
    decide +kernel

end Fluxion
