import Fluxion.Expr.Parse

/-!
# Reading one expression after the other

A `Reader` takes the tokens of a text out of a lexer, one ahead of what it has understood. It can be
given another text at any time, also after an error that left it in the middle of the last one.
-/

namespace Fluxion

namespace Lexer

/-- A limit to the number of tokens that are still to come. -/
def supply (l : Lexer) : Nat := if l.finished then 0 else l.rest.length + 1

/-- Handing a token out uses up the text. -/
theorem supply_next_lt {l l' : Lexer} {t : Token} (h : l.next = (.ok t, l')) :
    l'.supply < l.supply := by
  rw [next] at h
  cases hf : l.finished with
  | true => simp [hf] at h
  | false =>
    simp only [hf, Bool.false_eq_true, if_false] at h
    split at h
    · rename_i hscan
      cases h
      simpa [supply, hf] using scan_shrinks hscan
    · cases h
      simp [supply, hf]
    · cases h

end Lexer

/-- A lexer together with the token that was taken out of it last. -/
structure Reader where
  /-- The text behind the token. -/
  lexer : Lexer
  /-- The token. -/
  current : Token
deriving DecidableEq, Repr

namespace Reader

/-- A reader that has seen no text. -/
def fresh : Reader := ⟨.ofBytes [], default⟩

/-- Take the next token. After an error the reader keeps the one that it has. -/
def advance (r : Reader) : Except LexError Unit × Reader :=
  match r.lexer.next with
  | (.ok t, l) => (.ok (), ⟨l, t⟩)
  | (.error e, l) => (.error e, ⟨l, r.current⟩)

theorem supply_advance_lt {r r' : Reader} (h : r.advance = (.ok (), r')) :
    r'.lexer.supply < r.lexer.supply := by
  rw [advance] at h
  split at h
  · rename_i hnext
    cases h
    exact Lexer.supply_next_lt hnext
  · cases h

variable {α : Type} [Scalar α]

/-- Read on from the current token. The token after a number is taken before the value of the number
is looked at. -/
def read (s : Parser.State α) (r : Reader) : Except ParseError (Expr α) × Reader :=
  match s.move? r.current with
  | none => (.error (.mismatch s.expected r.current.kind r.current.offset), r)
  | some (.accept e) => (.ok e, r)
  | some (.shift s') =>
    match _h : r.advance with
    | (.error e, r') => (.error (.lexical e), r')
    | (.ok (), r') => read s' r'
  | some (.literal next) =>
    match _h : r.advance with
    | (.error e, r') => (.error (.lexical e), r')
    | (.ok (), r') =>
      match Numeral.value? r.current.literal with
      | some v => read (next v) r'
      | none => (.error (.range r.current.literal r.current.offset), r')
termination_by r.lexer.supply
decreasing_by all_goals exact supply_advance_lt (by assumption)

/-- The expression that a text denotes, and the reader as it is left. -/
def parse (r : Reader) (text : List UInt8) : Except ParseError (Expr α) × Reader :=
  match advance ⟨r.lexer.reset text, r.current⟩ with
  | (.error e, r') => (.error (.lexical e), r')
  | (.ok (), r') => read .start r'

/-- The expressions that texts denote, all read by the same reader. -/
def parseAll (r : Reader) : List (List UInt8) → List (Except ParseError (Expr α))
  | [] => []
  | text :: texts =>
    let (result, r') := r.parse text
    result :: r'.parseAll texts

end Reader

end Fluxion
