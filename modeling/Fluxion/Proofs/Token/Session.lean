import Fluxion.Proofs.Token.Lexer

/-!
# Sessions with a lexer

What a lexer still has to say is a list of tokens and the error that follows them. A call of `next` takes
the first of the tokens. Once there are none it reports the error and changes nothing that counts: after
the end token the lexer is exhausted, and a character that was rejected is rejected again, also where it
was the second point of a number and the lexer stands inside that number. So the answers since the last
`reset` are decided by its text.
-/

namespace Fluxion

/-! ## A rejected character is rejected again -/

theorem scan_point (rest : List UInt8) (offset : ℕ) :
    scan (pointByte :: rest) offset = .reject '.' offset (pointByte :: rest) := by
  rw [scan_of_not_blank (by decide)]
  rfl

theorem Scan.number_reject {bs rest : List UInt8} {offset stop : ℕ} {char : Char}
    (h : Scan.number bs offset = .reject char stop rest) :
    char = '.' ∧ ∃ more, rest = pointByte :: more := by
  rw [Scan.number] at h
  split at h
  · split at h
    · dsimp only at h
      split at h
      · rename_i hpoint
        cases h
        exact ⟨rfl, List.head?_eq_some_iff.mp (beq_iff_eq.mp hpoint)⟩
      · cases h
    · cases h
  · cases h

theorem scan_of_reject {bs rest : List UInt8} {offset stop : ℕ} {char : Char}
    (h : scan bs offset = .reject char stop rest) : scan rest stop = .reject char stop rest := by
  rw [scan] at h
  cases hbs : bs.dropWhile isBlank with
  | nil => rw [hbs, Scan.ofVisible] at h; cases h
  | cons b more =>
    have hblank : isBlank b = false := by
      have := List.head?_dropWhile_not isBlank bs
      rw [hbs] at this
      exact this
    rw [hbs, Scan.ofVisible] at h
    split at h
    · obtain ⟨rfl, more, rfl⟩ := Scan.number_reject h
      exact scan_point more stop
    · rename_i hdigit
      split at h
      · cases h
      · rename_i hletter
        split at h
        · cases h
        · rename_i hsymbol
          cases h
          rw [scan_of_not_blank hblank, Scan.ofVisible, if_neg hdigit, if_neg hletter, hsymbol]

/-! ## One call -/

namespace Lexer

/-- The tokens that are still to come. -/
def ahead (l : Lexer) : List Token := if l.finished then [] else (tokensFrom l.rest l.offset).list

/-- The error that follows them. -/
def stop (l : Lexer) : LexError :=
  if l.finished then .exhausted else (tokensFrom l.rest l.offset).failure.getD .exhausted

theorem ahead_reset (l : Lexer) (text : List UInt8) : (l.reset text).ahead = (tokens text).list := rfl

theorem stop_reset (l : Lexer) (text : List UInt8) :
    (l.reset text).stop = (tokens text).failure.getD .exhausted := rfl

/-- A call hands out the first of the tokens that are to come. If there are none it reports the error that
follows them, and so will the next call. -/
theorem next_cases (l : Lexer) :
    (∃ t l', l.next = (.ok t, l') ∧ l.ahead = t :: l'.ahead ∧ l'.stop = l.stop) ∨
      ∃ l', l.next = (.error l.stop, l') ∧ l.ahead = [] ∧ l'.ahead = [] ∧ l'.stop = l.stop := by
  obtain ⟨rest, offset, finished⟩ := l
  cases finished with
  | true => exact Or.inr ⟨_, rfl, rfl, rfl, rfl⟩
  | false =>
    cases hscan : scan rest offset with
    | token t rest' =>
      refine Or.inl ⟨t, ⟨rest', t.offset + t.literal.utf8ByteSize, false⟩, by simp [next, hscan], ?_, ?_⟩
      · simp [ahead, tokensFrom_token hscan, Tokens.cons]
      · simp [stop, tokensFrom_token hscan, Tokens.cons]
    | finish stop' =>
      refine Or.inl ⟨⟨.ending, "", stop'⟩, ⟨[], stop', true⟩, by simp [next, hscan], ?_, ?_⟩
      · simp [ahead, tokensFrom_finish hscan]
      · simp [stop, tokensFrom_finish hscan]
    | reject char stop' rest' =>
      have hagain := scan_of_reject hscan
      refine Or.inr ⟨⟨rest', stop', false⟩, ?_, ?_, ?_, ?_⟩
      · simp [next, hscan, stop, tokensFrom_reject hscan]
      · simp [ahead, tokensFrom_reject hscan]
      · simp [ahead, tokensFrom_reject hagain]
      · simp [stop, tokensFrom_reject hscan, tokensFrom_reject hagain]

/-! ## Calls in any order -/

/-- A call of a lexer. -/
inductive Call where
  /-- Ask for the next token. -/
  | next
  /-- Go to the beginning of a text. -/
  | reset (text : List UInt8)

/-- The lexer as a call leaves it. -/
def after (l : Lexer) : Call → Lexer
  | .next => l.next.2
  | .reset text => l.reset text

/-- What is answered to the calls for a token, in their order. -/
def answers (l : Lexer) : List Call → List (Except LexError Token)
  | [] => []
  | .next :: calls => l.next.1 :: (l.after .next).answers calls
  | .reset text :: calls => (l.after (.reset text)).answers calls

theorem answers_append (l : Lexer) (calls more : List Call) :
    l.answers (calls ++ more) = l.answers calls ++ (calls.foldl after l).answers more := by
  induction calls generalizing l with
  | nil => rfl
  | cons call calls ih =>
    cases call with
    | next => exact congrArg (l.next.1 :: ·) (ih _)
    | reset text => exact ih _

/-- Tokens one after the other and then the same error for ever: the answer to the call number `k`,
counted from zero. -/
def script (ts : List Token) (stop : LexError) (k : ℕ) : Except LexError Token :=
  (ts[k]?).elim (.error stop) .ok

/-- The answers to calls for tokens only. -/
theorem answers_replicate_next (l : Lexer) (n : ℕ) :
    l.answers (List.replicate n .next) = (List.range n).map (script l.ahead l.stop) := by
  induction n generalizing l with
  | zero => rfl
  | succ n ih =>
    rw [List.replicate_succ, answers, ih, List.range_succ_eq_map, List.map_cons, List.map_map]
    show _ :: (List.range n).map (script l.next.2.ahead l.next.2.stop) = _
    rcases l.next_cases with ⟨t, l', hnext, hahead, hstop⟩ | ⟨l', hnext, hahead, hahead', hstop⟩
    · rw [hnext, hahead, hstop]
      rfl
    · rw [hnext, hahead, hahead', hstop]
      rfl

/-- Whatever was called before, the answers since a `reset` are the tokens of its text and the error that
follows them. -/
theorem answers_reset (l : Lexer) (earlier : List Call) (text : List UInt8) (n : ℕ) :
    l.answers (earlier ++ .reset text :: List.replicate n .next) =
      l.answers earlier ++ (List.range n).map
        (script (tokens text).list ((tokens text).failure.getD .exhausted)) := by
  rw [answers_append, answers]
  exact congrArg _ (answers_replicate_next _ n)

end Lexer

end Fluxion
