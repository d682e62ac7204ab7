import Fluxion.Proofs.Grammar.Recognition
import Fluxion.Proofs.Settling

/-!
# What can go wrong

A differentiation is stopped by its input only: by a variable that is no identifier, by a character, a
token or a number of the text, by a computation without a finite result, or by a limit that the caller
set. The passes can also fail for want of a rule, on a missing operand or on a marker that was not
resolved; none of this happens to a tree that was read from a text, because every pass leaves the shape
that the next one has rules for.
-/

namespace Fluxion

variable {α : Type}

/-! ## Reading -/

/-- The error is about a character, a token or a number of the text. -/
def ParseError.AboutText : ParseError → Prop
  | .lexical (.unexpected _ _) => True
  | .lexical .exhausted => False
  | .mismatch _ _ _ => True
  | .range _ _ => True

/-- As long as the end is still to come, or else there is a reason for its absence, reading fails on
what stands in the text. -/
theorem Parser.endsIn_run [Scalar α] {failure : ParseError} {s : Parser.State α} {ts : List Token}
    (h : failure.AboutText ∨ ∃ t ∈ ts, t.kind = .ending) :
    EndsIn ParseError.AboutText (fun _ => True) (Parser.run failure s ts) := by
  induction ts generalizing s with
  | nil =>
    rcases h with h | ⟨t, ht, -⟩
    · exact h
    · cases ht
  | cons t ts ih =>
    have hrest (ht : t.kind ≠ .ending) : failure.AboutText ∨ ∃ t ∈ ts, t.kind = .ending := by
      refine h.imp_right fun ⟨last, hmem, hlast⟩ => ⟨last, ?_, hlast⟩
      rcases List.mem_cons.mp hmem with rfl | hmem
      · exact absurd hlast ht
      · exact hmem
    rw [Parser.run]
    cases hmove : s.move? t with
    | none => trivial
    | some m =>
      have hkind := Parser.madeBy_of_move? hmove
      cases m with
      | accept e => trivial
      | shift s' => exact ih (hrest hkind.2)
      | literal next =>
        have hnumber : t.kind ≠ .ending := by
          rw [show t.kind = .number from hkind]
          decide
        dsimp only
        split
        · rename_i hempty
          rcases hrest hnumber with h | ⟨last, hmem, -⟩
          · exact h
          · rw [List.isEmpty_iff.mp hempty] at hmem
            cases hmem
        · split
          · exact ih (hrest hnumber)
          · trivial

theorem Expr.endsIn_parse [Scalar α] (text : List UInt8) :
    EndsIn ParseError.AboutText (fun _ => True) (Expr.parse text : Except ParseError (Expr α)) := by
  rw [parse]
  refine Parser.endsIn_run ?_
  rcases tokensFrom_stops text 0 with ⟨front, t, hts, ht⟩ | ⟨list, char, stop, hts⟩
  · right
    rw [tokens, hts]
    exact ⟨t, List.mem_append_right _ (List.mem_singleton_self t), ht⟩
  · left
    rw [tokens, hts]
    trivial

/-! ## All stages -/

/-- The cause is one that the input of a differentiation can give. -/
def Cause.Foreseen (options : Options) (x : String) : Cause α → Prop
  | .invalidVariable name => name = x ∧ isIdentifier x = false
  | .source err => err.AboutText
  | .pass err => err.IsNumeric
  | .iterationLimit limit => 0 < options.maxIterations ∧ limit = options.maxIterations.toNat

theorem Cause.IsNumeric.foreseen {options : Options} {x : String} {c : Cause α} (h : c.IsNumeric) :
    c.Foreseen options x := by
  cases c with
  | pass err => exact h
  | invalidVariable name => exact h.elim
  | source err => exact h.elim
  | iterationLimit limit => exact h.elim

theorem Differentiation.endsIn_pipeline [DefiniteScalar α] (options : Options) (text : List UInt8)
    (x : String) :
    EndsIn (Cause.Foreseen options x) (fun _ => True) (pipeline (α := α) options text x).outcome := by
  cases hx : isIdentifier x with
  | false =>
    rw [pipeline, if_neg (by simp [hx])]
    exact ⟨rfl, hx⟩
  | true =>
    cases hparse : (Expr.parse text : Except ParseError (Expr α)) with
    | error err =>
      rw [pipeline, if_pos hx, hparse]
      exact (Expr.endsIn_parse text).of_error hparse
    | ok p =>
      obtain ⟨n, m, hdist, h⟩ := Expr.exists_settlesTo hparse
      by_cases hcap : 0 < options.maxIterations ∧ options.maxIterations < n.settlingDepth
      · rw [outcome_pipeline_of_lt hx hparse hdist h hcap]
        exact ⟨hcap.1, rfl⟩
      · exact (endsIn_pipeline_of_not_lt hx hparse hdist h hcap).imp (fun _ => Cause.IsNumeric.foreseen)
          fun _ _ => trivial

/-- A differentiation that fails was given a variable that is no identifier, a text that cannot be read,
numbers without a finite result or, if it was limited at all, a limit that is too small. What is read
from a text can be multiplied out, and only numbers can keep its terms from being computed. -/
theorem differentiate_failure_foreseen [DefiniteScalar α] :
    (∀ (options : Options) (text : List UInt8) (x : String) (f : Failure α),
      (differentiate options text x).outcome = .error f → f.cause.Foreseen options x) ∧
    ∀ (text : List UInt8) (n : Expr α), Expr.parse text = .ok n →
      (∃ e, n.distribute = .ok e) ∧ ∀ err, n.canonicalTerms = .error err → err.IsNumeric := by
  refine ⟨fun options text x f h => ?_, fun text n h => ⟨?_, fun err herr => ?_⟩⟩
  · exact (Differentiation.endsIn_pipeline options text x).of_error
      (exists_differentiate_error_iff.mp ⟨f, h, rfl⟩)
  · obtain ⟨e, he, -⟩ := (Expr.grammatical_parse h).arithmetic.exists_distributeIn false
    exact ⟨e, he⟩
  · exact (Expr.grammatical_parse h).arithmetic.endsIn_canonicalTerms.of_error herr

/-- A limit of one depth stops the derivative of a sum, and the terms of a quotient by zero do not
exist. -/
theorem differentiate_failure_foreseen_limit :
    (∃ f : Failure Float, (differentiate ⟨1, true⟩ (Utf8.bytes "x+1") "x").outcome = .error f ∧
      f.cause.Foreseen ⟨1, true⟩ "x") ∧
    ∃ (n : Expr Float) (err : PassError Float), Expr.parse (Utf8.bytes "1/0") = .ok n ∧
      n.canonicalTerms = .error err ∧ err.IsNumeric := by
  constructor
  · obtain ⟨f, hf⟩ := exists_error_of_not_isOk
      (x := (differentiate (α := Float) ⟨1, true⟩ (Utf8.bytes "x+1") "x").outcome)
      (by decide +kernel)
    exact ⟨f, hf, differentiate_failure_foreseen.1 _ _ _ f hf⟩
  · have hparse : Expr.parse (Utf8.bytes "1/0") = .ok (.div (.num 1) (.num 0) : Expr Float) := by
      decide +kernel
    obtain ⟨err, herr⟩ := exists_error_of_not_isOk
      (x := (Expr.div (.num 1) (.num 0) : Expr Float).canonicalTerms) (by decide +kernel)
    exact ⟨_, err, hparse, herr, (differentiate_failure_foreseen.2 _ _ hparse).2 err herr⟩

end Fluxion
