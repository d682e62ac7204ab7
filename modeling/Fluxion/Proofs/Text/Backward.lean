import Fluxion.Proofs.Decimal
import Fluxion.Proofs.Overflow

/-!
# Texts read from the end

Repeated operators associate to the left, so the last operand of a text is the one that is found without
knowing how many there are. For that a text is read from its end. A name or a numeral is a run of bytes of
one class, and where two such runs are each preceded by something of another class, they agree if the wholes
do.
-/

namespace Fluxion

/-- The bytes of a text from the last one to the first one. -/
def Utf8.backward (s : String) : List UInt8 := (bytes s).reverse

theorem Utf8.backward_append (s t : String) : backward (s ++ t) = backward t ++ backward s := by
  rw [backward, bytes_append, List.reverse_append]
  rfl

theorem Utf8.backward_injective {s t : String} (h : backward s = backward t) : s = t :=
  bytes_injective (List.reverse_injective h)

/-- Two runs of one class in front of bytes of other classes. -/
theorem run_append_inj {p : UInt8 → Bool} {xs ys s t : List UInt8} (hx : ∀ b ∈ xs, p b = true)
    (hy : ∀ b ∈ ys, p b = true) (hs : ∀ b ∈ s.head?, p b = false) (ht : ∀ b ∈ t.head?, p b = false)
    (h : xs ++ s = ys ++ t) : xs = ys ∧ s = t := by
  obtain ⟨hx, hs⟩ := span_append hx hs
  obtain ⟨hy, ht⟩ := span_append hy ht
  exact ⟨hx.symm.trans ((congrArg _ h).trans hy), hs.symm.trans ((congrArg _ h).trans ht)⟩

/-- A byte of a plain numeral: a digit or the point. -/
def isNumeralByte (b : UInt8) : Bool := isDigit b || b == pointByte

theorem Numeral.IsPlain.isNumeralByte {s : String} (h : Numeral.IsPlain s) :
    ∀ b ∈ Utf8.backward s, isNumeralByte b = true := by
  obtain ⟨whole, fraction, -, hwhole, hfraction, hbytes⟩ := h
  have hall : ∀ b ∈ whole ++ pointByte :: fraction, Fluxion.isNumeralByte b = true := by
    intro b hb
    rw [Fluxion.isNumeralByte, Bool.or_eq_true]
    rcases List.mem_append.mp hb with hb | hb
    · exact Or.inl (hwhole b hb)
    · rcases List.mem_cons.mp hb with rfl | hb
      · exact Or.inr (beq_self_eq_true _)
      · exact Or.inl (hfraction b hb)
  intro b hb
  rw [Utf8.backward, List.mem_reverse] at hb
  rcases hbytes with hbytes | hbytes
  · exact hall b (List.mem_append_left _ (hbytes ▸ hb))
  · exact hall b (hbytes ▸ hb)

theorem Numeral.IsPlain.backward_ne_nil {s : String} (h : Numeral.IsPlain s) :
    Utf8.backward s ≠ [] := by
  obtain ⟨whole, fraction, hne, -, -, hbytes⟩ := h
  rw [Utf8.backward, Ne, List.reverse_eq_nil_iff]
  rcases hbytes with hbytes | hbytes
  · rwa [hbytes]
  · rw [hbytes]
    exact fun hnil => hne (List.append_eq_nil_iff.mp hnil).1

theorem Utf8.backward_minus_append (s : String) : backward ("-" ++ s) = backward s ++ [45] := by
  have hminus : backward "-" = [45] := by decide +kernel
  rw [backward_append, hminus]

/-- The texts of two finite numbers in front of something that does not go on with a numeral: they are the
same, or one of them is the other one with a minus sign. -/
theorem NumeralScalar.text_append_cases {α : Type} [NumeralScalar α] {v w : α}
    (hv : Scalar.IsFinite v) (hw : Scalar.IsFinite w) {s t : List UInt8}
    (hs : ∀ b ∈ s.head?, isNumeralByte b = false) (ht : ∀ b ∈ t.head?, isNumeralByte b = false)
    (h : Utf8.backward (Scalar.text v) ++ s = Utf8.backward (Scalar.text w) ++ t) :
    (Scalar.text v = Scalar.text w ∧ s = t) ∨ (Scalar.text v = "-" ++ Scalar.text w ∧ 45 :: s = t) ∨
      (Scalar.text w = "-" ++ Scalar.text v ∧ s = 45 :: t) := by
  obtain ⟨body, hbody, hbodytext⟩ := NumeralScalar.text_numeral v hv
  obtain ⟨body', hbody', hbodytext'⟩ := NumeralScalar.text_numeral w hw
  have hminus : ∀ {u : List UInt8}, ∀ b ∈ (45 :: u).head?, isNumeralByte b = false := by
    rintro u b ⟨⟩
    decide
  have hruns : ∀ {s t : List UInt8}, (∀ b ∈ s.head?, isNumeralByte b = false) →
      (∀ b ∈ t.head?, isNumeralByte b = false) →
      Utf8.backward body ++ s = Utf8.backward body' ++ t → body = body' ∧ s = t := fun hs ht h =>
    (run_append_inj hbody.isNumeralByte hbody'.isNumeralByte hs ht h).imp_left
      Utf8.backward_injective
  rcases hbodytext with htext | htext <;> rcases hbodytext' with htext' | htext' <;>
    rw [htext, htext'] at h ⊢
  · exact Or.inl (hruns hs ht h)
  · rw [Utf8.backward_minus_append, List.append_assoc] at h
    obtain ⟨rfl, rfl⟩ := hruns hs hminus h
    exact Or.inr (Or.inr ⟨rfl, rfl⟩)
  · rw [Utf8.backward_minus_append, List.append_assoc] at h
    obtain ⟨rfl, rfl⟩ := hruns hminus ht h
    exact Or.inr (Or.inl ⟨rfl, rfl⟩)
  · rw [Utf8.backward_minus_append, Utf8.backward_minus_append, List.append_assoc,
      List.append_assoc] at h
    obtain ⟨rfl, hst⟩ := hruns hminus hminus h
    exact Or.inl ⟨rfl, (List.cons.inj hst).2⟩

end Fluxion
