import Fluxion.Json.Read
import Fluxion.Proofs.Outcome
import Mathlib.Data.List.TakeWhile

/-!
# The spelling of JSON

The grammar of JSON as a relation between values and the texts that spell them, and the proof that the
reader finds exactly these: what it takes off the front of a text spells the value that it returns, and
wherever a text starts with a spelling, its value is returned with the rest. Only a number may go on in the
rest.
-/

namespace Fluxion

namespace Json

/-! ## White space -/

/-- Nothing but white space. -/
def Blank (ws : List Char) : Prop := ∀ c ∈ ws, isSpace c = true

variable {ws cs rest text : List Char}

theorem blank_nil : Blank [] := fun _ hc => absurd hc List.not_mem_nil

theorem exists_blank_skipSpace (cs : List Char) : ∃ ws, Blank ws ∧ cs = ws ++ skipSpace cs :=
  ⟨cs.takeWhile isSpace, fun _ hc => List.mem_takeWhile_imp hc, (List.takeWhile_append_dropWhile).symm⟩

theorem Blank.skipSpace_append (h : Blank ws) (cs : List Char) : skipSpace (ws ++ cs) = skipSpace cs :=
  List.dropWhile_append_of_pos h

theorem skipSpace_cons {c : Char} (h : isSpace c = false) (cs : List Char) :
    skipSpace (c :: cs) = c :: cs :=
  List.dropWhile_cons_of_neg (by rw [h]; exact Bool.false_ne_true)

theorem Blank.skipSpace_eq (h : Blank ws) {c : Char} (hc : isSpace c = false) (cs : List Char) :
    skipSpace (ws ++ c :: cs) = c :: cs := by
  rw [h.skipSpace_append, skipSpace_cons hc]

theorem Blank.skipSpace_eq_nil (h : Blank ws) : skipSpace ws = [] := List.dropWhile_eq_nil_iff.mpr h

/-! ## Strings -/

/-- A string from somewhere behind its opening quote to its closing quote, and the characters that it has
there; `units` holds, in reverse, the code units of the escapes that directly precede. -/
inductive Quoted : (units : List ℕ) → (text value : List Char) → Prop where
  | close {units : List ℕ} : Quoted units ['"'] (combineUnits units.reverse)
  /-- An escape that gives a code unit. -/
  | unit {units : List ℕ} {a b c d : Char} {n : ℕ} {text value : List Char} :
    hex4? a b c d = some n → Quoted (n :: units) text value →
      Quoted units ('\\' :: 'u' :: a :: b :: c :: d :: text) value
  /-- An escape that gives a character. -/
  | escape {units : List ℕ} {letter c : Char} {text value : List Char} :
    readString.escape? letter = some c → Quoted [] text value →
      Quoted units ('\\' :: letter :: text) (combineUnits units.reverse ++ c :: value)
  | plain {units : List ℕ} {c : Char} {text value : List Char} :
    c ≠ '"' → c ≠ '\\' → 0x20 ≤ c.toNat → Quoted [] text value →
      Quoted units (c :: text) (combineUnits units.reverse ++ c :: value)

theorem reverse_flush (acc : List Char) (units : List ℕ) :
    (readString.flush acc units).reverse = acc.reverse ++ combineUnits units.reverse := by
  rw [readString.flush, List.reverse_append, List.reverse_reverse]

theorem quoted_of_readString {acc : List Char} {units : List ℕ} {s : String}
    (h : readString acc units cs = .ok (s, rest)) :
    ∃ text value, cs = text ++ rest ∧ Quoted units text value ∧
      s = String.ofList (acc.reverse ++ value) := by
  fun_induction readString acc units cs with
  | case1 | case4 | case5 | case6 | case7 | case9 | case10 => cases h
  | case2 acc units more =>
    cases h
    exact ⟨['"'], _, rfl, .close, by rw [reverse_flush]⟩
  | case3 acc units a b c d more n hn ih =>
    obtain ⟨text, value, rfl, htext, rfl⟩ := ih h
    exact ⟨_, value, rfl, .unit hn htext, rfl⟩
  | case8 acc units letter more hu c hc ih =>
    obtain ⟨text, value, rfl, htext, rfl⟩ := ih h
    refine ⟨_, _, rfl, .escape hc htext, ?_⟩
    rw [List.reverse_cons, reverse_flush, List.append_assoc, List.append_assoc, List.singleton_append]
  | case11 acc units c more hquote _ hlast hletter hcontrol ih =>
    have hbackslash : c ≠ '\\' := by
      rintro rfl
      cases more with
      | nil => exact hlast rfl rfl
      | cons letter more => exact hletter letter more rfl rfl
    obtain ⟨text, value, rfl, htext, rfl⟩ := ih h
    refine ⟨_, _, rfl, .plain hquote hbackslash (Nat.le_of_not_lt hcontrol) htext, ?_⟩
    rw [List.reverse_cons, reverse_flush, List.append_assoc, List.append_assoc, List.singleton_append]

theorem Quoted.readString_eq {units : List ℕ} {value : List Char} (h : Quoted units text value)
    (acc rest : List Char) :
    readString acc units (text ++ rest) = .ok (String.ofList (acc.reverse ++ value), rest) := by
  induction h generalizing acc with
  | close =>
    show readString acc _ ('"' :: rest) = _
    rw [readString, reverse_flush]
  | unit hn _ ih =>
    simp only [List.cons_append]
    rw [readString, hn]
    exact ih acc
  | escape hc _ ih =>
    simp only [List.cons_append]
    rw [readString, hc]
    · dsimp only
      rw [ih, List.reverse_cons, reverse_flush, List.append_assoc, List.append_assoc,
        List.singleton_append]
    · rintro rfl
      cases hc
  | plain hquote hbackslash hcontrol _ ih =>
    simp only [List.cons_append]
    rw [readString, if_neg (Nat.not_lt.mpr hcontrol)]
    · rw [ih, List.reverse_cons, reverse_flush, List.append_assoc, List.append_assoc,
        List.singleton_append]
    · exact hquote
    · exact fun _ h => absurd h hbackslash
    · exact fun h => absurd h hbackslash
    · exact fun _ _ h => absurd h hbackslash

/-! ## Numbers -/

/-- A run of digits. -/
def IsDigits (cs : List Char) : Prop := cs ≠ [] ∧ ∀ c ∈ cs, c.isDigit = true

/-- The digits before the point: no zero stands in front of other digits. -/
def IsWhole (cs : List Char) : Prop := cs = ['0'] ∨ IsDigits cs ∧ cs.head? ≠ some '0'

/-- The text of the digits behind the point. -/
inductive Fraction : (text digits : List Char) → Prop where
  | none : Fraction [] []
  | point {digits : List Char} : IsDigits digits → Fraction ('.' :: digits) digits

/-- The number that a run of digits denotes. -/
def digitsValue (digits : List Char) : ℤ := (Nat.ofDigitChars 10 digits 0 : ℕ)

/-- The text of an exponent. -/
inductive Exponent : (text : List Char) → ℤ → Prop where
  | none : Exponent [] 0
  | unsigned {mark : Char} {digits : List Char} : mark = 'e' ∨ mark = 'E' → IsDigits digits →
    Exponent (mark :: digits) (digitsValue digits)
  | plus {mark : Char} {digits : List Char} : mark = 'e' ∨ mark = 'E' → IsDigits digits →
    Exponent (mark :: '+' :: digits) (digitsValue digits)
  | minus {mark : Char} {digits : List Char} : mark = 'e' ∨ mark = 'E' → IsDigits digits →
    Exponent (mark :: '-' :: digits) (-digitsValue digits)

/-- The characters that may go on with a number. -/
def continuesNumber (c : Char) : Bool := c.isDigit || c == '.' || c == 'e' || c == 'E'

/-- The text of a number without its sign. -/
inductive Unsigned (negative : Bool) : NumberLiteral → List Char → Prop where
  | mk {whole point fraction mark : List Char} {exponent : ℤ} : IsWhole whole → Fraction point fraction →
    Exponent mark exponent → Unsigned negative
      ⟨String.ofList ((if negative then ['-'] else []) ++ (whole ++ (point ++ mark))), negative,
        Nat.ofDigitChars 10 (whole ++ fraction) 0, exponent - fraction.length⟩
      (whole ++ (point ++ mark))

theorem IsDigits.append_ne_cons (h : IsDigits cs) {c : Char} (hc : c.isDigit = false)
    (more : List Char) : cs ++ rest ≠ c :: more := by
  obtain ⟨hne, hdigits⟩ := h
  cases cs with
  | nil => exact absurd rfl hne
  | cons d cs =>
    rintro ⟨⟩
    rw [hdigits c (List.mem_cons_self ..)] at hc
    cases hc

theorem Fraction.point_append {digits : List Char} (h : Fraction text digits) :
    (if digits.isEmpty then [] else ['.']) ++ digits = text := by
  cases h with
  | none => rfl
  | point hdigits =>
    cases digits with
    | nil => exact absurd rfl hdigits.1
    | cons c more => rfl

theorem isDigits_of_readDigits {digits : List Char} (h : readDigits cs = .ok (digits, rest)) :
    cs = digits ++ rest ∧ IsDigits digits := by
  cases cs with
  | nil => cases h
  | cons c more =>
    rw [readDigits] at h
    split at h
    · rename_i hc
      cases h
      refine ⟨List.takeWhile_append_dropWhile.symm, ?_, fun _ hd => List.mem_takeWhile_imp hd⟩
      rw [List.takeWhile_cons_of_pos hc]
      exact List.cons_ne_nil _ _
    · cases h

theorem IsDigits.readDigits_eq (h : IsDigits cs) (hrest : ∀ c ∈ rest.head?, c.isDigit = false) :
    readDigits (cs ++ rest) = .ok (cs, rest) := by
  obtain ⟨hne, hdigits⟩ := h
  have hspan : rest.takeWhile Char.isDigit = [] ∧ rest.dropWhile Char.isDigit = rest := by
    cases rest with
    | nil => exact ⟨rfl, rfl⟩
    | cons c more =>
      have hc : ¬c.isDigit = true := by rw [hrest c rfl]; exact Bool.false_ne_true
      exact ⟨List.takeWhile_cons_of_neg hc, List.dropWhile_cons_of_neg hc⟩
  cases cs with
  | nil => exact absurd rfl hne
  | cons c more =>
    rw [List.cons_append, readDigits, if_pos (hdigits c (List.mem_cons_self ..)), ← List.cons_append,
      List.takeWhile_append_of_pos hdigits, List.dropWhile_append_of_pos hdigits, hspan.1, hspan.2,
      List.append_nil]

theorem isWhole_of_readWhole {whole : List Char} (h : readWhole cs = .ok (whole, rest)) :
    cs = whole ++ rest ∧ IsWhole whole := by
  rw [readWhole.eq_def] at h
  split at h
  · cases h
    exact ⟨rfl, Or.inl rfl⟩
  · rename_i hzero
    obtain ⟨rfl, hdigits⟩ := isDigits_of_readDigits h
    refine ⟨rfl, Or.inr ⟨hdigits, fun hhead => ?_⟩⟩
    cases whole with
    | nil => cases hhead
    | cons c more =>
      cases hhead
      exact hzero _ rfl

theorem IsWhole.readWhole_eq (h : IsWhole cs) (hrest : ∀ c ∈ rest.head?, c.isDigit = false) :
    readWhole (cs ++ rest) = .ok (cs, rest) := by
  rcases h with rfl | ⟨hdigits, hzero⟩
  · rfl
  · rw [readWhole.eq_def]
    split
    · rename_i more hmore
      cases cs with
      | nil => exact absurd rfl hdigits.1
      | cons c _ =>
        cases hmore
        exact absurd rfl hzero
    · exact hdigits.readDigits_eq hrest

theorem fraction_of_readFraction {digits : List Char} (h : readFraction cs = .ok (digits, rest)) :
    ∃ text, cs = text ++ rest ∧ Fraction text digits := by
  rw [readFraction.eq_def] at h
  split at h
  · obtain ⟨⟨digits', rest'⟩, hdigits, h⟩ := bind_eq_ok.mp h
    cases h
    obtain ⟨rfl, hrun⟩ := isDigits_of_readDigits hdigits
    exact ⟨_, rfl, .point hrun⟩
  · cases h
    exact ⟨[], rfl, .none⟩

theorem Fraction.readFraction_eq {digits : List Char} (h : Fraction text digits)
    (hrest : ∀ c ∈ rest.head?, c.isDigit = false ∧ c ≠ '.') :
    readFraction (text ++ rest) = .ok (digits, rest) := by
  cases h with
  | none =>
    rw [List.nil_append, readFraction.eq_def]
    split
    · exact absurd rfl (hrest _ rfl).2
    · rfl
  | point hdigits =>
    rw [List.cons_append, readFraction, hdigits.readDigits_eq fun c hc => (hrest c hc).1]
    rfl

section Mark

variable {mark : Char}

theorem readExponent_minus (hmark : mark = 'e' ∨ mark = 'E') (cs : List Char) :
    readExponent (mark :: '-' :: cs) =
      (readDigits cs).map fun r => (mark :: '-' :: r.1, -digitsValue r.1, r.2) := by
  rcases hmark with rfl | rfl <;> cases h : readDigits cs <;> simp [readExponent, h] <;> rfl

theorem readExponent_plus (hmark : mark = 'e' ∨ mark = 'E') (cs : List Char) :
    readExponent (mark :: '+' :: cs) =
      (readDigits cs).map fun r => (mark :: '+' :: r.1, digitsValue r.1, r.2) := by
  rcases hmark with rfl | rfl <;> cases h : readDigits cs <;> simp [readExponent, h] <;> rfl

theorem readExponent_unsigned (hmark : mark = 'e' ∨ mark = 'E') (hminus : ∀ more, cs ≠ '-' :: more)
    (hplus : ∀ more, cs ≠ '+' :: more) :
    readExponent (mark :: cs) =
      (readDigits cs).map fun r => (mark :: r.1, digitsValue r.1, r.2) := by
  rcases hmark with rfl | rfl <;> cases h : readDigits cs <;>
    simp [readExponent, h] <;> rfl

end Mark

theorem exponent_of_readExponent {mark : List Char} {exponent : ℤ}
    (h : readExponent cs = .ok (mark, exponent, rest)) : cs = mark ++ rest ∧ Exponent mark exponent := by
  have hread : ∀ (sign : List Char) {more : List Char} {c : Char} {f : List Char → ℤ},
      (∀ {digits}, IsDigits digits → Exponent (c :: (sign ++ digits)) (f digits)) →
      ((readDigits more).map fun r => (c :: (sign ++ r.1), f r.1, r.2)) = .ok (mark, exponent, rest) →
      c :: (sign ++ more) = mark ++ rest ∧ Exponent mark exponent := by
    intro sign more c f hexponent h
    obtain ⟨⟨digits, rest'⟩, hdigits, h⟩ := map_eq_ok.mp h
    cases h
    obtain ⟨rfl, hrun⟩ := isDigits_of_readDigits hdigits
    exact ⟨by simp, hexponent hrun⟩
  cases cs with
  | nil =>
    cases h
    exact ⟨rfl, .none⟩
  | cons c more =>
    by_cases hmark : c = 'e' ∨ c = 'E'
    · by_cases hminus : ∃ more', more = '-' :: more'
      · obtain ⟨more', rfl⟩ := hminus
        rw [readExponent_minus hmark] at h
        exact hread ['-'] (.minus hmark) h
      · by_cases hplus : ∃ more', more = '+' :: more'
        · obtain ⟨more', rfl⟩ := hplus
          rw [readExponent_plus hmark] at h
          exact hread ['+'] (.plus hmark) h
        · rw [readExponent_unsigned hmark (not_exists.mp hminus) (not_exists.mp hplus)] at h
          exact hread [] (.unsigned hmark) h
    · rw [readExponent.eq_def] at h
      dsimp only at h
      rw [if_neg (by simpa using hmark)] at h
      cases h
      exact ⟨rfl, .none⟩

theorem Exponent.readExponent_eq {exponent : ℤ} (h : Exponent text exponent)
    (hrest : ∀ c ∈ rest.head?, continuesNumber c = false) :
    readExponent (text ++ rest) = .ok (text, exponent, rest) := by
  have hdigit : ∀ c ∈ rest.head?, c.isDigit = false := fun c hc => by
    have h := hrest c hc
    simp only [continuesNumber, Bool.or_eq_false_iff] at h
    exact h.1.1.1
  cases h with
  | none =>
    cases rest with
    | nil => rfl
    | cons c more =>
      have hc := hrest c rfl
      simp only [continuesNumber, Bool.or_eq_false_iff] at hc
      rw [List.nil_append, readExponent.eq_def]
      dsimp only
      rw [if_neg (by simp [hc])]
  | unsigned hmark hdigits =>
    rw [List.cons_append, readExponent_unsigned hmark (hdigits.append_ne_cons (by decide))
      (hdigits.append_ne_cons (by decide)), hdigits.readDigits_eq hdigit]
    rfl
  | plus hmark hdigits =>
    rw [List.cons_append, List.cons_append, readExponent_plus hmark, hdigits.readDigits_eq hdigit]
    rfl
  | minus hmark hdigits =>
    rw [List.cons_append, List.cons_append, readExponent_minus hmark, hdigits.readDigits_eq hdigit]
    rfl

theorem Exponent.not_digit {exponent : ℤ} (h : Exponent text exponent)
    (hrest : ∀ c ∈ rest.head?, continuesNumber c = false) :
    ∀ c ∈ (text ++ rest).head?, c.isDigit = false ∧ c ≠ '.' := by
  have hmark : ∀ {mark : Char}, mark = 'e' ∨ mark = 'E' → mark.isDigit = false ∧ mark ≠ '.' := by
    rintro mark (rfl | rfl) <;> decide
  cases h with
  | none =>
    intro c hc
    have hcontinues := hrest c hc
    simp only [continuesNumber, Bool.or_eq_false_iff, beq_eq_false_iff_ne] at hcontinues
    exact hcontinues.1.1
  | _ he =>
    rintro c ⟨⟩
    exact hmark he

theorem Fraction.not_digit {digits : List Char} (h : Fraction text digits)
    (hrest : ∀ c ∈ rest.head?, c.isDigit = false ∧ c ≠ '.') :
    ∀ c ∈ (text ++ rest).head?, c.isDigit = false := by
  cases h with
  | none => exact fun c hc => (hrest c hc).1
  | point =>
    rintro c ⟨⟩
    rfl

theorem unsigned_of_readNumber {negative : Bool} {j : Json NumberLiteral}
    (h : readNumber negative cs = .ok (j, rest)) :
    ∃ n text, cs = text ++ rest ∧ Unsigned negative n text ∧ j = .num n := by
  rw [readNumber] at h
  obtain ⟨⟨whole, rest₁⟩, hwhole, h₁⟩ := bind_eq_ok.mp h
  obtain ⟨⟨fraction, rest₂⟩, hfraction, h₂⟩ := bind_eq_ok.mp h₁
  obtain ⟨⟨mark, exponent, rest₃⟩, hexponent, h₃⟩ := bind_eq_ok.mp h₂
  cases h₃
  obtain ⟨rfl, hw⟩ := isWhole_of_readWhole hwhole
  obtain ⟨point, rfl, hf⟩ := fraction_of_readFraction hfraction
  obtain ⟨rfl, he⟩ := exponent_of_readExponent hexponent
  refine ⟨_, whole ++ (point ++ mark), by simp, .mk hw hf he, ?_⟩
  simp only [← hf.point_append, List.append_assoc]

theorem Unsigned.readNumber_eq {negative : Bool} {n : NumberLiteral} (h : Unsigned negative n text)
    (hrest : ∀ c ∈ rest.head?, continuesNumber c = false) :
    readNumber negative (text ++ rest) = .ok (.num n, rest) := by
  cases h with
  | mk hwhole hfraction hexponent =>
    have hmark := hexponent.not_digit hrest
    have hpoint := hfraction.not_digit hmark
    rw [readNumber, List.append_assoc, List.append_assoc]
    refine bind_eq_ok.mpr ⟨_, hwhole.readWhole_eq hpoint, ?_⟩
    refine bind_eq_ok.mpr ⟨_, hfraction.readFraction_eq hmark, ?_⟩
    refine bind_eq_ok.mpr ⟨_, hexponent.readExponent_eq hrest, ?_⟩
    simp only [← hfraction.point_append, List.append_assoc]
    rfl

/-! ## Values -/

/-- What is spelled by a piece of text. -/
inductive Part where
  | value (j : Json NumberLiteral)
  /-- A value with white space around it. -/
  | item (j : Json NumberLiteral)
  /-- The items of an array from some item to the closing bracket. -/
  | items (js : List (Json NumberLiteral))
  /-- The name and the value of a field, with white space around them. -/
  | field (f : String × Json NumberLiteral)
  /-- The fields of an object from some field to the closing brace. -/
  | fields (fs : List (String × Json NumberLiteral))

/-- The text spells the part inside `depth` arrays and objects. -/
inductive Spelled : (depth : ℕ) → Part → (text : List Char) → Prop where
  | nullWord {depth : ℕ} : Spelled depth (.value .null) ['n', 'u', 'l', 'l']
  | trueWord {depth : ℕ} : Spelled depth (.value (.bool true)) ['t', 'r', 'u', 'e']
  | falseWord {depth : ℕ} : Spelled depth (.value (.bool false)) ['f', 'a', 'l', 's', 'e']
  | string {depth : ℕ} {text value : List Char} : Quoted [] text value →
    Spelled depth (.value (.str (String.ofList value))) ('"' :: text)
  | unsigned {depth : ℕ} {n : NumberLiteral} {text : List Char} : Unsigned false n text →
    Spelled depth (.value (.num n)) text
  | negative {depth : ℕ} {n : NumberLiteral} {text : List Char} : Unsigned true n text →
    Spelled depth (.value (.num n)) ('-' :: text)
  | emptyArray {depth : ℕ} {ws : List Char} : depth < maxNesting → Blank ws →
    Spelled depth (.value (.arr [])) ('[' :: (ws ++ [']']))
  | array {depth : ℕ} {js : List (Json NumberLiteral)} {text : List Char} : depth < maxNesting →
    Spelled (depth + 1) (.items js) text → Spelled depth (.value (.arr js)) ('[' :: text)
  | emptyObject {depth : ℕ} {ws : List Char} : depth < maxNesting → Blank ws →
    Spelled depth (.value (.obj [])) ('\x7b' :: (ws ++ ['\x7d']))
  | object {depth : ℕ} {fs : List (String × Json NumberLiteral)} {text : List Char} :
    depth < maxNesting → Spelled (depth + 1) (.fields fs) text →
      Spelled depth (.value (.obj fs)) ('\x7b' :: text)
  | item {depth : ℕ} {j : Json NumberLiteral} {before text after : List Char} : Blank before →
    Blank after → Spelled depth (.value j) text → Spelled depth (.item j) (before ++ (text ++ after))
  | lastItem {depth : ℕ} {j : Json NumberLiteral} {text : List Char} : Spelled depth (.item j) text →
    Spelled depth (.items [j]) (text ++ [']'])
  | moreItems {depth : ℕ} {j : Json NumberLiteral} {js : List (Json NumberLiteral)}
    {text more : List Char} : Spelled depth (.item j) text → Spelled depth (.items js) more →
      Spelled depth (.items (j :: js)) (text ++ ',' :: more)
  | field {depth : ℕ} {j : Json NumberLiteral} {before name key between text : List Char} :
    Blank before → Blank between → Quoted [] name key → Spelled depth (.item j) text →
      Spelled depth (.field (String.ofList key, j)) (before ++ '"' :: (name ++ (between ++ ':' :: text)))
  | lastField {depth : ℕ} {f : String × Json NumberLiteral} {text : List Char} :
    Spelled depth (.field f) text → Spelled depth (.fields [f]) (text ++ ['\x7d'])
  | moreFields {depth : ℕ} {f : String × Json NumberLiteral} {fs : List (String × Json NumberLiteral)}
    {text more : List Char} : Spelled depth (.field f) text → Spelled depth (.fields fs) more →
      Spelled depth (.fields (f :: fs)) (text ++ ',' :: more)

section Blanks

variable {depth : ℕ}

theorem Blank.append {ws' : List Char} (h : Blank ws) (h' : Blank ws') : Blank (ws ++ ws') :=
  List.forall_mem_append.mpr ⟨h, h'⟩

/-- White space may stand in front of the part. -/
def Part.IsPadded : Part → Prop
  | value _ => False
  | _ => True

theorem Spelled.blank_append {part : Part} (hws : Blank ws) (hpart : part.IsPadded)
    (h : Spelled depth part text) : Spelled depth part (ws ++ text) := by
  induction h with
  | item hbefore hafter hvalue =>
    rw [← List.append_assoc]
    exact .item (hws.append hbefore) hafter hvalue
  | lastItem _ ih =>
    rw [← List.append_assoc]
    exact .lastItem (ih trivial)
  | moreItems _ hmore ih =>
    rw [← List.append_assoc]
    exact .moreItems (ih trivial) hmore
  | field hbefore hbetween hname hitem =>
    rw [← List.append_assoc]
    exact .field (hws.append hbefore) hbetween hname hitem
  | lastField _ ih =>
    rw [← List.append_assoc]
    exact .lastField (ih trivial)
  | moreFields _ hmore ih =>
    rw [← List.append_assoc]
    exact .moreFields (ih trivial) hmore
  | _ => exact hpart.elim

end Blanks

/-! ## What is read is spelled -/

section Sound

variable {fuel depth : ℕ} {j : Json NumberLiteral}

theorem text_of_readWord {value : Json NumberLiteral} {word : List Char}
    (h : readWord value word cs = .ok (j, rest)) : j = value ∧ cs = word ++ rest := by
  fun_induction readWord value word cs with
  | case1 =>
    cases h
    exact ⟨rfl, rfl⟩
  | case2 | case4 => cases h
  | case3 w ws c cs hc ih =>
    obtain ⟨rfl, rfl⟩ := ih h
    rw [beq_iff_eq.mp hc]
    exact ⟨rfl, rfl⟩

/-- What the reading of a value, of items and of fields takes off the front of a text, with so much fuel. -/
structure Sound (fuel : ℕ) : Prop where
  value {depth : ℕ} {cs rest : List Char} {j : Json NumberLiteral} :
    readValue fuel depth cs = .ok (j, rest) →
      ∃ before text, cs = before ++ (text ++ rest) ∧ Blank before ∧ Spelled depth (.value j) text
  items {depth : ℕ} {acc : List (Json NumberLiteral)} {cs rest : List Char} {j : Json NumberLiteral} :
    readItems fuel depth acc cs = .ok (j, rest) →
      ∃ js text, cs = text ++ rest ∧ Spelled depth (.items js) text ∧ j = .arr (acc.reverse ++ js)
  fields {depth : ℕ} {acc : List (String × Json NumberLiteral)} {cs rest : List Char}
    {j : Json NumberLiteral} : readFields fuel depth acc cs = .ok (j, rest) →
      ∃ fs text, cs = text ++ rest ∧ Spelled depth (.fields fs) text ∧ j = .obj (acc.reverse ++ fs)

theorem Sound.readValue (hs : Sound fuel) (h : readValue (fuel + 1) depth cs = .ok (j, rest)) :
    ∃ before text, cs = before ++ (text ++ rest) ∧ Blank before ∧ Spelled depth (.value j) text := by
  obtain ⟨before, hbefore, hcs⟩ := exists_blank_skipSpace cs
  suffices hvisible : ∃ text, skipSpace cs = text ++ rest ∧ Spelled depth (.value j) text by
    obtain ⟨text, htext, hspelled⟩ := hvisible
    exact ⟨before, text, htext ▸ hcs, hbefore, hspelled⟩
  rw [Json.readValue] at h
  generalize skipSpace cs = visible at h ⊢
  split at h
  · cases h
  · rename_i more
    obtain ⟨ws, hws, hspace⟩ := exists_blank_skipSpace more
    split at h
    · cases h
    · rename_i hdepth
      have hdepth := Nat.lt_of_not_le hdepth
      split at h
      · rename_i hend
        cases h
        rw [hend] at hspace
        exact ⟨_, by rw [hspace]; simp, .emptyObject hdepth hws⟩
      · obtain ⟨fs, text, htext, hfields, rfl⟩ := hs.fields h
        rw [htext] at hspace
        exact ⟨_, by rw [hspace]; simp, .object hdepth (hfields.blank_append hws trivial)⟩
  · rename_i more
    obtain ⟨ws, hws, hspace⟩ := exists_blank_skipSpace more
    split at h
    · cases h
    · rename_i hdepth
      have hdepth := Nat.lt_of_not_le hdepth
      split at h
      · rename_i hend
        cases h
        rw [hend] at hspace
        exact ⟨_, by rw [hspace]; simp, .emptyArray hdepth hws⟩
      · obtain ⟨js, text, htext, hitems, rfl⟩ := hs.items h
        rw [htext] at hspace
        exact ⟨_, by rw [hspace]; simp, .array hdepth (hitems.blank_append hws trivial)⟩
  · obtain ⟨⟨s, rest'⟩, hstring, heq⟩ := map_eq_ok.mp h
    cases heq
    obtain ⟨text, value, rfl, hquoted, rfl⟩ := quoted_of_readString hstring
    exact ⟨_, rfl, .string hquoted⟩
  · obtain ⟨rfl, rfl⟩ := text_of_readWord h
    exact ⟨_, rfl, .trueWord⟩
  · obtain ⟨rfl, rfl⟩ := text_of_readWord h
    exact ⟨_, rfl, .falseWord⟩
  · obtain ⟨rfl, rfl⟩ := text_of_readWord h
    exact ⟨_, rfl, .nullWord⟩
  · obtain ⟨n, text, rfl, hnumber, rfl⟩ := unsigned_of_readNumber h
    exact ⟨_, rfl, .negative hnumber⟩
  · split at h
    · obtain ⟨n, text, htext, hnumber, rfl⟩ := unsigned_of_readNumber h
      exact ⟨text, htext, .unsigned hnumber⟩
    · cases h

theorem Sound.readItems {acc : List (Json NumberLiteral)} (hs : Sound fuel)
    (h : readItems (fuel + 1) depth acc cs = .ok (j, rest)) :
    ∃ js text, cs = text ++ rest ∧ Spelled depth (.items js) text ∧ j = .arr (acc.reverse ++ js) := by
  rw [Json.readItems] at h
  obtain ⟨⟨j', rest'⟩, hread, h⟩ := bind_eq_ok.mp h
  obtain ⟨before, text, hcs, hbefore, hvalue⟩ := hs.value hread
  obtain ⟨after, hafter, hrest⟩ := exists_blank_skipSpace rest'
  have hitem : Spelled depth (.item j') (before ++ (text ++ after)) := .item hbefore hafter hvalue
  dsimp only at h
  split at h
  · cases h
  · rename_i more hmore
    cases h
    rw [hmore] at hrest
    refine ⟨[j'], _, ?_, .lastItem hitem, by simp⟩
    rw [hcs, hrest]
    simp
  · rename_i more hmore
    rw [hmore] at hrest
    obtain ⟨js, text', hmore', hitems, rfl⟩ := hs.items h
    refine ⟨j' :: js, _, ?_, .moreItems hitem hitems, by simp⟩
    rw [hcs, hrest, hmore']
    simp
  · cases h

theorem Sound.readFields {acc : List (String × Json NumberLiteral)} (hs : Sound fuel)
    (h : readFields (fuel + 1) depth acc cs = .ok (j, rest)) :
    ∃ fs text, cs = text ++ rest ∧ Spelled depth (.fields fs) text ∧ j = .obj (acc.reverse ++ fs) := by
  obtain ⟨start, hstart, hcs⟩ := exists_blank_skipSpace cs
  rw [Json.readFields] at h
  split at h
  · cases h
  · rename_i more hmore
    rw [hmore] at hcs
    obtain ⟨⟨s, rest₁⟩, hname, h⟩ := bind_eq_ok.mp h
    obtain ⟨name, key, hmore', hquoted, rfl⟩ := quoted_of_readString hname
    obtain ⟨between, hbetween, hrest₁⟩ := exists_blank_skipSpace rest₁
    dsimp only at h
    split at h
    · cases h
    · rename_i more₁ hcolon
      rw [hcolon] at hrest₁
      obtain ⟨⟨j', rest₂⟩, hread, h⟩ := bind_eq_ok.mp h
      obtain ⟨before, text, hmore₁, hbefore, hvalue⟩ := hs.value hread
      obtain ⟨after, hafter, hrest₂⟩ := exists_blank_skipSpace rest₂
      have hfield : Spelled depth (.field (String.ofList key, j'))
          (start ++ '"' :: (name ++ (between ++ ':' :: (before ++ (text ++ after))))) :=
        .field hstart hbetween hquoted (.item hbefore hafter hvalue)
      dsimp only at h
      split at h
      · cases h
      · rename_i more₂ hend
        cases h
        rw [hend] at hrest₂
        refine ⟨[(String.ofList key, j')], _, ?_, .lastField hfield, by simp⟩
        rw [hcs, hmore', hrest₁, hmore₁, hrest₂]
        simp
      · rename_i more₂ hcomma
        rw [hcomma] at hrest₂
        obtain ⟨fs, text', hmore₂, hfields, rfl⟩ := hs.fields h
        refine ⟨(String.ofList key, j') :: fs, _, ?_, .moreFields hfield hfields, by simp⟩
        rw [hcs, hmore', hrest₁, hmore₁, hrest₂, hmore₂]
        simp
      · cases h
    · cases h
  · cases h

theorem sound (fuel : ℕ) : Sound fuel := by
  induction fuel with
  | zero => exact ⟨nofun, nofun, nofun⟩
  | succ fuel ih => exact ⟨ih.readValue, ih.readItems, ih.readFields⟩

end Sound

/-! ## What is spelled is read -/

section Complete

variable {fuel depth : ℕ} {j : Json NumberLiteral}

theorem skipSpace_skipSpace (cs : List Char) : skipSpace (skipSpace cs) = skipSpace cs :=
  List.dropWhile_idempotent _ cs

theorem readValue_skipSpace (fuel depth : ℕ) (cs : List Char) :
    readValue fuel depth (skipSpace cs) = readValue fuel depth cs := by
  cases fuel with
  | zero => rfl
  | succ fuel => rw [readValue, readValue, skipSpace_skipSpace]

theorem readItems_skipSpace (fuel depth : ℕ) (acc : List (Json NumberLiteral)) (cs : List Char) :
    readItems fuel depth acc (skipSpace cs) = readItems fuel depth acc cs := by
  cases fuel with
  | zero => rfl
  | succ fuel => rw [readItems, readItems, readValue_skipSpace]

theorem readFields_skipSpace (fuel depth : ℕ) (acc : List (String × Json NumberLiteral))
    (cs : List Char) : readFields fuel depth acc (skipSpace cs) = readFields fuel depth acc cs := by
  cases fuel with
  | zero => rfl
  | succ fuel => rw [readFields, readFields, skipSpace_skipSpace]

theorem readWord_eq (value : Json NumberLiteral) (word rest : List Char) :
    readWord value word (word ++ rest) = .ok (value, rest) := by
  induction word with
  | nil => rfl
  | cons w ws ih =>
    rw [List.cons_append, readWord, if_pos (beq_self_eq_true w)]
    exact ih

theorem Unsigned.starts {negative : Bool} {n : NumberLiteral} (h : Unsigned negative n text) :
    ∃ c more, text = c :: more ∧ c.isDigit = true := by
  obtain ⟨hwhole, -, -⟩ := h
  rename_i whole _ _ _ _
  rcases hwhole with rfl | ⟨⟨hne, hdigits⟩, -⟩
  · exact ⟨'0', _, rfl, rfl⟩
  · cases whole with
    | nil => exact absurd rfl hne
    | cons c more => exact ⟨c, _, rfl, hdigits c (List.mem_cons_self ..)⟩

theorem isSpace_of_isDigit {c : Char} (h : c.isDigit = true) : isSpace c = false := by
  simp only [isSpace, Bool.or_eq_false_iff, beq_eq_false_iff_ne]
  refine ⟨⟨⟨?_, ?_⟩, ?_⟩, ?_⟩ <;> rintro rfl <;> cases h

/-- The first visible character of a part is no closing bracket. -/
theorem Spelled.starts {part : Part} (h : Spelled depth part text) :
    ∃ ws c more, text = ws ++ c :: more ∧ Blank ws ∧ isSpace c = false ∧ c ≠ ']' ∧ c ≠ '\x7d' := by
  induction h with
  | unsigned hnumber =>
    obtain ⟨c, more, rfl, hc⟩ := hnumber.starts
    refine ⟨[], c, more, rfl, blank_nil, isSpace_of_isDigit hc, ?_, ?_⟩ <;>
      · rintro rfl
        cases hc
  | @item _ _ before _ after hbefore _ _ ih =>
    obtain ⟨ws, c, more, rfl, hws, hc⟩ := ih
    exact ⟨before ++ ws, c, more ++ after, by simp, hbefore.append hws, hc⟩
  | field hbefore => exact ⟨_, _, _, rfl, hbefore, by decide⟩
  | lastItem _ ih | moreItems _ _ ih | lastField _ ih | moreFields _ _ ih =>
    obtain ⟨ws, c, more, rfl, hws, hc⟩ := ih
    exact ⟨ws, c, more ++ _, List.append_assoc .., hws, hc⟩
  | _ => exact ⟨[], _, _, rfl, blank_nil, by decide⟩

/-- What follows the opening bracket of an array or an object that is not empty. -/
theorem Spelled.skipSpace_ne {part : Part} (h : Spelled depth part text) (rest more : List Char) :
    skipSpace (text ++ rest) ≠ ']' :: more ∧ skipSpace (text ++ rest) ≠ '\x7d' :: more := by
  obtain ⟨ws, c, tail, rfl, hws, hspace, hbracket, hbrace⟩ := h.starts
  rw [List.append_assoc, List.cons_append, hws.skipSpace_eq hspace]
  exact ⟨fun heq => hbracket (List.cons.inj heq).1, fun heq => hbrace (List.cons.inj heq).1⟩

/-- A separator or a closing bracket. -/
def isMark (c : Char) : Bool := c == ',' || c == ']' || c == '\x7d'

theorem not_continues_of_isSpace {c : Char} (h : isSpace c = true) : continuesNumber c = false := by
  simp only [isSpace, Bool.or_eq_true, beq_iff_eq] at h
  rcases h with ((rfl | rfl) | rfl) | rfl <;> decide

theorem classes_of_isMark {c : Char} (h : isMark c = true) :
    isSpace c = false ∧ continuesNumber c = false := by
  simp only [isMark, Bool.or_eq_true, beq_iff_eq] at h
  rcases h with (rfl | rfl) | rfl <;> decide

/-- White space in front of what does not go on with a number does not go on with it either. -/
theorem Blank.not_continues (h : Blank ws) (hrest : ∀ c ∈ rest.head?, continuesNumber c = false) :
    ∀ c ∈ (ws ++ rest).head?, continuesNumber c = false := by
  cases ws with
  | nil => exact hrest
  | cons b ws =>
    rintro c ⟨⟩
    exact not_continues_of_isSpace (h _ (List.mem_cons_self ..))

/-- With fuel for two steps a character, the text of a part is read as the part, whatever comes before and
after. -/
def Part.Reads (depth : ℕ) (text : List Char) : Part → Prop
  | value j => ∀ fuel ws rest, 2 * text.length ≤ fuel → Blank ws →
    (j.isNumber = true → ∀ c ∈ rest.head?, continuesNumber c = false) →
      readValue fuel depth (ws ++ (text ++ rest)) = .ok (j, rest)
  | item j => ∀ fuel c rest, 2 * text.length ≤ fuel → isMark c = true →
    ∃ rest', readValue fuel depth (text ++ c :: rest) = .ok (j, rest') ∧ skipSpace rest' = c :: rest
  | items js => ∀ fuel acc rest, 2 * text.length ≤ fuel →
    readItems fuel depth acc (text ++ rest) = .ok (.arr (acc.reverse ++ js), rest)
  | field f => ∀ fuel acc c rest result, 2 * text.length ≤ fuel →
    (c = '\x7d' ∧ result = (.obj (f :: acc).reverse, rest) ∨
      c = ',' ∧ readFields fuel depth (f :: acc) rest = .ok result) →
        readFields (fuel + 1) depth acc (text ++ c :: rest) = .ok result
  | fields fs => ∀ fuel acc rest, 2 * text.length ≤ fuel →
    readFields fuel depth acc (text ++ rest) = .ok (.obj (acc.reverse ++ fs), rest)

theorem Part.reads_value {c : Char} {more : List Char} (hc : isSpace c = false)
    (h : ∀ fuel rest, 2 * more.length ≤ fuel →
      (j.isNumber = true → ∀ c ∈ rest.head?, continuesNumber c = false) →
        readValue (fuel + 1) depth (c :: (more ++ rest)) = .ok (j, rest)) :
    (Part.value j).Reads depth (c :: more) := by
  intro fuel ws rest hfuel hws hrest
  rw [List.length_cons] at hfuel
  obtain ⟨fuel, rfl⟩ : ∃ fuel', fuel = fuel' + 1 := ⟨fuel - 1, by omega⟩
  rw [← readValue_skipSpace, List.cons_append, hws.skipSpace_eq hc]
  exact h fuel rest (by omega) hrest

theorem Unsigned.readValue_eq {fuel : ℕ} {n : NumberLiteral} (h : Unsigned false n text)
    (hrest : ∀ c ∈ rest.head?, continuesNumber c = false) :
    readValue (fuel + 1) depth (text ++ rest) = .ok (.num n, rest) := by
  have hread := h.readNumber_eq hrest
  obtain ⟨c, more, rfl, hc⟩ := h.starts
  rw [List.cons_append] at hread ⊢
  rw [readValue, skipSpace_cons (isSpace_of_isDigit hc)]
  split
  case h_9 heq =>
    cases heq
    rw [if_pos hc]
    exact hread
  case h_1 heq => cases heq
  all_goals
    rename_i heq
    cases heq
    cases hc

theorem readValue_bracket {fuel depth : ℕ} (hdepth : depth < maxNesting) (cs : List Char) :
    readValue (fuel + 1) depth ('[' :: cs) =
      match skipSpace cs with
      | ']' :: rest => .ok (.arr [], rest)
      | rest => readItems fuel (depth + 1) [] rest := by
  rw [readValue, skipSpace_cons (by decide)]
  exact if_neg (Nat.not_le.mpr hdepth)

theorem readValue_brace {fuel depth : ℕ} (hdepth : depth < maxNesting) (cs : List Char) :
    readValue (fuel + 1) depth ('\x7b' :: cs) =
      match skipSpace cs with
      | '\x7d' :: rest => .ok (.obj [], rest)
      | rest => readFields fuel (depth + 1) [] rest := by
  rw [readValue, skipSpace_cons (by decide)]
  exact if_neg (Nat.not_le.mpr hdepth)

theorem Spelled.reads {part : Part} (h : Spelled depth part text) : part.Reads depth text := by
  induction h with
  | nullWord | trueWord | falseWord =>
    refine Part.reads_value (by decide) fun fuel rest _ _ => ?_
    rw [readValue, skipSpace_cons (by decide)]
    exact readWord_eq _ _ _
  | string hquoted =>
    refine Part.reads_value (by decide) fun fuel rest _ _ => ?_
    rw [readValue, skipSpace_cons (by decide)]
    exact map_eq_ok.mpr ⟨_, hquoted.readString_eq [] rest, rfl⟩
  | unsigned hnumber =>
    obtain ⟨c, more, rfl, hc⟩ := hnumber.starts
    exact Part.reads_value (isSpace_of_isDigit hc) fun fuel rest _ hrest =>
      hnumber.readValue_eq (hrest rfl)
  | negative hnumber =>
    refine Part.reads_value (by decide) fun fuel rest _ hrest => ?_
    rw [readValue, skipSpace_cons (by decide)]
    exact hnumber.readNumber_eq (hrest rfl)
  | emptyArray hdepth hws =>
    refine Part.reads_value (by decide) fun fuel rest _ _ => ?_
    rw [readValue_bracket hdepth, List.append_assoc, List.singleton_append, hws.skipSpace_eq (by decide)]
    rfl
  | array hdepth hitems ih =>
    refine Part.reads_value (by decide) fun fuel rest hfuel _ => ?_
    rw [readValue_bracket hdepth]
    split
    · rename_i hskip
      exact absurd hskip (hitems.skipSpace_ne _ _).1
    · rw [readItems_skipSpace]
      exact ih fuel [] rest hfuel
  | emptyObject hdepth hws =>
    refine Part.reads_value (by decide) fun fuel rest _ _ => ?_
    rw [readValue_brace hdepth, List.append_assoc, List.singleton_append, hws.skipSpace_eq (by decide)]
    rfl
  | object hdepth hfields ih =>
    refine Part.reads_value (by decide) fun fuel rest hfuel _ => ?_
    rw [readValue_brace hdepth]
    split
    · rename_i hskip
      exact absurd hskip (hfields.skipSpace_ne _ _).2
    · rw [readFields_skipSpace]
      exact ih fuel [] rest hfuel
  | item hbefore hafter hvalue ih =>
    intro fuel c rest hfuel hmark
    obtain ⟨hspace, hcontinues⟩ := classes_of_isMark hmark
    simp only [List.length_append] at hfuel
    rw [List.append_assoc, List.append_assoc]
    refine ⟨_, ih fuel _ _ (by omega) hbefore fun _ => hafter.not_continues ?_,
      hafter.skipSpace_eq hspace rest⟩
    rintro _ ⟨⟩
    exact hcontinues
  | lastItem hitem ih =>
    intro fuel acc rest hfuel
    simp only [List.length_append, List.length_singleton] at hfuel
    obtain ⟨fuel, rfl⟩ : ∃ fuel', fuel = fuel' + 1 := ⟨fuel - 1, by omega⟩
    obtain ⟨rest', hread, hskip⟩ := ih fuel ']' rest (by omega) rfl
    rw [List.append_assoc, List.singleton_append, readItems]
    refine bind_eq_ok.mpr ⟨_, hread, ?_⟩
    dsimp only
    rw [hskip]
    exact congrArg (fun js => Except.ok (Json.arr js, rest)) List.reverse_cons
  | moreItems hitem hitems ih ih' =>
    intro fuel acc rest hfuel
    simp only [List.length_append, List.length_cons] at hfuel
    obtain ⟨fuel, rfl⟩ : ∃ fuel', fuel = fuel' + 1 := ⟨fuel - 1, by omega⟩
    obtain ⟨rest', hread, hskip⟩ := ih fuel ',' _ (by omega) rfl
    rw [List.append_assoc, List.cons_append, readItems]
    refine bind_eq_ok.mpr ⟨_, hread, ?_⟩
    dsimp only
    rw [hskip]
    refine (ih' fuel _ rest (by omega)).trans ?_
    simp
  | field hbefore hbetween hname hitem ih =>
    intro fuel acc c rest result hfuel hresult
    simp only [List.length_append, List.length_cons] at hfuel
    have hmark : isMark c = true := by rcases hresult with ⟨rfl, -⟩ | ⟨rfl, -⟩ <;> rfl
    obtain ⟨rest', hread, hskip⟩ := ih fuel c rest (by omega) hmark
    rw [List.append_assoc, List.cons_append, List.append_assoc, List.append_assoc, List.cons_append,
      readFields, hbefore.skipSpace_eq (by decide)]
    refine bind_eq_ok.mpr ⟨_, hname.readString_eq [] _, ?_⟩
    dsimp only
    rw [hbetween.skipSpace_eq (by decide)]
    refine bind_eq_ok.mpr ⟨_, hread, ?_⟩
    dsimp only
    rw [hskip]
    rcases hresult with ⟨rfl, rfl⟩ | ⟨rfl, hmore⟩
    · rfl
    · exact hmore
  | lastField hfield ih =>
    intro fuel acc rest hfuel
    simp only [List.length_append, List.length_singleton] at hfuel
    obtain ⟨fuel, rfl⟩ : ∃ fuel', fuel = fuel' + 1 := ⟨fuel - 1, by omega⟩
    rw [List.append_assoc, List.singleton_append]
    exact ih fuel acc _ rest _ (by omega) (Or.inl ⟨rfl, by simp⟩)
  | moreFields hfield hfields ih ih' =>
    intro fuel acc rest hfuel
    simp only [List.length_append, List.length_cons] at hfuel
    obtain ⟨fuel, rfl⟩ : ∃ fuel', fuel = fuel' + 1 := ⟨fuel - 1, by omega⟩
    rw [List.append_assoc, List.cons_append]
    refine ih fuel acc _ _ _ (by omega) (Or.inr ⟨rfl, ?_⟩)
    rw [ih' fuel _ rest (by omega)]
    simp

end Complete

variable {j : Json NumberLiteral}

/-- What is read off the front of a text spells the value that is returned. -/
theorem spelled_of_read (h : read cs = .ok (j, rest)) :
    ∃ before text, cs = before ++ (text ++ rest) ∧ Blank before ∧ Spelled 0 (.value j) text :=
  (sound _).value h

/-- A text that starts with a spelling of a value is read as the value and the rest. -/
theorem Spelled.read_eq (h : Spelled 0 (.value j) text) {before : List Char} (hbefore : Blank before)
    (hrest : j.isNumber = true → ∀ c ∈ rest.head?, continuesNumber c = false) :
    read (before ++ (text ++ rest)) = .ok (j, rest) := by
  have hreads : (Part.value j).Reads 0 text := h.reads
  refine hreads _ before rest ?_ hbefore hrest
  simp only [List.length_append]
  omega

end Json

end Fluxion
