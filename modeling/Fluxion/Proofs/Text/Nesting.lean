import Mathlib.Tactic

/-!
# Texts with parentheses

A text is *closed* for some characters when its parentheses match and none of these characters occurs
outside of all parentheses. A closed text can be told apart from what follows it: where two closed texts
are each followed by a separator, the texts and the remainders agree if the wholes do, and a list of
closed texts can be read off from the texts joined by a separator.
-/

namespace Fluxion

/-- How many parentheses are open after reading some characters with `depth` of them open; `none` if
one is closed that is not open or if one of the characters `bad` stands outside of all of them. -/
def nesting (bad : List Char) : (depth : ℕ) → List Char → Option ℕ
  | depth, [] => some depth
  | depth, '(' :: cs => nesting bad (depth + 1) cs
  | 0, ')' :: _ => none
  | depth + 1, ')' :: cs => nesting bad depth cs
  | 0, c :: cs => if c ∈ bad then none else nesting bad 0 cs
  | depth + 1, _ :: cs => nesting bad (depth + 1) cs

/-- The parentheses match, and the characters `bad` occur inside of parentheses only. -/
def Closed (bad : List Char) (s : String) : Prop := nesting bad 0 s.toList = some 0

theorem nesting_append (bad : List Char) (depth : ℕ) (xs ys : List Char) :
    nesting bad depth (xs ++ ys) = (nesting bad depth xs).bind fun d => nesting bad d ys := by
  fun_induction nesting bad depth xs with
  | case1 => rfl
  | case2 depth cs ih => exact ih
  | case3 => rfl
  | case4 depth cs ih => exact ih
  | case5 c cs hopen hclose hc =>
    rw [List.cons_append, nesting, if_pos hc]
    · rfl
    · exact hopen
    · exact hclose
  | case6 c cs hopen hclose hc ih =>
    rw [List.cons_append, nesting, if_neg hc, ih]
    · exact hopen
    · exact hclose
  | case7 depth c cs hopen hclose ih =>
    rw [List.cons_append, nesting, ih]
    · exact hopen
    · exact hclose

/-- Inside of parentheses every character is allowed. -/
theorem nesting_deeper {bad bad' : List Char} {depth d : ℕ} {cs : List Char}
    (h : nesting bad depth cs = some d) : nesting bad' (depth + 1) cs = some (d + 1) := by
  fun_induction nesting bad depth cs with
  | case1 depth => cases h; rfl
  | case2 depth cs ih => exact ih h
  | case3 => cases h
  | case4 depth cs ih => exact ih h
  | case5 c cs hopen hclose hc => cases h
  | case6 c cs hopen hclose hc ih =>
    rw [nesting]
    · exact ih h
    · exact hopen
    · exact hclose
  | case7 depth c cs hopen hclose ih =>
    rw [nesting]
    · exact ih h
    · exact hopen
    · exact hclose

theorem nesting_mono {bad bad' : List Char} (hsub : bad' ⊆ bad) {depth d : ℕ} {cs : List Char}
    (h : nesting bad depth cs = some d) : nesting bad' depth cs = some d := by
  fun_induction nesting bad depth cs with
  | case1 depth => cases h; rfl
  | case2 depth cs ih => exact ih h
  | case3 => cases h
  | case4 depth cs ih => exact ih h
  | case5 c cs hopen hclose hc => cases h
  | case6 c cs hopen hclose hc ih =>
    rw [nesting, if_neg fun hc' => hc (hsub hc')]
    · exact ih h
    · exact hopen
    · exact hclose
  | case7 depth c cs hopen hclose ih =>
    rw [nesting]
    · exact ih h
    · exact hopen
    · exact hclose

namespace Closed

variable {bad bad' : List Char} {s t : String}

theorem mono (h : Closed bad s) (hsub : bad' ⊆ bad) : Closed bad' s := nesting_mono hsub h

theorem append (hs : Closed bad s) (ht : Closed bad t) : Closed bad (s ++ t) := by
  rw [Closed, String.toList_append, nesting_append, hs]
  exact ht

/-- A text without parentheses and without the characters in question is closed. -/
theorem of_forall (h : ∀ c ∈ s.toList, c ≠ '(' ∧ c ≠ ')' ∧ c ∉ bad) : Closed bad s := by
  rw [Closed]
  generalize s.toList = cs at h
  induction cs with
  | nil => rfl
  | cons c cs ih =>
    obtain ⟨hopen, hclose, hc⟩ := h c (List.mem_cons_self ..)
    rw [nesting, if_neg hc]
    · exact ih fun c' hc' => h c' (List.mem_cons_of_mem _ hc')
    · exact hopen
    · exact hclose

/-- Parentheses close whatever is closed for no character at all. -/
theorem parenthesize (h : Closed bad s) : Closed bad' ("(" ++ s ++ ")") := by
  have hinner : nesting bad' 1 s.toList = some 1 := nesting_deeper h
  rw [Closed, String.toList_append, String.toList_append, nesting_append, nesting_append]
  show ((nesting bad' 1 s.toList).bind fun d => nesting bad' d ")".toList) = some 0
  rw [hinner]
  rfl

/-- Texts joined by a separator that is itself closed. -/
theorem intercalate {sep : String} (hsep : Closed bad sep) {ps : List String}
    (hps : ∀ p ∈ ps, Closed bad p) : Closed bad (sep.intercalate ps) := by
  induction ps with
  | nil => rw [String.intercalate_nil]; rfl
  | cons p ps ih =>
    have hp := hps p (List.mem_cons_self ..)
    have htail := ih fun q hq => hps q (List.mem_cons_of_mem _ hq)
    cases ps with
    | nil => rwa [String.intercalate_singleton]
    | cons q ps =>
      rw [String.intercalate_cons_cons]
      exact (hp.append hsep).append htail

end Closed

/-! ## Reading pieces off -/

/-- Texts that satisfy `P` can be told apart from what follows them: none of them begins with another one
and the separator after it. -/
def Separated (c : Char) (P : String → Prop) : Prop :=
  ∀ p q : String, P p → P q → ∀ r : List Char, q.toList ≠ p.toList ++ c :: r

/-- A closed text is separated from the rest by each of the characters that it is closed for. -/
theorem Closed.separated {bad : List Char} {c : Char} (hc : c ∈ bad) (hopen : c ≠ '(')
    (hclose : c ≠ ')') : Separated c (Closed bad) := by
  intro p q hp hq r h
  rw [Closed, h, nesting_append, hp, Option.bind_some, nesting, if_pos hc] at hq
  · cases hq
  · exact hopen
  · exact hclose

namespace Separated

variable {c : Char} {P : String → Prop} {sep : String} (hP : Separated c P) (hsep : sep.toList = [c])

include hP hsep

/-- Such a text does not begin with another one and a separator. -/
theorem ne_append {p q r : String} (hp : P p) (hq : P q) : q ≠ p ++ sep ++ r := by
  intro h
  refine hP p q hp hq r.toList ?_
  rw [h, String.toList_append, String.toList_append, hsep, List.append_assoc,
    List.singleton_append]

/-- Such a text in front of a separator is determined by the whole. -/
theorem append_inj {p p' q q' : String} (hp : P p) (hp' : P p')
    (h : p ++ sep ++ q = p' ++ sep ++ q') : p = p' ∧ q = q' := by
  -- the longer of the two beginnings would contain the separator after the shorter one
  have hno : ∀ {a b : String} {r r' m : List Char}, P a → P b → b.toList = a.toList ++ m →
      c :: r = m ++ c :: r' → m = [] := by
    intro a b r r' m ha hb hm hr
    cases m with
    | nil => rfl
    | cons x m =>
      obtain ⟨rfl, -⟩ := List.cons.injEq .. |>.mp hr
      exact absurd hm (hP a b ha hb m)
  have hlist := congrArg String.toList h
  simp only [String.toList_append, hsep, List.append_assoc, List.singleton_append] at hlist
  have hpp : p = p' := by
    rcases List.append_eq_append_iff.mp hlist with ⟨m, hm, hr⟩ | ⟨m, hm, hr⟩
    · rw [hno hp hp' hm hr, List.append_nil] at hm
      exact (String.toList_inj.mp hm).symm
    · rw [hno hp' hp hm hr, List.append_nil] at hm
      exact String.toList_inj.mp hm
  subst hpp
  exact ⟨rfl, String.toList_inj.mp (by simpa using hlist)⟩

/-- Such texts, unless they are empty, can be read off from the texts joined by the separator. -/
theorem intercalate_injective {ps qs : List String} (hps : ∀ p ∈ ps, P p ∧ p ≠ "")
    (hqs : ∀ q ∈ qs, P q ∧ q ≠ "") (h : sep.intercalate ps = sep.intercalate qs) : ps = qs := by
  have hne : ∀ (a : String) (as : List String), a ≠ "" → "" ≠ sep.intercalate (a :: as) := by
    intro a as ha hempty
    have hlen := congrArg String.toList hempty
    cases as with
    | nil => exact ha (by simpa using hempty.symm)
    | cons b as => simp [hsep] at hlen
  induction ps generalizing qs with
  | nil =>
    cases qs with
    | nil => rfl
    | cons q qs => exact absurd (by simpa using h) (hne q qs (hqs q (List.mem_cons_self ..)).2)
  | cons p ps ih =>
    have hp := hps p (List.mem_cons_self ..)
    cases qs with
    | nil => exact absurd (by simpa using h.symm) (hne p ps hp.2)
    | cons q qs =>
      have hq := hqs q (List.mem_cons_self ..)
      cases ps with
      | nil =>
        cases qs with
        | nil => simpa using h
        | cons q' qs =>
          rw [String.intercalate_singleton, String.intercalate_cons_cons] at h
          exact absurd h (hP.ne_append hsep hq.1 hp.1)
      | cons p' ps =>
        cases qs with
        | nil =>
          rw [String.intercalate_singleton, String.intercalate_cons_cons] at h
          exact absurd h.symm (hP.ne_append hsep hp.1 hq.1)
        | cons q' qs =>
          rw [String.intercalate_cons_cons, String.intercalate_cons_cons] at h
          obtain ⟨rfl, htail⟩ := hP.append_inj hsep hp.1 hq.1 h
          rw [ih (fun a ha => hps a (List.mem_cons_of_mem _ ha))
            (fun a ha => hqs a (List.mem_cons_of_mem _ ha)) htail]

end Separated

/-! ## Signs

A plus sign is part of a number where it opens the text or follows `^`. Anywhere else it can separate
texts, as long as none of them ends in `^`.
-/

/-- The characters without the plus signs that directly follow `^`; `before` stands in front of them. -/
def unsigned (before : Char) : List Char → List Char
  | [] => []
  | c :: cs => if before = '^' ∧ c = '+' then unsigned c cs else c :: unsigned c cs

theorem unsigned_append (before : Char) (xs ys : List Char) :
    unsigned before (xs ++ ys) = unsigned before xs ++ unsigned (xs.getLastD before) ys := by
  induction xs generalizing before with
  | nil => rfl
  | cons c xs ih =>
    rw [List.cons_append, unsigned, unsigned, ih, List.getLastD_cons]
    split
    · rfl
    · rfl

/-- What follows a character that is not a sign does not depend on what stands before it. -/
theorem unsigned_append_cons (before : Char) (xs ys : List Char) {c : Char} (hc : c ≠ '+') :
    unsigned before (xs ++ c :: ys) = unsigned before xs ++ c :: unsigned c ys := by
  rw [unsigned_append, unsigned, if_neg fun h => hc h.2]

theorem getLastD_append_cons (before : Char) (xs ys : List Char) (c : Char) :
    (xs ++ c :: ys).getLastD before = ys.getLastD c := by
  rw [List.getLastD_eq_getLast?, List.getLast?_append, List.getLast?_cons, Option.some_or,
    Option.getD_some, List.getLastD_eq_getLast?]

/-- Parentheses do not depend on signs. -/
theorem nesting_unsigned {bad : List Char} {depth d : ℕ} {cs : List Char}
    (h : nesting bad depth cs = some d) (before : Char) :
    nesting bad depth (unsigned before cs) = some d := by
  fun_induction nesting bad depth cs generalizing before with
  | case1 depth => exact h
  | case2 depth cs ih =>
    rw [unsigned, if_neg (by simp)]
    exact ih h _
  | case3 => cases h
  | case4 depth cs ih =>
    rw [unsigned, if_neg (by simp)]
    exact ih h _
  | case5 c cs hopen hclose hc => cases h
  | case6 c cs hopen hclose hc ih =>
    rw [unsigned]
    split
    · exact ih h _
    · rw [nesting, if_neg hc]
      · exact ih h _
      · exact hopen
      · exact hclose
  | case7 depth c cs hopen hclose ih =>
    rw [unsigned]
    split
    · exact ih h _
    · rw [nesting]
      · exact ih h _
      · exact hopen
      · exact hclose

/-- Signs apart, the text is closed for plus signs, and no sign can follow it. -/
structure Summand (before : Char) (s : String) : Prop where
  closed : nesting ['+'] 0 (unsigned before s.toList) = some 0
  last : s.toList.getLastD before ≠ '^'

namespace Summand

variable {before : Char} {s t : String}

/-- A plus sign after such a text separates it from the next one. -/
theorem separated : Separated '+' (Summand '^') := by
  intro p q hp hq r h
  have hclosed := hq.closed
  rw [h, unsigned_append, unsigned, if_neg fun hc => hp.last hc.1, nesting_append, hp.closed,
    Option.bind_some, nesting, if_pos (List.mem_singleton.mpr rfl)] at hclosed
  · cases hclosed
  · decide
  · decide

theorem of_closed (h : Closed ['+'] s) (hlast : s.toList.getLastD before ≠ '^') :
    Summand before s := ⟨nesting_unsigned h before, hlast⟩

/-- Texts joined by `*`. -/
theorem times (hs : Summand before s) (ht : Summand '*' t) : Summand before (s ++ "*" ++ t) := by
  have hlist : (s ++ "*" ++ t).toList = s.toList ++ '*' :: t.toList := by simp
  constructor
  · rw [hlist, unsigned_append_cons _ _ _ (by decide), nesting_append, hs.closed]
    exact ht.closed
  · rw [hlist, getLastD_append_cons]
    exact ht.last

theorem intercalate {ps : List String} (hps : ∀ p ∈ ps, Summand '*' p) :
    Summand '*' (String.intercalate "*" ps) := by
  induction ps with
  | nil => exact ⟨rfl, by decide⟩
  | cons p ps ih =>
    have hp := hps p (List.mem_cons_self ..)
    have htail := ih fun q hq => hps q (List.mem_cons_of_mem _ hq)
    cases ps with
    | nil => rwa [String.intercalate_singleton]
    | cons q ps =>
      rw [String.intercalate_cons_cons]
      exact hp.times htail

end Summand

end Fluxion
