import Fluxion.Expr.Parse
import Fluxion.Proofs.Meaning
import Fluxion.Proofs.Token.Lexer

/-!
# What the parser returns

`Expr.Grammatical` lists the trees that the productions of the grammar build. Every step of the parser
keeps the operands that wait grammatical, and so is whatever the parser accepts in the end.
-/

namespace Fluxion

variable {α : Type} [Scalar α]

/-- The scalar is the value of a literal. -/
def Numeral.IsValue (v : α) : Prop := ∃ literal, Numeral.value? literal = some v

/-- The operators that join two operands of the grammar; a power takes a literal on its right. -/
def Operator.joins : List Operator := [.add, .sub, .mul, .div]

/-- The trees that the productions of the grammar build. -/
inductive Expr.Grammatical : Expr α → Prop where
  | number {v : α} (hv : Numeral.IsValue v) : Grammatical (.num v)
  | identifier {x : String} (hx : isIdentifier x = true) : Grammatical (.var x)
  | join {op : Operator} {l r : Expr α} (hop : op ∈ Operator.joins) (hl : Grammatical l)
    (hr : Grammatical r) : Grammatical (.bin op l r)
  | power {b : Expr α} {v : α} (hb : Grammatical b) (hv : Numeral.IsValue v) :
    Grammatical (.pow b v)
  | negativePower {b : Expr α} {v : α} (hb : Grammatical b) (hv : Numeral.IsValue v) :
    Grammatical (.pow b (-v))

namespace Parser

/-- A waiting operand is grammatical and its operator joins it to another one. -/
def Waiting.Grammatical (w : Waiting α) : Prop := w.left.Grammatical ∧ w.op ∈ Operator.joins

/-- Everything that waits in a level is grammatical. -/
def Level.Grammatical (l : Level α) : Prop :=
  (∀ w ∈ l.sum, w.Grammatical) ∧ ∀ w ∈ l.product, w.Grammatical

/-- The operand that was read last is grammatical. -/
def Expecting.Grammatical : Expecting α → Prop
  | .operand => True
  | .exponent base => base.Grammatical
  | .magnitude base _ => base.Grammatical
  | .operator factor _ => factor.Grammatical

/-- Everything that has been read is grammatical. -/
structure State.Grammatical (s : State α) : Prop where
  level : s.level.Grammatical
  outer : ∀ l ∈ s.outer, l.Grammatical
  expecting : s.expecting.Grammatical

/-- A move leads to grammatical results only. -/
def Move.Grammatical : Move α → Prop
  | .shift s => s.Grammatical
  | .literal next => ∀ v, Numeral.IsValue v → (next v).Grammatical
  | .accept e => e.Grammatical

theorem Level.grammatical_start : (Level.start : Level α).Grammatical :=
  ⟨fun _ h => absurd h (Option.not_mem_none _), fun _ h => absurd h (Option.not_mem_none _)⟩

theorem State.grammatical_start : (State.start : State α).Grammatical :=
  ⟨Level.grammatical_start, fun _ h => absurd h List.not_mem_nil, trivial⟩

theorem grammatical_attach {w : Option (Waiting α)} {e : Expr α} (hw : ∀ v ∈ w, v.Grammatical)
    (he : e.Grammatical) : (attach w e).Grammatical := by
  cases w with
  | none => exact he
  | some v =>
    obtain ⟨hleft, hop⟩ := hw v rfl
    exact .join hop hleft he

theorem Level.Grammatical.term {l : Level α} (hl : l.Grammatical) {e : Expr α}
    (he : e.Grammatical) : (l.term e).Grammatical := grammatical_attach hl.2 he

theorem Level.Grammatical.expression {l : Level α} (hl : l.Grammatical) {e : Expr α}
    (he : e.Grammatical) : (l.expression e).Grammatical := grammatical_attach hl.1 (hl.term he)

theorem State.Grammatical.withSum {s : State α} (hs : s.Grammatical) {op : Operator}
    (hop : op ∈ Operator.joins) {e : Expr α} (he : e.Grammatical) : (s.withSum op e).Grammatical := by
  refine ⟨⟨fun w hw => ?_, fun w hw => absurd hw (Option.not_mem_none _)⟩, hs.outer, trivial⟩
  cases hw
  exact ⟨hs.level.expression he, hop⟩

theorem State.Grammatical.withProduct {s : State α} (hs : s.Grammatical) {op : Operator}
    (hop : op ∈ Operator.joins) {e : Expr α} (he : e.Grammatical) :
    (s.withProduct op e).Grammatical := by
  refine ⟨⟨hs.level.1, fun w hw => ?_⟩, hs.outer, trivial⟩
  cases hw
  exact ⟨hs.level.term he, hop⟩

/-- One token keeps what has been read grammatical. -/
theorem State.Grammatical.move {s : State α} (hs : s.Grammatical) {t : Token} (ht : t.Spelled)
    {m : Move α} (h : s.move? t = some m) : m.Grammatical := by
  obtain ⟨hlevel, houter, hexp⟩ := hs
  rw [State.move?] at h
  split at h
  · cases h
    exact fun v hv => ⟨hlevel, houter, .number hv⟩
  · rename_i hkind
    cases h
    exact ⟨hlevel, houter, .identifier (ht hkind)⟩
  · cases h
    exact ⟨Level.grammatical_start, List.forall_mem_cons.mpr ⟨hlevel, houter⟩, trivial⟩
  · rename_i hexpecting _
    cases h
    rw [hexpecting] at hexp
    exact ⟨hlevel, houter, hexp⟩
  · rename_i hexpecting _
    cases h
    rw [hexpecting] at hexp
    exact ⟨hlevel, houter, hexp⟩
  · rename_i hexpecting _
    cases h
    rw [hexpecting] at hexp
    exact fun v hv => ⟨hlevel, houter, .power hexp hv⟩
  · rename_i base negative hexpecting _
    cases h
    rw [hexpecting] at hexp
    intro v hv
    refine ⟨hlevel, houter, ?_⟩
    cases negative with
    | false => exact .power hexp hv
    | true => exact .negativePower hexp hv
  · rename_i hexpecting _
    cases h
    rw [hexpecting] at hexp
    exact ⟨hlevel, houter, hexp⟩
  · rename_i hexpecting _
    cases h
    rw [hexpecting] at hexp
    exact State.Grammatical.withSum ⟨hlevel, houter, hexpecting ▸ hexp⟩ (by decide) hexp
  · rename_i hexpecting _
    cases h
    rw [hexpecting] at hexp
    exact State.Grammatical.withSum ⟨hlevel, houter, hexpecting ▸ hexp⟩ (by decide) hexp
  · rename_i hexpecting _
    cases h
    rw [hexpecting] at hexp
    exact State.Grammatical.withProduct ⟨hlevel, houter, hexpecting ▸ hexp⟩ (by decide) hexp
  · rename_i hexpecting _
    cases h
    rw [hexpecting] at hexp
    exact State.Grammatical.withProduct ⟨hlevel, houter, hexpecting ▸ hexp⟩ (by decide) hexp
  · rename_i hexpecting _
    rw [hexpecting] at hexp
    split at h
    · rename_i level outer hout
      cases h
      rw [hout] at houter
      obtain ⟨hl, houter⟩ := List.forall_mem_cons.mp houter
      exact ⟨hl, houter, hlevel.expression hexp⟩
    · cases h
  · rename_i hexpecting _
    rw [hexpecting] at hexp
    split at h
    · cases h
      exact hlevel.expression hexp
    · cases h
  · cases h

/-- Reading all tokens ends in a grammatical tree. -/
theorem grammatical_run {failure : ParseError} {ts : List Token} (hts : ∀ t ∈ ts, t.Spelled)
    {s : State α} (hs : s.Grammatical) {e : Expr α} (h : run failure s ts = .ok e) :
    e.Grammatical := by
  induction ts generalizing s with
  | nil => cases h
  | cons t ts ih =>
    obtain ⟨ht, hts⟩ := List.forall_mem_cons.mp hts
    rw [run] at h
    cases hmove : s.move? t with
    | none => rw [hmove] at h; cases h
    | some m =>
      rw [hmove] at h
      have hm := hs.move ht hmove
      cases m with
      | shift s' => exact ih hts hm h
      | accept e' => cases h; exact hm
      | literal next =>
        dsimp only at h
        split at h
        · cases h
        · split at h
          · rename_i v hv
            exact ih hts (hm v ⟨_, hv⟩) h
          · cases h

end Parser

namespace Expr

/-- Every tree that is read from a text is one of the grammar. -/
theorem grammatical_parse {text : List UInt8} {e : Expr α} (h : Expr.parse text = .ok e) :
    e.Grammatical :=
  Parser.grammatical_run (tokensFrom_spelled text 0) Parser.State.grammatical_start h

theorem Grammatical.markerFree {e : Expr α} (h : e.Grammatical) : e.MarkerFree := by
  induction h with
  | number hv => trivial
  | identifier hx => trivial
  | join hop hl hr ihl ihr => exact ⟨ihl, ihr⟩
  | power hb hv ih => exact ⟨ih, trivial⟩
  | negativePower hb hv ih => exact ⟨ih, trivial⟩

theorem Grammatical.isWhole {e : Expr α} (h : e.Grammatical) : e.isWhole = true := by
  induction h with
  | number hv => rfl
  | identifier hx => rfl
  | join hop hl hr ihl ihr => rw [Expr.isWhole, ihl, ihr]; rfl
  | power hb hv ih => rw [Expr.isWhole, ih]; rfl
  | negativePower hb hv ih => rw [Expr.isWhole, ih]; rfl

/-- Every variable that is read from a text is an identifier. -/
theorem Grammatical.named {e : Expr α} (h : e.Grammatical) : e.Named (isIdentifier · = true) := by
  induction h with
  | number hv => exact fun x hx => absurd hx List.not_mem_nil
  | identifier hx =>
    intro y hy
    rw [List.mem_singleton.mp hy]
    exact hx
  | join hop hl hr ihl ihr => exact named_bin.mpr ⟨ihl, ihr⟩
  | power hb hv ih => exact named_bin.mpr ⟨ih, fun x hx => absurd hx List.not_mem_nil⟩
  | negativePower hb hv ih => exact named_bin.mpr ⟨ih, fun x hx => absurd hx List.not_mem_nil⟩

theorem Grammatical.lettered {e : Expr α} (h : e.Grammatical) : e.Lettered := by
  intro x hx
  have hname : isIdentifier x = true := h.named x hx
  rw [isIdentifier, Bool.and_eq_true] at hname
  exact hname.2

end Expr

end Fluxion
