import Fluxion.Expr.Json
import Fluxion.Proofs.Outcome

/-!
# Expressions as JSON objects

`Expr.Encodes` is the format: which objects stand for which expression, by the fields that count and
whatever others there are. Reading an object succeeds exactly on the objects of the format, with the
expression that they stand for. Writing puts every whole tree into an object that reads back as the same
tree, provided the format has a name for everything in it; a tree with an unknown operator or a name
that is no identifier is written all the same, but what is written is refused.
-/

namespace Fluxion.Expr

variable {α ν : Type}

/-! ## The format -/

/-- The JSON value stands for the expression. Only the fields that the type of the object asks for count,
and where a name is repeated the last field that has it; `read` interprets the numbers. -/
inductive Encodes (read : ν → Except String α) : Json ν → Expr α → Prop where
  | number {fields : List (String × Json ν)} {v : ν} {a : α}
    (htype : Json.lookup? "type" fields = some (.str "number"))
    (hvalue : Json.lookup? "value" fields = some (.num v)) (hread : read v = .ok a) :
    Encodes read (.obj fields) (num a)
  | identifier {fields : List (String × Json ν)} {x : String}
    (htype : Json.lookup? "type" fields = some (.str "variable"))
    (hname : Json.lookup? "name" fields = some (.str x)) (hx : isIdentifier x = true) :
    Encodes read (.obj fields) (var x)
  | operation {fields : List (String × Json ν)} {op : Operator} {jl jr : Json ν} {l r : Expr α}
    (htype : Json.lookup? "type" fields = some (.str "binary"))
    (hop : Json.lookup? "op" fields = some (.str op.symbol)) (hstandard : op ∈ Operator.standard)
    (hleft : Json.lookup? "left" fields = some jl) (hright : Json.lookup? "right" fields = some jr)
    (hl : Encodes read jl l) (hr : Encodes read jr r) : Encodes read (.obj fields) (bin op l r)
  | marker {fields : List (String × Json ν)} {jt : Json ν} {t : Expr α}
    (htype : Json.lookup? "type" fields = some (.str "pending"))
    (htarget : Json.lookup? "target" fields = some jt) (ht : Encodes read jt t) :
    Encodes read (.obj fields) (pending t)

/-- The format has a name for every operator and every variable of the tree. -/
def Encodable : Expr α → Prop
  | num _ => True
  | var x => isIdentifier x = true
  | bin op l r => op ∈ Operator.standard ∧ l.Encodable ∧ r.Encodable
  | pending t => t.Encodable
  | hole => False

theorem Encodes.encodable {read : ν → Except String α} {j : Json ν} {e : Expr α}
    (h : Encodes read j e) : e.Encodable := by
  induction h with
  | number htype hvalue hread => trivial
  | identifier htype hname hx => exact hx
  | operation htype hop hstandard hleft hright hl hr ihl ihr => exact ⟨hstandard, ihl, ihr⟩
  | marker htype htarget ht ih => exact ih

theorem Encodable.isWhole {e : Expr α} (h : e.Encodable) : e.isWhole = true := by
  induction e with
  | num v => rfl
  | var x => rfl
  | bin op l r ihl ihr => rw [Expr.isWhole, ihl h.2.1, ihr h.2.2]; rfl
  | pending t ih => exact ih h
  | hole => exact h.elim

/-! ## Reading -/

section Read

variable {read : ν → Except String α} {fields : List (String × Json ν)} {e : Expr α}

theorem lookup?_decodeFields (read : ν → Except String α) (name : String)
    (fields : List (String × Json ν)) :
    Json.lookup? name (decodeFields read fields) =
      (Json.lookup? name fields).map fun j => (j, ofJson read j) := by
  induction fields with
  | nil => rfl
  | cons f fields ih =>
    obtain ⟨k, j⟩ := f
    rw [decodeFields, Json.lookup?, Json.lookup?, ih, Option.map_or]
    congr 1
    split <;> rfl

/-- Only objects stand for expressions. -/
theorem exists_obj_of_ofJson {j : Json ν} (h : ofJson read j = .ok e) : ∃ fields, j = .obj fields := by
  cases j with
  | obj fields => exact ⟨fields, rfl⟩
  | _ => cases h

/-- An operand is there and denotes an expression. -/
theorem operand_eq_ok_iff {owner name : String} :
    operand owner name (decodeFields read fields) = .ok e ↔
      ∃ j, Json.lookup? name fields = some j ∧ ofJson read j = .ok e := by
  rw [operand, lookup?_decodeFields]
  cases hj : Json.lookup? name fields with
  | none => simp
  | some j =>
    constructor
    · intro h
      refine ⟨j, rfl, ?_⟩
      cases j with
      | obj inner => exact mapError_eq_ok.mp h
      | _ => cases h
    · rintro ⟨j', hj', h⟩
      cases hj'
      obtain ⟨inner, rfl⟩ := exists_obj_of_ofJson h
      exact mapError_eq_ok.mpr h

/-- The text that a field is read as. A field that is missing or no string reads as the empty text. -/
def fieldText (name : String) (fields : List (String × Json ν)) : String :=
  Json.strD (Json.lookup? name fields)

theorem fieldText_eq_iff {name s : String} (hs : s ≠ "") :
    fieldText name fields = s ↔ Json.lookup? name fields = some (.str s) := by
  rw [fieldText, Json.strD]
  cases Json.lookup? name fields with
  | none => simpa using hs.symm
  | some j => cases j <;> simp [Json.str?, hs.symm]

theorem ofSymbol?_eq_some_iff {s : String} {op : Operator} :
    Operator.ofSymbol? s = some op ↔ op ∈ Operator.standard ∧ op.symbol = s := by
  constructor
  · intro h
    exact ⟨List.mem_of_find?_eq_some h, beq_iff_eq.mp (List.find?_some (p := fun o : Operator =>
      o.symbol == s) h)⟩
  · rintro ⟨hop, rfl⟩
    fin_cases hop <;> decide

theorem symbol_ne_empty (op : Operator) : op.symbol ≠ "" := by
  cases op <;> simp [Operator.symbol]

theorem isIdentifier_ne_empty {x : String} (h : isIdentifier x = true) : x ≠ "" := by
  rintro rfl
  cases h

theorem fieldText_decodeFields (read : ν → Except String α) (name : String)
    (fields : List (String × Json ν)) :
    Json.strD ((Json.lookup? name (decodeFields read fields)).map Prod.fst) =
      fieldText name fields := by
  rw [lookup?_decodeFields, Option.map_map, fieldText]
  cases Json.lookup? name fields <;> rfl

/-! One equation for each type of object, and no other type is accepted. -/

theorem ofJson_number_iff (htype : Json.lookup? "type" fields = some (.str "number")) :
    ofJson read (.obj fields) = .ok e ↔
      ∃ v a, Json.lookup? "value" fields = some (.num v) ∧ read v = .ok a ∧ num a = e := by
  rw [ofJson, ofFields]
  simp only [fieldText_decodeFields, (fieldText_eq_iff (by decide)).mpr htype]
  rw [lookup?_decodeFields, Option.map_map]
  cases Json.lookup? "value" fields with
  | none => simp
  | some j => cases j <;> simp [map_eq_ok]

theorem ofJson_variable_iff (htype : Json.lookup? "type" fields = some (.str "variable")) :
    ofJson read (.obj fields) = .ok e ↔
      ∃ x, Json.lookup? "name" fields = some (.str x) ∧ isIdentifier x = true ∧ var x = e := by
  rw [ofJson, ofFields]
  simp only [fieldText_decodeFields, (fieldText_eq_iff (by decide)).mpr htype]
  constructor
  · intro h
    split at h
    · rename_i hx
      cases h
      exact ⟨_, (fieldText_eq_iff (isIdentifier_ne_empty hx)).mp rfl, hx, rfl⟩
    · cases h
  · rintro ⟨x, hname, hx, rfl⟩
    rw [(fieldText_eq_iff (isIdentifier_ne_empty hx)).mpr hname, if_pos hx]

theorem ofJson_binary_iff (htype : Json.lookup? "type" fields = some (.str "binary")) :
    ofJson read (.obj fields) = .ok e ↔
      ∃ op l r, Json.lookup? "op" fields = some (.str op.symbol) ∧ op ∈ Operator.standard ∧
        (∃ j, Json.lookup? "left" fields = some j ∧ ofJson read j = .ok l) ∧
        (∃ j, Json.lookup? "right" fields = some j ∧ ofJson read j = .ok r) ∧ bin op l r = e := by
  rw [ofJson, ofFields]
  simp only [fieldText_decodeFields, (fieldText_eq_iff (by decide)).mpr htype]
  constructor
  · intro h
    split at h
    · cases h
    · rename_i op hop
      obtain ⟨hstandard, hsymbol⟩ := ofSymbol?_eq_some_iff.mp hop
      obtain ⟨l, hl, h⟩ := bind_eq_ok.mp h
      obtain ⟨r, hr, h⟩ := bind_eq_ok.mp h
      exact ⟨op, l, r, (fieldText_eq_iff (symbol_ne_empty op)).mp hsymbol.symm, hstandard,
        operand_eq_ok_iff.mp hl, operand_eq_ok_iff.mp hr, Except.ok.inj h⟩
  · rintro ⟨op, l, r, hop, hstandard, hl, hr, rfl⟩
    rw [(fieldText_eq_iff (symbol_ne_empty op)).mpr hop,
      ofSymbol?_eq_some_iff.mpr ⟨hstandard, rfl⟩]
    exact bind_eq_ok.mpr ⟨l, operand_eq_ok_iff.mpr hl,
      bind_eq_ok.mpr ⟨r, operand_eq_ok_iff.mpr hr, rfl⟩⟩

theorem ofJson_pending_iff (htype : Json.lookup? "type" fields = some (.str "pending")) :
    ofJson read (.obj fields) = .ok e ↔
      ∃ t, (∃ j, Json.lookup? "target" fields = some j ∧ ofJson read j = .ok t) ∧
        pending t = e := by
  rw [ofJson, ofFields]
  simp only [fieldText_decodeFields, (fieldText_eq_iff (by decide)).mpr htype]
  constructor
  · intro h
    obtain ⟨t, ht, h⟩ := bind_eq_ok.mp h
    exact ⟨t, operand_eq_ok_iff.mp ht, Except.ok.inj h⟩
  · rintro ⟨t, ht, rfl⟩
    exact bind_eq_ok.mpr ⟨t, operand_eq_ok_iff.mpr ht, rfl⟩

theorem type_of_ofJson (h : ofJson read (.obj fields) = .ok e) :
    ∃ s ∈ ["number", "variable", "binary", "pending"],
      Json.lookup? "type" fields = some (.str s) := by
  rw [ofJson, ofFields] at h
  simp only [fieldText_decodeFields] at h
  split at h
  · cases h
  · rename_i htype
    exact ⟨_, by simp, (fieldText_eq_iff (by decide)).mp htype⟩
  · rename_i htype
    exact ⟨_, by simp, (fieldText_eq_iff (by decide)).mp htype⟩
  · rename_i htype
    exact ⟨_, by simp, (fieldText_eq_iff (by decide)).mp htype⟩
  · rename_i htype
    exact ⟨_, by simp, (fieldText_eq_iff (by decide)).mp htype⟩
  · cases h

/-- Whatever is read is in the format: the operands of an expression are read from the values of
fields. -/
theorem encodes_of_ofJson {j : Json ν} (h : ofJson read j = .ok e) : Encodes read j e := by
  induction hd : e.depth using Nat.strong_induction_on generalizing j e with
  | _ n ih =>
    obtain ⟨fields, rfl⟩ := exists_obj_of_ofJson h
    obtain ⟨s, hs, htype⟩ := type_of_ofJson h
    fin_cases hs
    · obtain ⟨v, a, hvalue, hread, rfl⟩ := (ofJson_number_iff htype).mp h
      exact .number htype hvalue hread
    · obtain ⟨x, hname, hx, rfl⟩ := (ofJson_variable_iff htype).mp h
      exact .identifier htype hname hx
    · obtain ⟨op, l, r, hop, hstandard, ⟨jl, hleft, hl⟩, ⟨jr, hright, hr⟩, rfl⟩ :=
        (ofJson_binary_iff htype).mp h
      rw [depth] at hd
      exact .operation htype hop hstandard hleft hright (ih _ (by omega) hl rfl)
        (ih _ (by omega) hr rfl)
    · obtain ⟨t, ⟨jt, htarget, ht⟩, rfl⟩ := (ofJson_pending_iff htype).mp h
      rw [depth] at hd
      exact .marker htype htarget (ih _ (by omega) ht rfl)

/-- Whatever is in the format is read. -/
theorem Encodes.ofJson_eq {j : Json ν} (h : Encodes read j e) : ofJson read j = .ok e := by
  induction h with
  | number htype hvalue hread => exact (ofJson_number_iff htype).mpr ⟨_, _, hvalue, hread, rfl⟩
  | identifier htype hname hx => exact (ofJson_variable_iff htype).mpr ⟨_, hname, hx, rfl⟩
  | operation htype hop hstandard hleft hright hl hr ihl ihr =>
    exact (ofJson_binary_iff htype).mpr
      ⟨_, _, _, hop, hstandard, ⟨_, hleft, ihl⟩, ⟨_, hright, ihr⟩, rfl⟩
  | marker htype htarget ht ih => exact (ofJson_pending_iff htype).mpr ⟨_, ⟨_, htarget, ih⟩, rfl⟩

end Read

/-! ## Writing -/

theorem exists_toJson {e : Expr α} (h : e.isWhole = true) : ∃ j, e.toJson = .ok j := by
  induction e with
  | num v => exact ⟨_, rfl⟩
  | var x => exact ⟨_, rfl⟩
  | bin op l r ihl ihr =>
    rw [Expr.isWhole, Bool.and_eq_true] at h
    obtain ⟨jl, hl⟩ := ihl h.1
    obtain ⟨jr, hr⟩ := ihr h.2
    exact ⟨_, by rw [toJson, hl, hr]; rfl⟩
  | pending t ih =>
    obtain ⟨jt, ht⟩ := ih h
    exact ⟨_, by rw [toJson, ht]; rfl⟩
  | hole => cases h

/-- What is written for an encodable tree stands for the tree. -/
theorem Encodable.encodes_toJson {e : Expr α} (h : e.Encodable) {j : Json α}
    (hj : e.toJson = .ok j) : Encodes .ok j e := by
  induction e generalizing j with
  | num v =>
    cases hj
    exact .number (v := v) rfl rfl rfl
  | var x =>
    cases hj
    exact .identifier rfl rfl h
  | bin op l r ihl ihr =>
    obtain ⟨jl, hl, hj⟩ := bind_eq_ok.mp hj
    obtain ⟨jr, hr, hj⟩ := bind_eq_ok.mp hj
    cases hj
    exact .operation rfl rfl h.1 rfl rfl (ihl h.2.1 hl) (ihr h.2.2 hr)
  | pending t ih =>
    obtain ⟨jt, ht, hj⟩ := bind_eq_ok.mp hj
    cases hj
    exact .marker rfl rfl (ih h ht)
  | hole => exact h.elim

theorem eq_of_symbol_eq {op op' : Operator} (hop' : op' ∈ Operator.standard)
    (h : op.symbol = op'.symbol) : op = op' := by
  fin_cases hop' <;> cases op <;> simp_all [Operator.symbol]

/-- What is written for a tree reads as no other tree. -/
theorem eq_of_ofJson_toJson {e e' : Expr α} {j : Json α} (hj : e.toJson = .ok j)
    (h : ofJson .ok j = .ok e') : e' = e := by
  induction e generalizing j e' with
  | num v =>
    cases hj
    obtain ⟨v, a, hvalue, hread, rfl⟩ := (ofJson_number_iff rfl).mp h
    cases hvalue
    cases hread
    rfl
  | var x =>
    cases hj
    obtain ⟨x, hname, -, rfl⟩ := (ofJson_variable_iff rfl).mp h
    cases hname
    rfl
  | bin op l r ihl ihr =>
    obtain ⟨jl, hl, hj⟩ := bind_eq_ok.mp hj
    obtain ⟨jr, hr, hj⟩ := bind_eq_ok.mp hj
    cases hj
    obtain ⟨op', l', r', hop, hstandard, ⟨jl', hleft, hl'⟩, ⟨jr', hright, hr'⟩, rfl⟩ :=
      (ofJson_binary_iff rfl).mp h
    have hsymbol : op.symbol = op'.symbol := by
      have hop : some (Json.str op.symbol) = some (Json.str op'.symbol : Json α) := hop
      simpa using hop
    cases hleft
    cases hright
    rw [eq_of_symbol_eq hstandard hsymbol, ihl hl hl', ihr hr hr']
  | pending t ih =>
    obtain ⟨jt, ht, hj⟩ := bind_eq_ok.mp hj
    cases hj
    obtain ⟨t', ⟨jt', htarget, ht'⟩, rfl⟩ := (ofJson_pending_iff rfl).mp h
    cases htarget
    rw [ih ht ht']
  | hole => cases hj

/-- Reading accepts exactly the objects of the format. A whole tree is written as an object that reads as
the tree if the tree is encodable and is refused otherwise, and whatever has been read is read again
from what is written for it. -/
theorem ofJson_eq_ok_iff_encodes (read : ν → Except String α) :
    (∀ (j : Json ν) (e : Expr α), ofJson read j = .ok e ↔ Encodes read j e) ∧
    (∀ e : Expr α, e.isWhole = true → ∃ j, e.toJson = .ok j ∧
      (e.Encodable → ofJson .ok j = .ok e) ∧
      (¬e.Encodable → ∃ err, (ofJson .ok j : Except DecodeError (Expr α)) = .error err)) ∧
    ∀ (j : Json ν) (e : Expr α), ofJson read j = .ok e →
      ∃ j', e.toJson = .ok j' ∧ ofJson .ok j' = .ok e := by
  refine ⟨fun j e => ⟨encodes_of_ofJson, Encodes.ofJson_eq⟩, fun e he => ?_, fun j e h => ?_⟩
  · obtain ⟨j, hj⟩ := exists_toJson he
    refine ⟨j, hj, fun h => (h.encodes_toJson hj).ofJson_eq, fun h => ?_⟩
    cases hread : (ofJson .ok j : Except DecodeError (Expr α)) with
    | error err => exact ⟨err, rfl⟩
    | ok e' =>
      obtain rfl := eq_of_ofJson_toJson hj hread
      exact absurd (encodes_of_ofJson hread).encodable h
  · have hencodable := (encodes_of_ofJson h).encodable
    obtain ⟨j', hj'⟩ := exists_toJson hencodable.isWhole
    exact ⟨j', hj', (hencodable.encodes_toJson hj').ofJson_eq⟩

/-- A product with a field that is not asked for, and an operator that the format has no name for. -/
theorem ofJson_eq_ok_iff_encodes_product :
    (∃ j : Json Float,
      ofJson .ok j = .ok (mul (num 2) (pending (var "x")) : Expr Float) ∧
      Encodes .ok j (mul (num 2) (pending (var "x")) : Expr Float)) ∧
    (bin (.other 7) (var "x") (num 2) : Expr Float).isWhole = true ∧
    ∃ j, (bin (.other 7) (var "x") (num 2) : Expr Float).toJson = .ok j ∧
      ∃ err, (ofJson .ok j : Except DecodeError (Expr Float)) = .error err := by
  have hread : ofJson .ok (.obj [("type", .str "binary"), ("note", .null), ("op", .str "*"),
      ("right", .obj [("target", .obj [("name", .str "x"), ("type", .str "variable")]),
        ("type", .str "pending")]),
      ("left", .obj [("value", .num 2), ("type", .str "number")])]) =
      .ok (mul (num 2) (pending (var "x")) : Expr Float) := by
    decide +kernel
  have hwhole : (bin (.other 7) (var "x") (num 2) : Expr Float).isWhole = true := rfl
  refine ⟨⟨_, hread, ((ofJson_eq_ok_iff_encodes .ok).1 _ _).mp hread⟩, hwhole, ?_⟩
  obtain ⟨j, hj, -, hrefused⟩ := (ofJson_eq_ok_iff_encodes (ν := Float) .ok).2.1 _ hwhole
  refine ⟨j, hj, hrefused ?_⟩
  rintro ⟨hop, -⟩
  simp [Operator.standard] at hop

end Fluxion.Expr
