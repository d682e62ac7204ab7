import Fluxion.Tool
import Fluxion.Proofs.Encoding.Passes
import Fluxion.Proofs.Renaming.Terms

/-!
# What the tools answer

An expression reaches a tool as text or as a tree, and either way it can be encoded. So a tool cannot tell
which of the two it was, and the tree in a response is accepted by every tool. A tree that can be encoded
has a text and a formula, because each of its nodes leaves at least one character behind, and an error
always has a message: a response is a result or an error, and nothing between the two.
-/

namespace Fluxion

variable {α : Type}

/-! ## Texts of trees and errors -/

section Texts

variable [LegibleScalar α]

theorem text_ne_empty (v : α) : Scalar.text v ≠ "" := by
  obtain ⟨body, hbody, -, h | h⟩ := LegibleScalar.legible v
  · rw [h]
    exact hbody
  · rw [h]
    simp

namespace Expr

theorem enclose_ne_empty {s : String} (h : s ≠ "") (min prec : ℕ) : enclose min prec s ≠ "" := by
  rw [enclose]
  split
  · simp
  · exact h

theorem encloseLatex_ne_empty {s : String} (h : s ≠ "") (min prec : ℕ) :
    encloseLatex min prec s ≠ "" := by
  rw [encloseLatex]
  split
  · simp
  · exact h

theorem latexSign_ne_empty (op : Operator) : latexSign op ≠ "" := by
  cases op <;> simp [latexSign]

theorem Encodable.print_ne_empty {e : Expr α} (h : e.Encodable) : e.print ≠ "" := by
  rw [print, if_pos h.isWhole]
  cases e with
  | num v => exact text_ne_empty v
  | var x => exact isIdentifier_ne_empty h
  | bin op l r =>
    rw [render]
    split
    · exact enclose_ne_empty (by simp) _ _
    · exact enclose_ne_empty (by simp [symbol_ne_empty]) _ _
  | pending t => simp [render]
  | hole => exact h.elim

theorem Encodable.latex_ne_empty {e : Expr α} (h : e.Encodable) : e.latex ≠ "" := by
  rw [latex, if_pos h.isWhole]
  cases e with
  | num v => exact text_ne_empty v
  | var x => exact isIdentifier_ne_empty h
  | bin op l r =>
    cases op with
    | div => exact encloseLatex_ne_empty (by simp) _ _
    | pow => exact encloseLatex_ne_empty (by simp) _ _
    | _ =>
      rw [renderLatex]
      · split
        · exact encloseLatex_ne_empty (by simp) _ _
        · exact encloseLatex_ne_empty (by simp [latexSign_ne_empty]) _ _
      · simp
      · simp
  | pending t => simp [renderLatex]
  | hole => exact h.elim

end Expr

end Texts

theorem LexError.message_ne_empty (err : LexError) : err.message ≠ "" := by
  unfold message
  split <;> simp

theorem ParseError.message_ne_empty (err : ParseError) : err.message ≠ "" := by
  unfold message
  split
  · exact LexError.message_ne_empty _
  · simp
  · simp

theorem DecodeError.message_ne_empty (err : DecodeError) : err.message ≠ "" := by
  unfold message
  split <;> simp

section Errors

variable [Scalar α]

theorem PassError.message_ne_empty (err : PassError α) : err.message ≠ "" := by
  unfold message
  split
  · simp
  · simp
  · split <;> simp
  · simp
  · simp

theorem Failure.message_ne_empty (f : Failure α) : f.message ≠ "" := by
  unfold message
  simp

theorem ToolError.message_ne_empty (err : ToolError α) : err.message ≠ "" := by
  cases err with
  | source cause => exact cause.message_ne_empty
  | tree cause => exact cause.message_ne_empty
  | pass cause => exact cause.message_ne_empty
  | failure cause => exact cause.message_ne_empty
  | missing param => unfold message; simp
  | notText param => unfold message; simp
  | notExpression param => unfold message; simp
  | unknownTool name => unfold message; simp

end Errors

/-! ## Expressions in requests -/

namespace ToolRequest

variable [Scalar α] {r : ToolRequest α} {name : String} {e : Expr α}

theorem expression_of_text {s : String} (hr : r.param? name = some (.str s))
    (he : Expr.parse (Utf8.bytes s) = .ok e) : r.expression name = .ok e := by
  rw [expression, hr]
  exact mapError_eq_ok.mpr he

/-- What is written for a tree that can be encoded is accepted in its place. -/
theorem expression_of_tree (h : e.Encodable) {j : Json α} (hj : e.toJson = .ok j)
    (hr : r.param? name = some j) : r.expression name = .ok e := by
  have hread := (h.encodes_toJson hj).ofJson_eq
  obtain ⟨fields, rfl⟩ := Expr.exists_obj_of_ofJson hread
  rw [expression, hr]
  exact mapError_eq_ok.mpr hread

/-- Whether it is given as text or as a tree, an expression can be encoded. -/
theorem encodable_expression (h : r.expression name = .ok e) : e.Encodable := by
  rw [expression] at h
  split at h
  · cases h
  · exact (Expr.grammatical_parse (mapError_eq_ok.mp h)).encodable
  · exact (Expr.encodes_of_ofJson (mapError_eq_ok.mp h)).encodable
  · cases h

end ToolRequest

/-! ## Results and errors -/

namespace ToolResponse

variable [Scalar α]

/-- There is a result with a text or a formula, and no error. -/
def IsResult (r : ToolResponse α) : Prop :=
  r.error = "" ∧ r.result.isSome = true ∧ (r.text ≠ "" ∨ r.latex ≠ "")

/-- There is an error and nothing else. -/
def IsError (r : ToolResponse α) : Prop :=
  r.error ≠ "" ∧ r.result = none ∧ r.latex = "" ∧ r.text = ""

theorem isError_ofError (err : ToolError α) : (ofError err).IsError :=
  ⟨err.message_ne_empty, rfl, rfl, rfl⟩

theorem ofExpr_eq {e : Expr α} {j : Json α} (hj : e.toJson = .ok j) :
    ofExpr e = { result := some j, latex := e.latex, text := e.print } := by
  rw [ofExpr, hj]

theorem IsResult.withSteps {r : ToolResponse α} (h : r.IsResult) (d : Solution α) :
    (r.withSteps d).IsResult := ⟨h.1, rfl, h.2.2⟩

end ToolResponse

theorem ToolResponse.isResult_ofExpr [LegibleScalar α] {e : Expr α} (h : e.Encodable) :
    (ofExpr e).IsResult := by
  obtain ⟨j, hj⟩ := Expr.exists_toJson h.isWhole
  rw [ofExpr_eq hj]
  exact ⟨rfl, rfl, Or.inl h.print_ne_empty⟩

namespace Tool

section Scalar

variable [Scalar α] {options : Options} {r : ToolRequest α}

theorem handle_of_ok {response : ToolResponse α} (h : call options r = .ok response) :
    handle options r = response := by
  rw [handle, h]

/-- A tool that works on one expression sees nothing else of the request. -/
theorem call_congr {options' : Options} {r' : ToolRequest α}
    (htool : r.tool ∈ ["parse", "print", "latex", "expand", "terms"]) (hsame : r'.tool = r.tool)
    (h : r'.expression "expr" = r.expression "expr") : call options' r' = call options r := by
  simp only [List.mem_cons, List.not_mem_nil, or_false] at htool
  rcases htool with ht | ht | ht | ht | ht <;> simp only [call, hsame, ht, h]

theorem call_parse (htool : r.tool = "parse") :
    call options r = (do return .ofExpr (← r.expression "expr")) := by
  simp only [call, htool]

theorem call_print {e : Expr α} (htool : r.tool = "print") (he : r.expression "expr" = .ok e) :
    call options r = .ok { result := some (.str e.print), text := e.print } := by
  simp only [call, htool, he]
  rfl

theorem call_latex {e : Expr α} (htool : r.tool = "latex") (he : r.expression "expr" = .ok e) :
    call options r = .ok { result := some (.str e.latex), latex := e.latex } := by
  simp only [call, htool, he]
  rfl

/-- A derivative can be encoded. It is the answer, and the steps replace its tree if they are wanted. -/
theorem callDifferentiate_eq_ok {response : ToolResponse α}
    (h : callDifferentiate options r = .ok response) :
    ∃ d : Solution α, d.expr.Encodable ∧
      response = if r.isSet "steps" then (ToolResponse.ofExpr d.expr).withSteps d else .ofExpr d.expr := by
  rw [callDifferentiate] at h
  obtain ⟨text, -, h⟩ := bind_eq_ok.mp h
  obtain ⟨x, -, h⟩ := bind_eq_ok.mp h
  obtain ⟨d, hd, h⟩ := bind_eq_ok.mp h
  cases h
  exact ⟨d, encodable_differentiate (mapError_eq_ok.mp hd), rfl⟩

/-- What multiplying out and differentiating without steps answer with is a tree that can be encoded. -/
theorem exists_ofExpr_of_call {response : ToolResponse α} (h : call options r = .ok response)
    (htool : r.tool = "expand" ∨ r.tool = "differentiate" ∧ r.isSet "steps" = false) :
    ∃ e : Expr α, e.Encodable ∧ response = .ofExpr e := by
  rcases htool with htool | ⟨htool, hsteps⟩
  · simp only [call, htool] at h
    obtain ⟨e, he, h⟩ := bind_eq_ok.mp h
    obtain ⟨expanded, hexpanded, h⟩ := bind_eq_ok.mp h
    cases h
    exact ⟨expanded, (ToolRequest.encodable_expression he).distributeIn (mapError_eq_ok.mp hexpanded), rfl⟩
  · simp only [call, htool] at h
    obtain ⟨d, hd, rfl⟩ := callDifferentiate_eq_ok h
    exact ⟨d.expr, hd, by rw [hsteps]; rfl⟩

end Scalar

variable [LegibleScalar α] {options : Options} {r : ToolRequest α}

/-- What a call returns is a result. -/
theorem isResult_call {response : ToolResponse α} (h : call options r = .ok response) :
    response.IsResult := by
  rw [call] at h
  split at h
  · obtain ⟨d, hd, rfl⟩ := callDifferentiate_eq_ok h
    have hresult := ToolResponse.isResult_ofExpr hd
    split
    · exact hresult.withSteps d
    · exact hresult
  · obtain ⟨e, he, h⟩ := bind_eq_ok.mp h
    cases h
    exact ToolResponse.isResult_ofExpr (ToolRequest.encodable_expression he)
  · obtain ⟨e, he, h⟩ := bind_eq_ok.mp h
    cases h
    exact ⟨rfl, rfl, Or.inl (ToolRequest.encodable_expression he).print_ne_empty⟩
  · obtain ⟨e, he, h⟩ := bind_eq_ok.mp h
    cases h
    exact ⟨rfl, rfl, Or.inr (ToolRequest.encodable_expression he).latex_ne_empty⟩
  · obtain ⟨e, he, h⟩ := bind_eq_ok.mp h
    obtain ⟨expanded, hexpanded, h⟩ := bind_eq_ok.mp h
    cases h
    exact ToolResponse.isResult_ofExpr
      ((ToolRequest.encodable_expression he).distributeIn (mapError_eq_ok.mp hexpanded))
  · obtain ⟨e, he, h⟩ := bind_eq_ok.mp h
    obtain ⟨ts, hts, h⟩ := bind_eq_ok.mp h
    cases h
    have hnames := (ToolRequest.encodable_expression he).named.canonicalTerms (mapError_eq_ok.mp hts)
    exact ⟨rfl, rfl, Or.inr hnames.encodable_toExpr.latex_ne_empty⟩
  · cases h
    exact ⟨rfl, rfl, Or.inl (show "MCP tool specification" ≠ "" by decide)⟩
  · cases h

end Tool

/-! ## The two ways to give an expression -/

section Agreement

variable [Scalar α]

open Tool in
/-- A tool answers to the tree that the tool `parse` makes of a text as it answers to the text, with
whatever options. And the tree that multiplying out or differentiating answers with is written by the
tools `print` and `latex` as that answer has it. -/
theorem handle_tree_eq_handle_text :
    (∀ (s : String) (e : Expr α), Expr.parse (Utf8.bytes s) = .ok e →
      ∃ tree : Json α,
        (∀ (options : Options) (r : ToolRequest α), r.tool = "parse" →
          r.param? "expr" = some (.str s) → (handle options r).result = some tree) ∧
        ∀ (options options' : Options) (r r' : ToolRequest α),
          r.tool ∈ ["parse", "print", "latex", "expand", "terms"] → r'.tool = r.tool →
          r.param? "expr" = some (.str s) → r'.param? "expr" = some tree →
          handle options' r' = handle options r) ∧
    ∀ (options : Options) (r : ToolRequest α),
      (r.tool = "expand" ∨ r.tool = "differentiate" ∧ r.isSet "steps" = false) →
      (handle options r).error = "" →
      ∃ tree : Json α, (handle options r).result = some tree ∧
        ∀ (options' : Options) (r' : ToolRequest α), r'.param? "expr" = some tree →
          (r'.tool = "print" → handle options' r' =
            { result := some (.str (handle options r).text), text := (handle options r).text }) ∧
          (r'.tool = "latex" → handle options' r' =
            { result := some (.str (handle options r).latex), latex := (handle options r).latex }) := by
  refine ⟨fun s e hs => ?_, fun options r htool hnone => ?_⟩
  · have he := (Expr.grammatical_parse hs).encodable
    obtain ⟨tree, htree⟩ := Expr.exists_toJson he.isWhole
    refine ⟨tree, fun options r htool hr => ?_, fun options options' r r' htool hsame hr hr' => ?_⟩
    · have hcall : call options r = .ok (.ofExpr e) := by
        rw [call_parse htool, ToolRequest.expression_of_text hr hs]
        rfl
      rw [handle_of_ok hcall, ToolResponse.ofExpr_eq htree]
    · have hexpr : r'.expression "expr" = r.expression "expr" := by
        rw [ToolRequest.expression_of_text hr hs, ToolRequest.expression_of_tree he htree hr']
      rw [handle, handle, call_congr htool hsame hexpr]
  · cases hcall : call options r with
    | error err =>
      rw [handle, hcall] at hnone
      exact absurd hnone err.message_ne_empty
    | ok response =>
      obtain ⟨e, he, rfl⟩ := exists_ofExpr_of_call hcall htool
      obtain ⟨tree, htree⟩ := Expr.exists_toJson he.isWhole
      rw [handle_of_ok hcall, ToolResponse.ofExpr_eq htree]
      refine ⟨tree, rfl, fun options' r' hr' => ?_⟩
      have hexpr := ToolRequest.expression_of_tree he htree hr'
      exact ⟨fun hprint => handle_of_ok (call_print hprint hexpr),
        fun hlatex => handle_of_ok (call_latex hlatex hexpr)⟩

end Agreement

/-- A product of sums as text and as tree, and what is left of it when it is multiplied out. -/
theorem handle_tree_eq_handle_text_product :
    ∃ tree tree' : Json Float,
      Tool.handle {} ⟨"expand", [("expr", tree)]⟩ =
        Tool.handle {} ⟨"expand", [("expr", .str "(x+y)*z")]⟩ ∧
      (Tool.handle {} ⟨"expand", [("expr", .str "(x+y)*z")]⟩).result = some tree' ∧
      (Tool.handle {} ⟨"print", [("expr", tree')]⟩).text = "x*z+y*z" := by
  have hparse : Expr.parse (Utf8.bytes "(x+y)*z") =
      .ok (.mul (.add (.var "x") (.var "y")) (.var "z") : Expr Float) := by decide +kernel
  have htext : (Tool.handle {} (⟨"expand", [("expr", .str "(x+y)*z")]⟩ : ToolRequest Float)).text =
      "x*z+y*z" := by decide +kernel
  have herror : (Tool.handle {} (⟨"expand", [("expr", .str "(x+y)*z")]⟩ : ToolRequest Float)).error =
      "" := by decide +kernel
  obtain ⟨tree, -, hsame⟩ := (handle_tree_eq_handle_text (α := Float)).1 _ _ hparse
  obtain ⟨tree', htree', hwritten⟩ := (handle_tree_eq_handle_text (α := Float)).2 {}
    ⟨"expand", [("expr", .str "(x+y)*z")]⟩ (Or.inl rfl) herror
  refine ⟨tree, tree', hsame {} {} _ _ (by simp) rfl rfl rfl, htree', ?_⟩
  rw [(hwritten {} ⟨"print", [("expr", tree')]⟩ rfl).1 rfl, htext]

/-! ## Nothing between a result and an error -/

/-- Every request, whatever its tool and its parameters are, is answered with a result that has a text or
a formula, or else with an error alone. Trees that come from a text, from a JSON value, from multiplying out
or from a differentiation can always be written as JSON. -/
theorem handle_isResult_or_isError [LegibleScalar α] :
    (∀ (options : Options) (r : ToolRequest α),
      (Tool.handle options r).IsResult ∨ (Tool.handle options r).IsError) ∧
    (∀ (text : List UInt8) (e : Expr α), Expr.parse text = .ok e → ∃ j, e.toJson = .ok j) ∧
    (∀ (ν : Type) (read : ν → Except String α) (j : Json ν) (e : Expr α),
      Expr.ofJson read j = .ok e → ∃ j', e.toJson = .ok j') ∧
    (∀ e e' : Expr α, e.distribute = .ok e' → ∃ j, e'.toJson = .ok j) ∧
    ∀ (options : Options) (text : List UInt8) (x : String) (s : Solution α),
      (differentiate options text x).outcome = .ok s → ∃ j, s.expr.toJson = .ok j := by
  refine ⟨fun options r => ?_, fun text e h => ?_, fun ν read j e h => ?_, fun e e' h => ?_,
    fun options text x s h => ?_⟩
  · rw [Tool.handle]
    cases hcall : Tool.call options r with
    | ok response => exact Or.inl (Tool.isResult_call hcall)
    | error err => exact Or.inr (ToolResponse.isError_ofError err)
  · exact Expr.exists_toJson (Expr.grammatical_parse h).encodable.isWhole
  · exact Expr.exists_toJson (Expr.encodes_of_ofJson h).encodable.isWhole
  · exact Expr.exists_toJson (Expr.isWhole_distributeIn h)
  · exact Expr.exists_toJson (encodable_differentiate h).isWhole

/-- A tree with a missing operand is answered with an error, a product with a result that is written. -/
theorem handle_isResult_or_isError_operand :
    (Tool.handle {} (⟨"terms", [("expr", .obj [("type", .str "pending")])]⟩ :
      ToolRequest Float)).IsError ∧
    (Tool.handle {} (⟨"terms", [("expr", .str "x*y")]⟩ : ToolRequest Float)).IsResult ∧
    ∃ j, (Expr.mul (.var "x") (.var "y") : Expr Float).toJson = .ok j := by
  have hparse : Expr.parse (Utf8.bytes "x*y") = .ok (.mul (.var "x") (.var "y") : Expr Float) := by
    decide +kernel
  have herror : (Tool.handle {} (⟨"terms", [("expr", .obj [("type", .str "pending")])]⟩ :
      ToolRequest Float)).error ≠ "" := by decide +kernel
  have hresult : (Tool.handle {} (⟨"terms", [("expr", .str "x*y")]⟩ : ToolRequest Float)).error =
      "" := by decide +kernel
  obtain ⟨hanswer, hwritten, -⟩ := handle_isResult_or_isError (α := Float)
  exact ⟨(hanswer _ _).resolve_left fun h => herror h.1,
    (hanswer _ _).resolve_right fun h => h.1 hresult, hwritten _ _ hparse⟩

end Fluxion
