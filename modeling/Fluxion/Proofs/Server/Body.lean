import Fluxion.Proofs.Json.Spelling
import Fluxion.Server

/-!
# What a tool call accepts

A body that is read to its end is answered with status 200 exactly when it starts with a JSON value that
denotes a request and the next visible character, if there is one, is a closing bracket; such a bracket is
taken for the end of the stream. Every other body is refused with status 400 before any tool runs, and one
that goes on behind a request with anything else is refused for its trailing data.
-/

namespace Fluxion.Server

open Json

variable {limit : ℤ} {body : List UInt8} {cs rest : List Char} {request : ToolRequest Float}

/-- The text starts with a JSON value that denotes a request; the rest follows the value. -/
def Starts (cs : List Char) (request : ToolRequest Float) (rest : List Char) : Prop :=
  ∃ before text j, cs = before ++ (text ++ rest) ∧ Blank before ∧ Spelled 0 (.value j) text ∧
    requestOfJson j = .ok request

/-- Nothing visible follows, or a closing bracket does. -/
def Passes (rest : List Char) : Prop :=
  Blank rest ∨ ∃ ws c more, rest = ws ++ c :: more ∧ Blank ws ∧ (c = ']' ∨ c = '\x7d')

/-- The text of a body. -/
def textOf (body : List UInt8) : List Char := (Utf8.decode body).toList

theorem checkRest_cases (rest : List Char) :
    Passes rest ∧ checkRest false rest = .ok () ∨
      ¬Passes rest ∧ checkRest false rest = .error .trailing := by
  obtain ⟨ws, hws, hrest⟩ := exists_blank_skipSpace rest
  cases hskip : skipSpace rest with
  | nil =>
    rw [hskip, List.append_nil] at hrest
    refine Or.inl ⟨Or.inl (hrest ▸ hws), ?_⟩
    rw [checkRest, hskip]
    rfl
  | cons c more =>
    rw [hskip] at hrest
    by_cases hc : c = ']' ∨ c = '\x7d'
    · refine Or.inl ⟨Or.inr ⟨ws, c, more, hrest, hws, hc⟩, ?_⟩
      rw [checkRest, hskip]
      rcases hc with rfl | rfl <;> rfl
    · refine Or.inr ⟨?_, ?_⟩
      · rintro (hblank | ⟨ws', c', more', rfl, hws', hc'⟩)
        · rw [hblank.skipSpace_eq_nil] at hskip
          cases hskip
        · have hvisible : isSpace c' = false := by rcases hc' with rfl | rfl <;> rfl
          rw [hws'.skipSpace_eq hvisible] at hskip
          cases hskip
          exact hc hc'
      · rw [checkRest, hskip]
        split
        · rename_i heq
          cases heq
        · rename_i heq
          cases heq
          exact absurd (Or.inl rfl) hc
        · rename_i heq
          cases heq
          exact absurd (Or.inr rfl) hc
        · rfl

/-- A request is no number. -/
theorem isNumber_of_requestOfJson {j : Json NumberLiteral} (h : requestOfJson j = .ok request) :
    j.isNumber = false := by
  cases j with
  | num n => cases h
  | _ => rfl

theorem Starts.exists_read (h : Starts cs request rest) :
    ∃ j, Json.read cs = .ok (j, rest) ∧ requestOfJson j = .ok request := by
  obtain ⟨before, text, j, rfl, hbefore, hspelled, hrequest⟩ := h
  refine ⟨j, hspelled.read_eq hbefore fun hnumber => ?_, hrequest⟩
  rw [isNumber_of_requestOfJson hrequest] at hnumber
  cases hnumber

theorem starts_of_read {j : Json NumberLiteral} (hread : Json.read cs = .ok (j, rest))
    (hrequest : requestOfJson j = .ok request) : Starts cs request rest := by
  obtain ⟨before, text, hcs, hbefore, hspelled⟩ := spelled_of_read hread
  exact ⟨before, text, j, hcs, hbefore, hspelled, hrequest⟩

section Limit

variable (hlen : (body.length : ℤ) ≤ limit)
include hlen

theorem available_eq : (Utf8.decode (body.take limit.toNat)).toList = textOf body := by
  rw [List.take_of_length_le (by omega), textOf]

/-- Behind a value, the value and what follows it decide. -/
theorem readRequest_of_read {j : Json NumberLiteral} (hread : Json.read (textOf body) = .ok (j, rest)) :
    readRequest limit body =
      (requestOfJson j).bind fun request => (checkRest false rest).bind fun _ => .ok request := by
  have hcut : decide (limit.toNat < body.length) = false := decide_eq_false (by omega)
  rw [readRequest, available_eq hlen, hread, hcut]
  rfl

theorem readRequest_of_error {e : ReadError} (hread : Json.read (textOf body) = .error e) :
    ∃ cause, readRequest limit body = .error cause := by
  rw [readRequest, available_eq hlen, hread]
  cases e with
  | malformed => exact ⟨_, rfl⟩
  | truncated =>
    dsimp only
    split
    · exact ⟨_, rfl⟩
    · split
      · exact ⟨_, rfl⟩
      · exact ⟨_, rfl⟩

/-- What follows a request decides whether it is read. -/
theorem readRequest_of_starts (h : Starts (textOf body) request rest) :
    (Passes rest → readRequest limit body = .ok request) ∧
      (¬Passes rest → readRequest limit body = .error .trailing) := by
  obtain ⟨j, hread, hrequest⟩ := h.exists_read
  rw [readRequest_of_read hlen hread, hrequest]
  rcases checkRest_cases rest with ⟨hpasses, hcheck⟩ | ⟨hpasses, hcheck⟩
  · rw [hcheck]
    exact ⟨fun _ => rfl, fun h => absurd hpasses h⟩
  · rw [hcheck]
    exact ⟨fun h => absurd h hpasses, fun _ => rfl⟩

/-- Only what starts a body is read as a request. -/
theorem exists_starts_of_readRequest (h : readRequest limit body = .ok request) :
    ∃ rest, Starts (textOf body) request rest ∧ Passes rest := by
  cases hread : Json.read (textOf body) with
  | error e =>
    obtain ⟨cause, hcause⟩ := readRequest_of_error hlen hread
    rw [hcause] at h
    cases h
  | ok p =>
    obtain ⟨j, rest⟩ := p
    rw [readRequest_of_read hlen hread] at h
    obtain ⟨request', hrequest, h⟩ := bind_eq_ok.mp h
    obtain ⟨_, hcheck, h⟩ := bind_eq_ok.mp h
    cases h
    refine ⟨rest, starts_of_read hread hrequest, ?_⟩
    rcases checkRest_cases rest with ⟨hpasses, -⟩ | ⟨-, herror⟩
    · exact hpasses
    · rw [herror] at hcheck
      cases hcheck

end Limit

theorem canonicalPath_tool : canonicalPath "/tool" = "/tool" := by
  have hsplit : "/tool".splitOn "/" = ["", "tool"] := by
    simp +decide [String.splitOn, String.splitOnAux]
  unfold canonicalPath Path.clean Path.names
  simp only [show Path.isRooted "/tool" = true by decide +kernel, if_true, hsplit]
  decide +kernel

/-- A call of a tool is sent on to the handler of tool calls. -/
theorem route_tool (options : Options) (limit : ℤ) (body : List UInt8) :
    route options limit "POST" "/tool" body = handleTool options limit body := by
  have hpath : pathOf "/tool" = "/tool" := by decide +kernel
  unfold route
  simp only [hpath, canonicalPath_tool, bne_self_eq_false, Bool.false_eq_true, if_false, beq_self_eq_true,
    if_true]

/-- A body within the limit is answered with status 200 exactly when it consists of a JSON value that denotes
a request and, apart from white space, nothing or a closing bracket with anything behind it. If something else
follows a request, it is refused as trailing data, and no body that is refused reaches a tool. -/
theorem tool_status_eq_ok_iff (options : Options) (hlen : (body.length : ℤ) ≤ limit) :
    ((route options limit "POST" "/tool" body).status = 200 ↔
        ∃ request rest, Starts (textOf body) request rest ∧ Passes rest) ∧
      (∀ request rest, Starts (textOf body) request rest →
        (Passes rest → route options limit "POST" "/tool" body =
          ⟨200, jsonType, .tool (Tool.handle options request)⟩) ∧
        (¬Passes rest → route options limit "POST" "/tool" body =
          ⟨400, jsonType, .refused .trailing⟩)) ∧
      ((route options limit "POST" "/tool" body).status ≠ 200 →
        ∃ cause, route options limit "POST" "/tool" body = ⟨400, jsonType, .refused cause⟩) := by
  rw [route_tool, handleTool]
  refine ⟨⟨?_, ?_⟩, ?_, ?_⟩
  · intro hstatus
    cases hread : readRequest limit body with
    | error cause =>
      rw [hread] at hstatus
      cases hstatus
    | ok request =>
      obtain ⟨rest, hstarts, hpasses⟩ := exists_starts_of_readRequest hlen hread
      exact ⟨request, rest, hstarts, hpasses⟩
  · rintro ⟨request, rest, hstarts, hpasses⟩
    rw [(readRequest_of_starts hlen hstarts).1 hpasses]
  · intro request rest hstarts
    obtain ⟨hread, herror⟩ := readRequest_of_starts hlen hstarts
    refine ⟨fun hpasses => ?_, fun hpasses => ?_⟩
    · rw [hread hpasses]
    · rw [herror hpasses]
  · intro hstatus
    cases hread : readRequest limit body with
    | error cause => exact ⟨cause, rfl⟩
    | ok request =>
      rw [hread] at hstatus
      exact absurd rfl hstatus

/-- A second value behind the request is trailing data. -/
theorem tool_status_eq_ok_iff_second_value :
    let body := Utf8.bytes "\x7b\"tool\":\"parse\"\x7d \x7b\x7d"
    let response := route {} 1048576 "POST" "/tool" body
    (body.length : ℤ) ≤ 1048576 ∧
      (∃ request rest, Starts (textOf body) request rest ∧ ¬Passes rest) ∧
      response = ⟨400, jsonType, .refused .trailing⟩ ∧
      ¬∃ request rest, Starts (textOf body) request rest ∧ Passes rest := by
  intro body response
  have hlen : (body.length : ℤ) ≤ 1048576 := by decide +kernel
  have hread : (Json.read (textOf body)).toOption.map (fun p => ((requestOfJson p.1).isOk, p.2)) =
      some (true, [' ', '\x7b', '\x7d']) := by decide +kernel
  cases hvalue : Json.read (textOf body) with
  | error e =>
    rw [hvalue] at hread
    cases hread
  | ok p =>
    rw [hvalue] at hread
    obtain ⟨hok, hrest⟩ := Prod.mk.inj (Option.some.inj hread)
    obtain ⟨request, hrequest⟩ := exists_ok_of_isOk hok
    have hstarts : Starts (textOf body) request p.2 := starts_of_read hvalue hrequest
    have hpasses : ¬Passes p.2 := by
      rcases checkRest_cases p.2 with ⟨-, hcheck⟩ | ⟨hpasses, -⟩
      · rw [hrest] at hcheck
        cases hcheck
      · exact hpasses
    obtain ⟨hiff, hresponse, -⟩ := tool_status_eq_ok_iff {} hlen
    have hrefused := (hresponse request p.2 hstarts).2 hpasses
    refine ⟨hlen, ⟨request, p.2, hstarts, hpasses⟩, hrefused, fun hpass => ?_⟩
    have hstatus := hiff.mpr hpass
    rw [hrefused] at hstatus
    cases hstatus

/-- A bracket that closes nothing is let through, although the body is then no JSON value. -/
theorem stray_bracket_passes :
    let body := Utf8.bytes "\x7b\"tool\":\"parse\",\"params\":\x7b\"expr\":\"x\"\x7d\x7d]"
    (body.length : ℤ) ≤ 1048576 ∧ (route {} 1048576 "POST" "/tool" body).status = 200 ∧
      ¬∃ before text after j, textOf body = before ++ (text ++ after) ∧ Blank before ∧ Blank after ∧
        Spelled 0 (.value j) text := by
  intro body
  have hlen : (body.length : ℤ) ≤ 1048576 := by decide +kernel
  have hrest : (Json.read (textOf body)).toOption.map Prod.snd = some [']'] := by decide +kernel
  have hok : (readRequest 1048576 body).isOk = true := by decide +kernel
  refine ⟨hlen, ?_, ?_⟩
  · obtain ⟨request, hrequest⟩ := exists_ok_of_isOk hok
    rw [route_tool, handleTool, hrequest]
  · rintro ⟨before, text, after, j, htext, hbefore, hafter, hspelled⟩
    have hread : Json.read (textOf body) = .ok (j, after) := by
      rw [htext]
      refine hspelled.read_eq hbefore fun _ => ?_
      rw [← List.append_nil after]
      exact hafter.not_continues fun c hc => absurd hc (Option.not_mem_none c)
    rw [hread] at hrest
    obtain rfl : after = [']'] := Option.some.inj hrest
    exact absurd (hafter ']' (List.mem_cons_self ..)) (by decide)

end Fluxion.Server
