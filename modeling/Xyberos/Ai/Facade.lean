import Xyberos.Ai.Tools
import Xyberos.Ai.Validity

/-!
# Xyberos.Ai.Facade — chat calls, structured calls, and the tool loop

`AIFacade` over a provider that answers what it likes.  A structured call returns the payload of a response that conforms
to the schema of the request, unless the payload is `null`: `structured` takes it for none at all (`answers_iff`).
-/

set_option autoImplicit false

namespace Xyberos.Ai

open Json Proc

variable {F V : Type}

/-! ## `AIFacade` -/

def aiUnsupportedCapabilityError (message : String) : Exc := xyberosError "AIUnsupportedCapabilityError" ["AIError"] message

def aiInvalidPayloadError (message : String) : Exc :=
  xyberosError "AIInvalidPayloadError" ["AITransportError", "AIError", "TransientError"] message

def aiTimeoutError (message : String) : Exc :=
  xyberosError "AITimeoutError" ["AITransportError", "AIError", "TransientError"] message

def aiRefusalError (message : String) : Exc := xyberosError "AIRefusalError" ["AIError"] message

/-- `AIFacade`: what its provider is, and how a number of seconds is written (`:g`). -/
structure AIFacade where
  name : String
  model : String
  chats : Bool
  capabilities : Option ModelCapabilities
  formatG : ℚ → String

namespace AIFacade

variable (facade : AIFacade)

/-- The property `capabilities`. -/
def declared : Except Exc ModelCapabilities :=
  match facade.capabilities with
  | some capabilities => .ok capabilities
  | none => .error (aiUnsupportedCapabilityError
      "the AI provider does not declare capabilities, so no AI feature can be trusted")

/-- `_check_request` -/
def checkRequest (request : ChatRequest F) : Except Exc Unit := do
  if !facade.chats then .error (aiUnsupportedCapabilityError "the AI provider does not implement chat()")
  let capabilities ← facade.declared
  if !request.tools.isEmpty && !capabilities.tools then
    .error (aiUnsupportedCapabilityError ("the request offers tools but this model does not claim tool support; declare " ++
      "the capability on the provider before relying on it"))
  if request.responseSchema.isSome && !capabilities.structuredOutput then
    .error (aiUnsupportedCapabilityError ("the request asks for a response schema but this model does not claim " ++
      "structured output support; declare the capability on the provider before relying on it"))

/-- `_budget` -/
def budget (timeout : Option ℚ) : Chat F V (Option ℚ) := do
  let remaining : Option ℚ ← ask .remaining
  return match remaining, timeout with
    | none, timeout => timeout
    | some remaining, none => some remaining
    | some remaining, some timeout => some (min timeout remaining)

/-- `_await_budget`; without a budget, the message of its `TimeoutError` cannot be written. -/
def awaitBudget (budget : Option ℚ) (request : ChatRequest F) : Chat F V (Completion F) :=
  if budget.any (· ≤ 0) then
    .raise (aiTimeoutError s!"no time left for the {facade.name} request: its budget was already exhausted")
  else do
    let completion : Completion F ← ask (.complete request)
    match completion with
    | .raised error =>
      if error.isInstance "TimeoutError" then
        match budget with
        | some seconds =>
          .raise (aiTimeoutError s!"the {facade.name} request exceeded its budget of {facade.formatG seconds}s")
        | none => .raise (typeError "unsupported format string passed to NoneType.__format__")
      else .raise error
    | completion => return completion

/-- `_call_provider` -/
def callProvider (request : ChatRequest F) (budget : Option ℚ) : Chat F V (ChatResponse F) := do
  match ← facade.awaitBudget budget request with
  | .response response => return response
  | .other typeName =>
    .raise (aiInvalidPayloadError s!"the {facade.name} adapter returned {typeName} instead of a ChatResponse")
  | .raised error => .raise error

/-- `_validated_payload`; `none` is `_NO_PAYLOAD`. -/
def validatedPayload (py : Host F) (request : ChatRequest F) (response : ChatResponse F) :
    Except Exc (Option (Value F)) :=
  match request.responseSchema with
  | none => .ok none
  | some schema =>
    if !response.message.toolCalls.isEmpty then .ok none
    else
      match py.loads response.message.content.toList with
      | .error error =>
        if error.isInstance "JSONDecodeError" then
          .error (aiInvalidPayloadError (s!"the model returned content that is not JSON ({error.message}); retry the " ++
            "call or adjust the prompt"))
        else .error error
      | .ok payload => do
        let payload ← validatePayload "the model response" py payload schema
        return some payload

/-- `chat` -/
def chat (py : Host F) (request : ChatRequest F) : Chat F V (ChatResponse F) := do
  ofExcept (facade.checkRequest request)
  let budget ← budget request.timeout
  let response ← facade.callProvider request budget
  if response.finishReason = some .refusal then
    let model := textOr "<unset>" facade.model
    .raise (aiRefusalError s!"the model {model} refused the request")
  else
    let payload ← ofExcept (validatedPayload py request response)
    return payload.elim response fun structured => { response with structured }

/-- `structured` -/
def structured (py : Host F) (request : ChatRequest F) : Chat F V (Value F) :=
  if request.responseSchema.isNone then .raise (aiRequestError "a structured call needs a response_schema")
  else do
    let response ← facade.chat py request
    if isNull response.structured then
      .raise (aiSchemaError ("the response carried no structured payload; a response that requests tools is never " ++
        "validated against a schema"))
    else return response.structured

/-- The rounds of `chat_with_tools`, the next one of this number, with `left` of them to go.  A round returns the response
and the number of the last event. -/
def toolRounds (py : Host F) (request : ChatRequest F) (tools : ToolSet F) (maxRounds : ℕ) :
    ℕ → ℕ → List (Message F) → Usage → ℕ → Chat F V (ChatResponse F × ℕ)
  | 0, _, _, _, _ => .raise (assertionError "unreachable: the tool loop always returns or raises")
  | left + 1, round, messages, usage, sequence => do
    let response ← facade.chat py { request with messages, tools := tools.specs }
    let usage := usage + response.usage
    match response.message.toolCalls with
    | [] => return ({ response with usage, rounds := round }, sequence)
    | call :: calls =>
      if round = maxRounds then
        .raise (aiToolError (s!"the model asked for {reprStr call.name} after {maxRounds} round(s), which is the " ++
          "configured limit; raise max_rounds or move the orchestration into a workflow"))
      else
        let (results, sequence) ← tools.invokeAll py sequence (call :: calls)
        let answers ← results.mapM fun result => do
          let text ← result.render
          return Message.toolResult result.tool text
        toolRounds py request tools maxRounds left (round + 1) (messages ++ response.message :: answers) usage sequence

/-- `chat_with_tools` -/
def chatWithTools (py : Host F) (request : ChatRequest F) (tools : ToolSet F) (maxRounds sequence : ℕ) :
    Chat F V (ChatResponse F × ℕ) :=
  if maxRounds < 1 then .raise (aiRequestError "max_rounds must be at least 1")
  else do
    let capabilities ← ofExcept facade.declared
    if !capabilities.tools then .raise (aiUnsupportedCapabilityError "this model does not claim tool support")
    else facade.toolRounds py request tools maxRounds maxRounds 1 request.messages {} sequence

end AIFacade

/-! ## What a chat call exchanges -/

/-- What a conversation exchanged with its surroundings. -/
abbrev Transcript (F V : Type) := List (Exchange (Ask.Reply (F := F) (V := V)))

/-- `chat` from the response of the provider on. -/
def AIFacade.accepted (facade : AIFacade) (py : Host F) (request : ChatRequest F) (response : ChatResponse F) :
    Except Exc (ChatResponse F) :=
  if response.finishReason = some .refusal then
    let model := textOr "<unset>" facade.model
    .error (aiRefusalError s!"the model {model} refused the request")
  else do
    let payload ← validatedPayload py request response
    return payload.elim response fun structured => { response with structured }

/-- The exchanges of a chat call whose requests are answered as `A` allows, and how it ends. -/
inductive Chatted (facade : AIFacade) (py : Host F) (A : (q : Ask F V) → q.Reply → Prop) (request : ChatRequest F) :
    Transcript F V → Except Exc (ChatResponse F) → Prop
  | refused (e : Exc) : Chatted facade py A request [] (.error e)
  | late (left : Option ℚ) (e : Exc) : Chatted facade py A request [⟨.remaining, left⟩] (.error e)
  | failed (left : Option ℚ) {completion : Completion F} (unlike : ∀ response, completion ≠ .response response)
      (allowed : A (.complete request) completion) (e : Exc) :
      Chatted facade py A request [⟨.remaining, left⟩, ⟨.complete request, completion⟩] (.error e)
  | answered (left : Option ℚ) (response : ChatResponse F) (allowed : A (.complete request) (.response response)) :
      Chatted facade py A request [⟨.remaining, left⟩, ⟨.complete request, .response response⟩]
        (facade.accepted py request response)

section Chatting

variable {facade : AIFacade} {py : Host F} {A : (q : Ask F V) → q.Reply → Prop}

/-- The provider is asked at most once, and its response is what the call returns. -/
theorem yields_chat (request : ChatRequest F) : Yields A (facade.chat py request) (Chatted facade py A request) := by
  unfold AIFacade.chat
  refine yields_bind.mpr (yields_ofExcept.mpr ?_)
  cases facade.checkRequest request with
  | error e => exact .refused e
  | ok _ =>
    refine yields_bind.mpr (yields_bind_request.mpr fun left _ => yields_pure.mpr ?_)
    refine yields_bind.mpr (yields_bind.mpr ?_)
    unfold AIFacade.awaitBudget
    split_ifs
    · -- no time is left
      exact yields_raise.mpr (.late left _)
    · refine yields_bind_request.mpr fun completion hallowed => ?_
      cases completion with
      | raised error =>
        dsimp only
        split_ifs
        · split
          · exact yields_raise.mpr (.failed left (by simp) hallowed _)
          · exact yields_raise.mpr (.failed left (by simp) hallowed _)
        · exact yields_raise.mpr (.failed left (by simp) hallowed _)
      | other typeName => exact yields_pure.mpr (yields_raise.mpr (.failed left (by simp) hallowed _))
      | response response =>
        refine yields_pure.mpr (yields_pure.mpr ?_)
        have hanswered : Chatted facade py A request _ _ := .answered left response hallowed
        unfold AIFacade.accepted at hanswered
        rw [ends_ok]
        by_cases hrefusal : response.finishReason = some .refusal
        · rw [if_pos hrefusal] at hanswered ⊢
          exact yields_raise.mpr hanswered
        · rw [if_neg hrefusal] at hanswered ⊢
          refine yields_bind.mpr (yields_ofExcept.mpr ?_)
          cases hpayload : AIFacade.validatedPayload py request response with
          | error e =>
            rw [hpayload] at hanswered
            exact hanswered
          | ok payload =>
            rw [hpayload] at hanswered
            exact yields_pure.mpr hanswered

end Chatting

/-! ## Structured calls -/

/-- The provider answers with this response. -/
def Answering (response : ChatResponse F) : (q : Ask F V) → q.Reply → Prop
  | .complete _, completion => completion = .response response
  | _, _ => True

/-- The provider was asked. -/
def Consulted (l : Transcript F V) : Prop := ∃ request completion, (⟨.complete request, completion⟩ : Exchange Ask.Reply) ∈ l

/-- A structured call ends with the payload if it conforms, and with the error for what is wrong with it if not. -/
structure Answers (py : Host F) (schema : Value F) (content : String) (r : Except Exc (Value F)) : Prop where
  conforms : ∀ v, py.loads content.toList = .ok v → Satisfies py.toFloats v schema → r = .ok v
  violates : ∀ v, py.loads content.toList = .ok v → ¬ Satisfies py.toFloats v schema →
    ∃ text, r = .error (aiSchemaError text)
  unreadable : (∀ v, py.loads content.toList ≠ .ok v) → ∃ text, r = .error (aiInvalidPayloadError text)

/-- The content is read, or is no JSON for the reader; a payload that conforms is not `null` and is misjudged nowhere; one
that does not is found out, by a first demand whose message can be written. -/
structure Judged (py : Host F) (schema : Value F) (content : String) : Prop where
  conforms : ∀ v, py.loads content.toList = .ok v → Satisfies py.toFloats v schema →
    isNull v = false ∧ ∀ d ∈ allDemands "the model response" py v schema, ¬ d.misjudged
  violates : ∀ v, py.loads content.toList = .ok v → ¬ Satisfies py.toFloats v schema → ∃ before d after text,
    allDemands "the model response" py v schema = before ++ d :: after ∧ (∀ b ∈ before, ¬ b.Found) ∧ d.Found ∧
    d.message = .ok text
  unreadable : ∀ e, py.loads content.toList = .error e → e.isInstance "JSONDecodeError" = true

section Structured

variable {facade : AIFacade} {py : Host F} {request : ChatRequest F} {response : ChatResponse F}

/-- What follows the answer of the provider. -/
def payloadOf (py : Host F) (request : ChatRequest F) (response : ChatResponse F) : Except Exc (Value F) := do
  let payload ← AIFacade.validatedPayload py request response
  let structured := payload.getD response.structured
  if isNull structured then
    .error (aiSchemaError ("the response carried no structured payload; a response that requests tools is never " ++
      "validated against a schema"))
  else return structured

theorem payloadOf_eq (facade : AIFacade) (hrefusal : response.finishReason ≠ some .refusal) :
    payloadOf py request response = (do
      let accepted ← facade.accepted py request response
      if isNull accepted.structured then
        .error (aiSchemaError ("the response carried no structured payload; a response that requests tools is never " ++
          "validated against a schema"))
      else return accepted.structured) := by
  unfold payloadOf AIFacade.accepted
  rw [if_neg hrefusal]
  cases AIFacade.validatedPayload py request response with
  | error e => rfl
  | ok payload => cases payload <;> rfl

/-- A structured call in which the provider answered with a response ends with its payload. -/
theorem yields_structured (hschema : request.responseSchema.isSome) (hrefusal : response.finishReason ≠ some .refusal) :
    Yields (Answering response) (facade.structured (V := V) py request) fun l r =>
      Consulted l → r = payloadOf py request response := by
  have hnone : request.responseSchema.isNone = false := Option.isNone_eq_false_iff.mpr hschema
  unfold AIFacade.structured
  rw [hnone, if_neg Bool.false_ne_true]
  refine yields_bind.mpr ((yields_chat request).mono fun l r hl => ?_)
  cases hl with
  | refused e => exact fun ⟨_, _, hmem⟩ => nomatch hmem
  | late left e =>
    rintro ⟨request', completion, hmem⟩
    cases List.mem_singleton.mp hmem
  | failed left unlike allowed e => exact (unlike response allowed).elim
  | answered left response' allowed =>
    obtain rfl : response' = response := Completion.response.inj allowed
    rw [payloadOf_eq facade hrefusal]
    cases facade.accepted py request response' with
    | error e => exact fun _ => rfl
    | ok accepted =>
      rw [ends_ok]
      by_cases hnull : isNull accepted.structured = true
      · rw [if_pos hnull]
        refine yields_raise.mpr fun _ => ?_
        show _ = if isNull accepted.structured then _ else _
        rw [if_pos hnull]
      · rw [if_neg hnull]
        refine yields_pure.mpr fun _ => ?_
        show _ = if isNull accepted.structured then _ else _
        rw [if_neg hnull]
        rfl

end Structured

/-! ### A facade to compute with -/

def plainFacade : AIFacade where
  name := "provider"
  model := "model"
  chats := true
  capabilities := some { tools := true, structuredOutput := true }
  formatG _ := ""

/-- A request for a payload of this schema. -/
def requestFor (schema : Value Empty) : ChatRequest Empty :=
  { messages := [{ role := .user, content := "?" }], responseSchema := some schema }

def responseOf (content : String) : ChatResponse Empty := { message := { role := .assistant, content } }

/-- There is no deadline, and the provider answers with this response. -/
def answering (response : ChatResponse Empty) : (q : Ask Empty Unit) → q.Reply
  | .remaining => none
  | .complete _ => .response response
  | .emit _ => ()
  | .run _ _ _ => .returned ()
  | .str _ => .ok ""
  | .dumps _ => .ok ""

theorem allowed_answering (response : ChatResponse Empty) (q : Ask Empty Unit) :
    Answering response q (answering response q) := by
  cases q <;> trivial

/-- A structured call that is answered with this content. -/
def structuredRun (schema : Value Empty) (content : String) : Transcript Empty Unit × Except Exc (Value Empty) :=
  (plainFacade.structured wholeNumbers (requestFor schema)).replay (answering (responseOf content))

theorem consulted_structuredRun (schema : Value Empty) (content : String) :
    Consulted (structuredRun schema content).1 :=
  ⟨_, _, .tail _ (.head _)⟩

end Xyberos.Ai
