import Xyberos.Ai.Adapter
import Xyberos.Ai.Facade

/-!
# Xyberos.Ai.Provided — the adapter as the provider of a facade

The contracts of the facade and those of the adapter are the same classes: the facade's texts are texts without
surrogates, as its callers write them, and the adapter's are whatever a service sends.  A chat that returns, returns what
the service said (`chat_spoken`), and what a facade says is read back if the service sends it back
(`provided_round_trip`).
-/

set_option autoImplicit false

namespace Xyberos.Ai.Adapter

open Json Proc

variable {F V : Type}

/-! ## From the facade -/

def ToolCall.ofFacade (call : Ai.ToolCall F) : ToolCall F := ⟨Str.ofString call.name, call.arguments⟩

def Message.ofFacade (message : Ai.Message F) : Message F where
  role := message.role
  content := Str.ofString message.content
  toolCalls := message.toolCalls.map ToolCall.ofFacade

def ToolSpec.ofFacade (tool : Ai.ToolSpec F) : ToolSpec F where
  name := Str.ofString tool.name
  description := Str.ofString tool.description
  parameters := tool.parameters

def ChatRequest.ofFacade (request : Ai.ChatRequest F) : ChatRequest F where
  messages := request.messages.map Message.ofFacade
  responseSchema := request.responseSchema
  tools := request.tools.map ToolSpec.ofFacade

/-! ## To the facade -/

def ToolCall.toFacade (call : ToolCall F) : Ai.ToolCall F := { name := textOf call.name, arguments := call.arguments }

def Message.toFacade (message : Message F) : Ai.Message F where
  role := message.role
  content := textOf message.content
  toolCalls := message.toolCalls.map ToolCall.toFacade

def ChatResponse.toFacade (response : ChatResponse F) : Ai.ChatResponse F where
  message := response.message.toFacade
  usage := response.usage
  finishReason := response.finishReason

/-- What the provider of a facade answers. -/
def completion (answer : Except Exc (ChatResponse F)) : Completion F :=
  match answer with
  | .ok response => .response response.toFacade
  | .error error => .raised error

/-! ## There and back -/

/-- A message of the model that the adapter can carry: calls have no ids, and name their tools. -/
structure Carried (py : Platform F) (message : Ai.Message F) : Prop where
  role : message.role = .assistant
  toolName : message.toolName = none
  callId : ∀ call ∈ message.toolCalls, call.callId = none
  usable : ∀ call ∈ message.toolCalls, isBlankName py (Str.ofString call.name) = false

section Carried

variable {py : Platform F} {message : Ai.Message F}

theorem Carried.sendable (h : Carried py message) : Sendable py (Message.ofFacade message) where
  role := h.role
  usable _ hcall := by
    obtain ⟨call, hmem, rfl⟩ := List.mem_map.mp hcall
    exact h.usable call hmem

theorem toFacade_ofFacade_call {call : Ai.ToolCall F} (h : call.callId = none) :
    (ToolCall.ofFacade call).toFacade = call := by
  obtain ⟨name, arguments, callId⟩ := call
  obtain rfl : callId = none := h
  rw [ToolCall.ofFacade, ToolCall.toFacade, textOf_ofString]

theorem toFacade_ofFacade (h : Carried py message) : (Message.ofFacade message).toFacade = message := by
  obtain ⟨role, content, toolCalls, toolName⟩ := message
  obtain rfl : toolName = none := h.toolName
  have hcalls : (toolCalls.map ToolCall.ofFacade).map ToolCall.toFacade = toolCalls := by
    rw [List.map_map]
    conv_rhs => rw [← List.map_id toolCalls]
    exact List.map_congr_left fun call hcall => toFacade_ofFacade_call (h.callId call hcall)
  rw [Message.ofFacade, Message.toFacade, textOf_ofString, hcalls]

/-- **A message that the facade sends, and the service sends back, is what the facade is answered.** -/
theorem provided_round_trip {settings : OllamaSettings F} {response : Response F} {data : Value F}
    (h : Carried py message) (hstatus : response.status < 400) (hload : py.loads response.text = .ok data)
    (herror : isNull (getKeyword "error" data) = true)
    (hdata : getKeyword "message" data = messagePayload (Message.ofFacade message)) :
    ∃ r, completion (chatOutcome settings py response) = .response r ∧ r.message = message := by
  obtain ⟨r, hr, hmessage⟩ := chatOutcome_sent h.sendable hstatus hload herror hdata
  refine ⟨r.toFacade, ?_, ?_⟩
  · rw [hr, completion]
  · rw [ChatResponse.toFacade, hmessage, toFacade_ofFacade h]

end Carried

/-! ## A chat through the adapter -/

/-- The provider is the adapter: it raises, or makes of an answer of the service what the adapter makes of it. -/
def Provides (settings : OllamaSettings F) (py : Platform F) (service : Value F → Response F → Prop) :
    (q : Ask F V) → q.Reply → Prop
  | .complete request, answer => (∃ e, answer = .raised e) ∨
      ∃ response, service (chatPayload settings (ChatRequest.ofFacade request) false) response ∧
        answer = completion (chatOutcome settings py response)
  | _, _ => True

theorem completion_eq_response {answer : Except Exc (ChatResponse F)} {r : Ai.ChatResponse F}
    (h : completion answer = .response r) : ∃ spoken, answer = .ok spoken ∧ r = spoken.toFacade := by
  cases answer with
  | error e => cases h
  | ok spoken =>
    cases h
    exact ⟨spoken, rfl, rfl⟩

/-- What is accepted differs from the response in what is structured. -/
theorem accepted_ok {facade : AIFacade} {py : Host F} {request : Ai.ChatRequest F} {response r : Ai.ChatResponse F}
    (h : facade.accepted py request response = .ok r) : ∃ structured, r = { response with structured } := by
  unfold AIFacade.accepted at h
  split_ifs at h
  cases hpayload : AIFacade.validatedPayload py request response with
  | error e =>
    rw [hpayload] at h
    cases h
  | ok payload =>
    rw [hpayload] at h
    obtain rfl := Except.ok.inj h
    cases payload with
    | none => exact ⟨response.structured, rfl⟩
    | some structured => exact ⟨structured, rfl⟩

/-- **A chat that returns, returns what the body of an answer says that the service gave to this request.** -/
theorem chat_spoken {settings : OllamaSettings F} {py : Platform F} {service : Value F → Response F → Prop}
    {facade : AIFacade} {request : Ai.ChatRequest F} {l : Transcript F V} {r : Ai.ChatResponse F}
    (hrun : Traced (Provides settings py service) (facade.chat py.toHost request) l (.ok r)) :
    ∃ response spoken, service (chatPayload settings (ChatRequest.ofFacade request) false) response ∧
      Spoken settings py response spoken ∧ r = { spoken.toFacade with structured := r.structured } := by
  have hchatted := yields_chat request l _ hrun
  generalize hend : Except.ok r = x at hchatted
  cases hchatted with
  | refused e => cases hend
  | late left e => cases hend
  | failed left unlike allowed e => cases hend
  | answered left answer allowed =>
    rcases allowed with ⟨e, he⟩ | ⟨response, hservice, hanswer⟩
    · cases he
    · obtain ⟨spoken, hspoken, rfl⟩ := completion_eq_response hanswer.symm
      obtain ⟨structured, rfl⟩ := accepted_ok hend.symm
      exact ⟨response, spoken, hservice, chatOutcome_ok_iff.mp hspoken, rfl⟩

end Xyberos.Ai.Adapter
