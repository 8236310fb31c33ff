import Xyberos.Ai.Facade
import Xyberos.Ai.Ollama
import Xyberos.Json.Loads
import Mathlib.Data.List.Infix

/-!
# Xyberos.Ai.Adapter — conversations on the wire

What `OllamaProvider` sends for a request, and what it makes of a response.  Texts are strings as JSON reads them.

A response is accepted exactly when its body says a message; what was accepted can be sent back, and what is sent is
read as it was (`conversation_round_trip`).  A body that is not accepted is reported by an `AIError`, unless it is
nested too deep, and the status decides whether the call is worth another attempt (`failures_normalized`).
-/

set_option autoImplicit false

namespace Xyberos.Ai.Adapter

open Json

variable {F : Type}

/-! ## The interpreter -/

/-- What the adapter uses of the interpreter. -/
structure Platform (F : Type) extends Host F, Characters where
  /-- `str.lower` -/
  lower : Str → Str
  /-- `json.loads` of a text with surrogates -/
  loadsSurrogates : Str → Except Exc (Value F)
  /-- `float` of an `int` -/
  floatOf : ℤ → Except Exc (FloatValue F)
  raises_loadsSurrogates : ∀ text, Interpreter.RaisesOnly
    (fun e => e.isInstance "ValueError" = true ∨ e = recursionError) (loadsSurrogates text)

/-- A code point that is no surrogate, as a character. -/
def toChar? (c : CodePoint) : Option Char := if c.val.isValidChar then some (Char.ofNat c.val) else none

/-- The text of a string in characters, if it has no surrogates. -/
def charsOf (s : Str) : Option (List Char) := s.mapM toChar?

namespace Platform

variable (py : Platform F)

/-- `json.loads` of a string. -/
def loadsText (s : Str) : Except Exc (Value F) := (charsOf s).elim (py.loadsSurrogates s) py.loads

/-- `str(value)` -/
def strOf : Value F → Except Exc Str
  | .scalar (.str s) => .ok s
  | value => (py.reprOf value).map Str.ofString

/-- `text in s.lower()` -/
def mentions (s : Str) (text : String) : Bool := decide (Str.ofString text <:+: py.lower s)

end Platform

/-! ## Contracts -/

/-- `ToolCall`, of a call without an id. -/
structure ToolCall (F : Type) where
  name : Str
  arguments : List (Str × Value F)

structure Message (F : Type) where
  role : Role
  content : Str := []
  toolCalls : List (ToolCall F) := []

structure ToolSpec (F : Type) where
  name : Str
  description : Str := []
  parameters : Value F

/-- `ChatRequest`, less its timeout; the schema is a dictionary. -/
structure ChatRequest (F : Type) where
  messages : List (Message F)
  model : Option Str := none
  temperature : Option (Scalar F) := none
  maxTokens : Option ℤ := none
  stop : List Str := []
  responseSchema : Option (Value F) := none
  tools : List (ToolSpec F) := []

structure ChatResponse (F : Type) where
  message : Message F
  model : Str
  usage : Usage := {}
  finishReason : Option FinishReason := none

structure EmbeddingResponse (F : Type) where
  model : Str
  embeddings : List (List (FloatValue F))
  usage : Usage := {}

structure ChatChunk where
  content : Str
  done : Bool := false
  model : Str
  usage : Option Usage := none

/-- `_RESERVED_OPTION_KEYS`. -/
def reservedOptionKeys : List String :=
  ["model", "messages", "stream", "format", "tools", "keep_alive", "options", "input"]

/-- `OllamaSettings`, less the timeouts. -/
structure OllamaSettings (F : Type) where
  model : Str
  baseUrl : String := "http://127.0.0.1:11434"
  embeddingModel : Option Str := none
  tools : Bool := false
  structuredOutput : Bool := false
  streaming : Bool := true
  minimumVersion : Str := Str.ofString "0.5.0"
  options : List (Str × Value F) := []
  options_free : ∀ m ∈ options, ∀ key ∈ reservedOptionKeys, m.1 ≠ Str.ofString key

def aiConfigurationError (message : String) : Exc := xyberosError "AIConfigurationError" ["AIError"] message

def aiTransportError (message : String) : Exc := xyberosError "AITransportError" ["AIError", "TransientError"] message

def aiRateLimitError (message : String) : Exc :=
  xyberosError "AIRateLimitError" ["AITransportError", "AIError", "TransientError"] message

def aiModelNotFoundError (message : String) : Exc := xyberosError "AIModelNotFoundError" ["AIError"] message

/-! ## What is sent -/

/-- `Role.value`. -/
def roleText : Role → String
  | .system => "system"
  | .user => "user"
  | .assistant => "assistant"
  | .tool => "tool"

/-- `dict(call.arguments)` -/
def argumentsPayload (arguments : List (Str × Value F)) : Value F := .dict (arguments.map fun m => (.str m.1, m.2))

def callPayload (call : ToolCall F) : Value F :=
  objectOf [("function", objectOf [("name", .scalar (.str call.name)), ("arguments", argumentsPayload call.arguments)])]

/-- `_message_payload`. -/
def messagePayload (message : Message F) : Value F :=
  objectOf ([("role", word (roleText message.role)), ("content", .scalar (.str message.content))] ++
    if message.toolCalls.isEmpty then [] else [("tool_calls", .list (message.toolCalls.map callPayload))])

/-- `_tool_payload`. -/
def toolPayload (tool : ToolSpec F) : Value F :=
  objectOf [("type", word "function"), ("function", objectOf [("name", .scalar (.str tool.name)),
    ("description", .scalar (.str tool.description)), ("parameters", tool.parameters)])]

/-- `a or b`, of two names. -/
def nameOr (a : Option Str) (b : Str) : Str := (a.filter fun name => !name.isEmpty).getD b

variable (settings : OllamaSettings F)

/-- The options of `_chat_payload`. -/
def chatOptions (request : ChatRequest F) : List (Str × Value F) :=
  let options := settings.options
  let options := match request.temperature with
    | some temperature => setMember (Str.ofString "temperature") (.scalar temperature) options
    | none => options
  let options := match request.maxTokens with
    | some tokens => setMember (Str.ofString "num_predict") (.scalar (.int tokens)) options
    | none => options
  if request.stop.isEmpty then options
  else setMember (Str.ofString "stop") (.list (request.stop.map fun s => .scalar (.str s))) options

/-- `_chat_payload`. -/
def chatPayload (request : ChatRequest F) (stream : Bool) : Value F :=
  let options := chatOptions settings request
  objectOf ([("model", .scalar (.str (nameOr request.model settings.model))),
      ("messages", .list (request.messages.map messagePayload)), ("stream", .scalar (.bool stream))] ++
    (if options.isEmpty then [] else [("options", argumentsPayload options)]) ++
    (request.responseSchema.toList.map fun schema => ("format", schema)) ++
    if request.tools.isEmpty then [] else [("tools", .list (request.tools.map toolPayload))])

/-! ## What is received -/

/-- A response of the service: its text, and what `response.json()` returns or raises. -/
structure Response (F : Type) where
  status : ℕ
  text : List Char
  json : Except Exc (Value F)

/-- `type(value).__name__` -/
def typeName : Value F → String
  | .scalar .none => "NoneType"
  | .scalar (.bool _) => "bool"
  | .scalar (.int _) => "int"
  | .scalar (.float _) => "float"
  | .scalar (.str _) => "str"
  | .list _ => "list"
  | .tuple _ => "tuple"
  | .dict _ => "dict"

/-- The members of a dictionary that was read. -/
def membersOf (items : List (Scalar F × Value F)) : List (Str × Value F) :=
  items.filterMap fun m =>
    match m.1 with
    | .str key => some (key, m.2)
    | _ => none

/-- `_count`. -/
def count : Value F → ℕ
  | .scalar (.int n) => n.toNat
  | _ => 0

/-- What stands for a model: the text under `model`, if there is one. -/
def modelOf (data : Value F) (default : Str) : Str :=
  match getKeyword "model" data with
  | .scalar (.str model) => if model.isEmpty then default else model
  | _ => default

variable (py : Platform F)

/-- The `ValueError` of a `json.loads` is reported by another exception. -/
def reportValueError {α : Type} (x : Except Exc α) (report : Exc → Exc) : Except Exc α :=
  match x with
  | .ok a => .ok a
  | .error e => .error (if e.isInstance "ValueError" then report e else e)

/-- `_decode_object`. -/
def decodeObject (text : List Char) (source : String) : Except Exc (Value F) := do
  let data ← reportValueError (py.loads text) fun e => aiInvalidPayloadError s!"{source} is not JSON: {e.message}"
  if isMapping data then return data
  else .error (aiInvalidPayloadError s!"{source} is {typeName data} instead of an object")

/-- The error for a model that is not there. -/
def modelNotFound (detail : Str) : Exc :=
  aiModelNotFoundError (s!"the model {reprStr (textOf settings.model)} is not available on the Ollama service " ++
    s!"({textOf detail}); pull it yourself or configure another model")

/-- `_raise_for_error_field`. -/
def raiseForErrorField (data : Value F) : Except Exc Unit :=
  match getKeyword "error" data with
  | .scalar .none => .ok ()
  | message => do
    let text ← py.strOf message
    if py.mentions text "not found" then .error (modelNotFound settings text)
    else if py.mentions text "rate limit" || py.mentions text "too many requests" then
      .error (aiRateLimitError s!"Ollama rate limited the request: {textOf text}")
    else if ["loading", "try again", "unavailable", "timeout"].any (py.mentions text) then
      .error (aiTransportError s!"Ollama is temporarily unavailable: {textOf text}")
    else .error (aiRequestError s!"Ollama reported an error it cannot retry: {textOf text}")

/-- `_error_text`. -/
def errorText (response : Response F) : Str :=
  let text := py.strip (response.text.map codeOf)
  if text.isEmpty then Str.ofString "no detail" else text.take 200

/-- `_raise_for_status`. -/
def raiseForStatus (response : Response F) (path : String) : Except Exc Unit :=
  let detail := errorText py response
  if response.status < 400 then .ok ()
  else if response.status = 429 then
    .error (aiRateLimitError s!"Ollama rate limited the call to {path}: {textOf detail}")
  else if response.status = 404 && py.mentions detail "not found" then .error (modelNotFound settings detail)
  else if 500 ≤ response.status then
    .error (aiTransportError s!"Ollama answered {response.status} for {path}: {textOf detail}")
  else .error (aiRequestError s!"Ollama rejected the call to {path} with {response.status}: {textOf detail}")

/-- `_post`, once the service has answered. -/
def received (path : String) (response : Response F) : Except Exc (Value F) := do
  raiseForStatus settings py response path
  let data ← decodeObject py response.text s!"the {path} response"
  raiseForErrorField settings py data
  return data

/-- The end of `_tool_arguments`. -/
def argumentsOf (name : Str) : Value F → Except Exc (List (Str × Value F))
  | .dict items => .ok (membersOf items)
  | _ => .error (aiInvalidPayloadError s!"the arguments of tool {reprStr (textOf name)} must be an object")

/-- `_tool_arguments`. -/
def toolArguments (name : Str) : Value F → Except Exc (List (Str × Value F))
  | .scalar .none => .ok []
  | .scalar (.str text) => do
    let value ← reportValueError (py.loadsText text) fun _ =>
      aiInvalidPayloadError s!"Ollama returned tool arguments for {reprStr (textOf name)} that are not JSON"
    argumentsOf name value
  | raw => argumentsOf name raw

/-- `not name.strip()` -/
def isBlankName (name : Str) : Bool := name.all py.isSpace

/-- `ToolCall(name, arguments)`. -/
def ToolCall.declare (name : Str) (arguments : List (Str × Value F)) : Except Exc (ToolCall F) :=
  if isBlankName py name then .error (aiRequestError "a tool call needs a non-empty tool name")
  else .ok ⟨name, arguments⟩

/-- A turn of the loop of `_tool_calls`. -/
def toolCall (item : Value F) : Except Exc (ToolCall F) :=
  if !isMapping item then .error (aiInvalidPayloadError "every Ollama tool call must be an object")
  else
    let function := getKeyword "function" item
    if !isMapping function then .error (aiInvalidPayloadError "every Ollama tool call needs a function object")
    else
      match name? (getKeyword "name" function) with
      | none => .error (aiInvalidPayloadError "every Ollama tool call needs a function name")
      | some name => do
        let arguments ← toolArguments py name (getKeyword "arguments" function)
        ToolCall.declare py name arguments

/-- `_tool_calls`. -/
def toolCalls (raw : Value F) : Except Exc (List (ToolCall F)) :=
  if isNull raw then .ok []
  else if isSequence raw then (sequence raw).mapM (toolCall py)
  else .error (aiInvalidPayloadError "Ollama tool_calls must be an array")

/-- `_finish_reason`. -/
def finishReason (data : Value F) (calls : List (ToolCall F)) : Option FinishReason :=
  let reason := getKeyword "done_reason" data
  if !calls.isEmpty then some .toolCalls
  else if isNull reason then none
  else if isWord "stop" reason then some .stop
  else if isWord "length" reason then some .length
  else some .other

/-- The response around a message. -/
def responseOf (data : Value F) (message : Message F) : ChatResponse F where
  message
  model := modelOf data settings.model
  usage := ⟨count (getKeyword "prompt_eval_count" data), count (getKeyword "eval_count" data)⟩
  finishReason := finishReason data message.toolCalls

/-- `message.get("content", "")` -/
def contentOf (message : Value F) : Value F := (member "content" message).getD (.scalar (.str []))

/-- `_chat_response`. -/
def chatResponse (data : Value F) : Except Exc (ChatResponse F) :=
  let message := getKeyword "message" data
  if !isMapping message then .error (aiInvalidPayloadError "the /api/chat response has no message object")
  else
    match contentOf message with
    | .scalar (.str content) => do
      let calls ← toolCalls py (getKeyword "tool_calls" message)
      return responseOf settings data { role := .assistant, content, toolCalls := calls }
    | _ => .error (aiInvalidPayloadError "the Ollama message content is not a string")

/-- `line.strip()` -/
def stripLine (line : List Char) : List Char :=
  let isSpace := fun c => py.isSpace (codeOf c)
  ((line.dropWhile isSpace).reverse.dropWhile isSpace).reverse

/-- `data.get("done") is True` -/
def isDone (data : Value F) : Bool :=
  match getKeyword "done" data with
  | .scalar (.bool b) => b
  | _ => false

/-- `_stream_chunk`. -/
def streamChunk (line : List Char) : Except Exc (Option ChatChunk) :=
  let text := stripLine py line
  if text.isEmpty then .ok none
  else do
    let data ← decodeObject py text "a streamed line from /api/chat"
    raiseForErrorField settings py data
    let message := getKeyword "message" data
    match if isMapping message then contentOf message else .scalar (.str []) with
    | .scalar (.str content) =>
      let usage : Usage := ⟨count (getKeyword "prompt_eval_count" data), count (getKeyword "eval_count" data)⟩
      return some ⟨content, isDone data, modelOf data settings.model, if isDone data then some usage else none⟩
    | _ => .error (aiInvalidPayloadError "Ollama streamed a message whose content is not a string")

/-- A number of an embedding. -/
def embeddingNumber : Value F → Except Exc (FloatValue F)
  | .scalar (.int n) => py.floatOf n
  | .scalar (.float x) => .ok x
  | _ => .error (aiInvalidPayloadError "Ollama returned a non-numeric embedding value")

/-- An embedding. -/
def embeddingVector (item : Value F) : Except Exc (List (FloatValue F)) :=
  if isSequence item then (sequence item).mapM (embeddingNumber py)
  else .error (aiInvalidPayloadError "every Ollama embedding must be an array of numbers")

/-- `_embedding_response`. -/
def embeddingResponse (data : Value F) (inputs : ℕ) (model : Str) : Except Exc (EmbeddingResponse F) :=
  let raw := sequence (getKeyword "embeddings" data)
  if raw.isEmpty then .error (aiInvalidPayloadError "the /api/embed response carries no embeddings")
  else do
    let vectors ← raw.mapM (embeddingVector py)
    if vectors.length ≠ inputs then
      .error (aiInvalidPayloadError s!"Ollama returned {vectors.length} embedding(s) for {inputs} input(s)")
    else return ⟨modelOf data model, vectors, ⟨count (getKeyword "prompt_eval_count" data), 0⟩⟩

/-- What becomes of an answer to a chat request. -/
def chatOutcome (response : Response F) : Except Exc (ChatResponse F) := do
  chatResponse settings py (← received settings py "/api/chat" response)

/-! ## What a body says -/

/-- The arguments of a call, in each of the forms in which they come. -/
inductive SaysArguments : Value F → List (Str × Value F) → Prop
  | absent : SaysArguments (.scalar .none) []
  | object (items : List (Scalar F × Value F)) : SaysArguments (.dict items) (membersOf items)
  | text (s : Str) (items : List (Scalar F × Value F)) (h : py.loadsText s = .ok (.dict items)) :
      SaysArguments (.scalar (.str s)) (membersOf items)

/-- A call of a tool. -/
structure SaysCall (item : Value F) (call : ToolCall F) : Prop where
  function : isMapping (getKeyword "function" item) = true
  name : getKeyword "name" (getKeyword "function" item) = .scalar (.str call.name)
  usable : isBlankName py call.name = false
  arguments : SaysArguments py (getKeyword "arguments" (getKeyword "function" item)) call.arguments

/-- The calls of a message: none, or an array of them. -/
inductive SaysCalls : Value F → List (ToolCall F) → Prop
  | absent : SaysCalls (.scalar .none) []
  | array {raw : Value F} {calls : List (ToolCall F)} (hraw : isSequence raw = true)
      (h : List.Forall₂ (SaysCall py) (sequence raw) calls) : SaysCalls raw calls

/-- A body that says a message. -/
structure Says (data : Value F) (message : Message F) : Prop where
  object : isMapping (getKeyword "message" data) = true
  content : contentOf (getKeyword "message" data) = .scalar (.str message.content)
  calls : SaysCalls py (getKeyword "tool_calls" (getKeyword "message" data)) message.toolCalls
  role : message.role = .assistant

/-- A response that is accepted: it is no failure, its text is an object without an error, and that says a message. -/
structure Spoken (response : Response F) (r : ChatResponse F) : Prop where
  status : response.status < 400
  body : ∃ data, py.loads response.text = .ok data ∧ isMapping data = true ∧ isNull (getKeyword "error" data) = true ∧
    Says py data r.message ∧ r = responseOf settings data r.message

/-- A message of the model whose calls name their tools. -/
structure Sendable (message : Message F) : Prop where
  role : message.role = .assistant
  usable : ∀ call ∈ message.toolCalls, isBlankName py call.name = false

/-- The two directions of a conversation. -/
structure RoundTrips : Prop where
  /-- what is accepted -/
  accepts : ∀ response r, chatOutcome settings py response = .ok r ↔ Spoken settings py response r
  /-- what was accepted can be sent back -/
  accepted : ∀ response r, chatOutcome settings py response = .ok r → Sendable py r.message
  /-- what is sent is read as it was, in whatever object it comes back -/
  sent : ∀ message response data, Sendable py message → response.status < 400 → py.loads response.text = .ok data →
    isNull (getKeyword "error" data) = true → getKeyword "message" data = messagePayload message →
    ∃ r, chatOutcome settings py response = .ok r ∧ r.message = message

section Reading

variable {settings py}

theorem toolArguments_ok_iff {name : Str} {raw : Value F} {arguments : List (Str × Value F)} :
    toolArguments py name raw = .ok arguments ↔ SaysArguments py raw arguments := by
  constructor
  · intro h
    unfold toolArguments at h
    split at h
    · obtain rfl := Except.ok.inj h
      exact .absent
    · next text =>
      -- a text that is itself JSON, of an object
      obtain ⟨value, hvalue, h⟩ := bind_eq_ok.mp h
      cases hload : py.loadsText text with
      | error e =>
        rw [hload] at hvalue
        cases hvalue
      | ok v =>
        rw [hload] at hvalue
        obtain rfl := Except.ok.inj hvalue
        cases v with
        | dict items =>
          obtain rfl := Except.ok.inj h
          exact .text text items hload
        | _ => cases h
    · next hnone hstr =>
      cases raw with
      | dict items =>
        obtain rfl := Except.ok.inj h
        exact .object items
      | _ => cases h
  · intro h
    cases h with
    | absent => rfl
    | object items => rfl
    | text s items hload =>
      rw [toolArguments, hload]
      rfl

theorem name?_eq_some {value : Value F} {name : Str} :
    name? value = some name ↔ value = .scalar (.str name) ∧ name ≠ [] := by
  constructor
  · intro h
    unfold name? at h
    split at h
    · split_ifs at h with hempty
      obtain rfl := Option.some.inj h
      exact ⟨rfl, hempty⟩
    · cases h
  · rintro ⟨rfl, h⟩
    exact if_neg h

/-- A function object is only found in an object. -/
theorem isMapping_of_getKeyword {key : String} {item : Value F} (h : isMapping (getKeyword key item) = true) :
    isMapping item = true := by
  cases item with
  | dict items => rfl
  | _ => cases h

theorem toolCall_ok_iff {item : Value F} {call : ToolCall F} : toolCall py item = .ok call ↔ SaysCall py item call := by
  constructor
  · intro h
    unfold toolCall at h
    split_ifs at h with hitem
    dsimp only at h
    split_ifs at h with hfunction
    rw [Bool.not_eq_true, Bool.not_eq_false'] at hfunction
    split at h
    · cases h
    · next name hname =>
      obtain ⟨arguments, harguments, h⟩ := bind_eq_ok.mp h
      unfold ToolCall.declare at h
      split_ifs at h with hblank
      obtain rfl := Except.ok.inj h
      exact ⟨hfunction, (name?_eq_some.mp hname).1, Bool.eq_false_iff.mpr hblank, toolArguments_ok_iff.mp harguments⟩
  · intro h
    -- a name that is not blank is not empty
    have hname : call.name ≠ [] := by
      intro hnil
      have hblank := h.usable
      rw [hnil] at hblank
      cases hblank
    have hnot : (!isMapping (getKeyword "function" item)) = false := by rw [h.function, Bool.not_true]
    have hitem : (!isMapping item) = false := by rw [isMapping_of_getKeyword h.function, Bool.not_true]
    unfold toolCall
    rw [hitem, if_neg Bool.false_ne_true]
    dsimp only
    rw [hnot, if_neg Bool.false_ne_true, name?_eq_some.mpr ⟨h.name, hname⟩]
    dsimp only
    rw [toolArguments_ok_iff.mpr h.arguments]
    exact if_neg (Bool.eq_false_iff.mp h.usable)

theorem toolCalls_ok_iff {raw : Value F} {calls : List (ToolCall F)} :
    toolCalls py raw = .ok calls ↔ SaysCalls py raw calls := by
  constructor
  · intro h
    unfold toolCalls at h
    split_ifs at h with hnull hseq
    · obtain rfl := Except.ok.inj h
      rw [isNull_iff.mp hnull]
      exact .absent
    · exact .array hseq ((mapM_eq_ok.mp h).imp fun _ _ => toolCall_ok_iff.mp)
  · intro h
    cases h with
    | absent => rfl
    | array hseq h =>
      have hnull : isNull raw = false := by
        cases raw with
        | scalar s => cases hseq
        | _ => rfl
      unfold toolCalls
      rw [hnull, if_neg Bool.false_ne_true, if_pos hseq]
      exact mapM_eq_ok.mpr (h.imp fun _ _ => toolCall_ok_iff.mpr)

theorem chatResponse_ok_iff {data : Value F} {r : ChatResponse F} :
    chatResponse settings py data = .ok r ↔ Says py data r.message ∧ r = responseOf settings data r.message := by
  constructor
  · intro h
    unfold chatResponse at h
    dsimp only at h
    split_ifs at h with hmessage
    rw [Bool.not_eq_true, Bool.not_eq_false'] at hmessage
    split at h
    · next content hcontent =>
      obtain ⟨calls, hcalls, h⟩ := bind_eq_ok.mp h
      obtain rfl := Except.ok.inj h
      exact ⟨⟨hmessage, hcontent, toolCalls_ok_iff.mp hcalls, rfl⟩, rfl⟩
    · cases h
  · rintro ⟨h, hr⟩
    have hmessage : (!isMapping (getKeyword "message" data)) = false := by rw [h.object, Bool.not_true]
    have hm : r.message = { role := .assistant, content := r.message.content, toolCalls := r.message.toolCalls } := by
      rw [← h.role]
    unfold chatResponse
    dsimp only
    rw [hmessage, if_neg Bool.false_ne_true, h.content]
    dsimp only
    rw [toolCalls_ok_iff.mpr h.calls]
    exact congrArg Except.ok ((congrArg (responseOf settings data) hm.symm).trans hr.symm)

theorem raiseForErrorField_ok_iff {data : Value F} :
    raiseForErrorField settings py data = .ok () ↔ isNull (getKeyword "error" data) = true := by
  rw [isNull_iff]
  constructor
  · intro h
    unfold raiseForErrorField at h
    split at h
    · assumption
    · obtain ⟨text, -, h⟩ := bind_eq_ok.mp h
      split_ifs at h
  · intro h
    rw [raiseForErrorField, h]

theorem raiseForStatus_ok_iff {response : Response F} {path : String} :
    raiseForStatus settings py response path = .ok () ↔ response.status < 400 := by
  constructor
  · intro h
    unfold raiseForStatus at h
    dsimp only at h
    split_ifs at h with hstatus
    exact hstatus
  · exact fun h => if_pos h

theorem decodeObject_ok_iff {text : List Char} {source : String} {data : Value F} :
    decodeObject py text source = .ok data ↔ py.loads text = .ok data ∧ isMapping data = true := by
  unfold decodeObject
  rw [bind_eq_ok]
  constructor
  · rintro ⟨v, hv, h⟩
    split_ifs at h with hmapping
    obtain rfl := Except.ok.inj h
    cases hload : py.loads text with
    | error e =>
      rw [hload] at hv
      cases hv
    | ok w =>
      rw [hload] at hv
      obtain rfl := Except.ok.inj hv
      exact ⟨rfl, hmapping⟩
  · rintro ⟨hload, hmapping⟩
    exact ⟨data, by rw [hload]; rfl, if_pos hmapping⟩

theorem received_ok_iff {path : String} {response : Response F} {data : Value F} :
    received settings py path response = .ok data ↔ response.status < 400 ∧ py.loads response.text = .ok data ∧
      isMapping data = true ∧ isNull (getKeyword "error" data) = true := by
  constructor
  · intro h
    obtain ⟨_, hstatus, h⟩ := bind_eq_ok.mp h
    obtain ⟨data', hdata, h⟩ := bind_eq_ok.mp h
    obtain ⟨_, herror, h⟩ := bind_eq_ok.mp h
    obtain rfl := Except.ok.inj h
    obtain ⟨hload, hmapping⟩ := decodeObject_ok_iff.mp hdata
    exact ⟨raiseForStatus_ok_iff.mp hstatus, hload, hmapping, raiseForErrorField_ok_iff.mp herror⟩
  · rintro ⟨hstatus, hload, hmapping, herror⟩
    exact bind_eq_ok.mpr ⟨(), raiseForStatus_ok_iff.mpr hstatus, bind_eq_ok.mpr
      ⟨data, decodeObject_ok_iff.mpr ⟨hload, hmapping⟩, bind_eq_ok.mpr ⟨(), raiseForErrorField_ok_iff.mpr herror, rfl⟩⟩⟩

theorem chatOutcome_ok_iff {response : Response F} {r : ChatResponse F} :
    chatOutcome settings py response = .ok r ↔ Spoken settings py response r := by
  constructor
  · intro h
    obtain ⟨data, hdata, h⟩ := bind_eq_ok.mp h
    obtain ⟨hstatus, hload, hmapping, herror⟩ := received_ok_iff.mp hdata
    exact ⟨hstatus, data, hload, hmapping, herror, chatResponse_ok_iff.mp h⟩
  · rintro ⟨hstatus, data, hload, hmapping, herror, hr⟩
    exact bind_eq_ok.mpr ⟨data, received_ok_iff.mpr ⟨hstatus, hload, hmapping, herror⟩, chatResponse_ok_iff.mpr hr⟩

end Reading

/-! ### What is sent is read -/

section Sent

variable {settings py}

/-- What a member on the right is related to. -/
theorem exists_of_forall₂ {α β : Type} {R : α → β → Prop} {l : List α} {l' : List β} (h : List.Forall₂ R l l') {b : β}
    (hb : b ∈ l') : ∃ a ∈ l, R a b := by
  induction h with
  | nil => cases hb
  | cons hab _ ih =>
    rcases List.mem_cons.mp hb with rfl | hb
    · exact ⟨_, List.mem_cons_self, hab⟩
    · obtain ⟨a, ha, hr⟩ := ih hb
      exact ⟨a, List.mem_cons_of_mem _ ha, hr⟩

theorem member_objectOf_cons {key name : String} {value : Value F} {members : List (String × Value F)} :
    member key (objectOf ((name, value) :: members)) =
      if name = key then some value else member key (objectOf members) := by
  unfold member objectOf
  dsimp only
  rw [List.map_cons, List.find?_cons]
  split_ifs with h
  · subst h
    simp [isText, isStr]
  · have hne : isText key (.str (Str.ofString name) : Scalar F) = false := by
      refine Bool.eq_false_iff.mpr fun htext => h (ofString_injective ?_)
      simpa [isText, isStr] using htext
    rw [hne]

theorem membersOf_map (arguments : List (Str × Value F)) :
    membersOf (arguments.map fun m => (.str m.1, m.2)) = arguments := by
  unfold membersOf
  rw [List.filterMap_map]
  exact List.filterMap_some

theorem saysCall_callPayload {call : ToolCall F} (h : isBlankName py call.name = false) :
    SaysCall py (callPayload call) call := by
  have harguments : SaysArguments py (argumentsPayload call.arguments) _ := .object _
  rw [membersOf_map] at harguments
  have hfunction : getKeyword "function" (callPayload call) =
      objectOf [("name", .scalar (.str call.name)), ("arguments", argumentsPayload call.arguments)] := by
    rw [getKeyword, callPayload, member_objectOf_cons, if_pos rfl, Option.getD_some]
  refine ⟨?_, ?_, h, ?_⟩ <;> rw [hfunction]
  · rfl
  · rw [getKeyword, member_objectOf_cons, if_pos rfl, Option.getD_some]
  · rw [getKeyword, member_objectOf_cons, if_neg (by decide), member_objectOf_cons, if_pos rfl, Option.getD_some]
    exact harguments

theorem says_messagePayload {data : Value F} {message : Message F} (h : Sendable py message)
    (hdata : getKeyword "message" data = messagePayload message) : Says py data message := by
  have hmember : ∀ key, member key (messagePayload message) =
      if "role" = key then some (word (roleText message.role))
      else if "content" = key then some (.scalar (.str message.content))
      else member key (objectOf (if message.toolCalls.isEmpty then []
        else [("tool_calls", .list (message.toolCalls.map callPayload))])) := by
    intro key
    rw [messagePayload, List.cons_append, List.cons_append, List.nil_append, member_objectOf_cons, member_objectOf_cons]
  refine ⟨?_, ?_, ?_, h.role⟩ <;> rw [hdata]
  · rfl
  · rw [contentOf, hmember, if_neg (by decide), if_pos rfl, Option.getD_some]
  · rw [getKeyword, hmember, if_neg (by decide), if_neg (by decide)]
    cases hcalls : message.toolCalls with
    | nil => exact .absent
    | cons call calls =>
      rw [List.isEmpty_cons, if_neg Bool.false_ne_true, member_objectOf_cons, if_pos rfl, Option.getD_some]
      refine .array rfl (List.forall₂_map_left_iff.mpr (List.forall₂_same.mpr fun c hc => ?_))
      exact saysCall_callPayload (h.usable c (hcalls ▸ hc))

theorem SaysCalls.usable {raw : Value F} {calls : List (ToolCall F)} (h : SaysCalls py raw calls) :
    ∀ call ∈ calls, isBlankName py call.name = false := by
  intro call hcall
  cases h with
  | absent => cases hcall
  | array hraw hall =>
    obtain ⟨item, -, hitem⟩ := exists_of_forall₂ hall hcall
    exact hitem.usable

theorem Says.sendable {data : Value F} {message : Message F} (h : Says py data message) : Sendable py message :=
  ⟨h.role, h.calls.usable⟩

/-- What is sent is read as it was. -/
theorem chatOutcome_sent {message : Message F} {response : Response F} {data : Value F} (hmessage : Sendable py message)
    (hstatus : response.status < 400) (hload : py.loads response.text = .ok data)
    (herror : isNull (getKeyword "error" data) = true) (hdata : getKeyword "message" data = messagePayload message) :
    ∃ r, chatOutcome settings py response = .ok r ∧ r.message = message := by
  have hsays := says_messagePayload hmessage hdata
  have hobject : isMapping (getKeyword "message" data) = true := by
    rw [hdata]
    rfl
  have hmapping := isMapping_of_getKeyword hobject
  refine ⟨responseOf settings data message, chatOutcome_ok_iff.mpr ?_, rfl⟩
  exact ⟨hstatus, data, hload, hmapping, herror, hsays, rfl⟩

end Sent

/-- **Round trip.**  A response is accepted exactly when its body says a message; what was accepted can be sent back,
and what is sent is read as it was. -/
theorem conversation_round_trip : RoundTrips settings py where
  accepts _ _ := chatOutcome_ok_iff
  accepted response r h := by
    obtain ⟨-, data, -, -, -, hsays, -⟩ := chatOutcome_ok_iff.mp h
    exact hsays.sendable
  sent _ _ _ hmessage hstatus hload herror hdata := chatOutcome_sent hmessage hstatus hload herror hdata

/-! ## What is reported -/

/-- How a response is reported that is not accepted. -/
structure Normalized (response : Response F) : Prop where
  /-- an error of the package, unless the text is nested too deep -/
  raises : Interpreter.RaisesOnly (fun e => e.isInstance "AIError" = true ∨ e = recursionError)
    (chatOutcome settings py response)
  /-- the service is overloaded or has failed: worth another attempt -/
  retried : response.status = 429 ∨ 500 ≤ response.status →
    ∃ e, chatOutcome settings py response = .error e ∧ e.isInstance "TransientError" = true
  /-- the request is at fault: not worth one -/
  rejected : 400 ≤ response.status → response.status < 500 → response.status ≠ 429 →
    ∃ e, chatOutcome settings py response = .error e ∧ e.isInstance "TransientError" = false
  /-- there is no object: worth another one -/
  unreadable : response.status < 400 → (∀ data, py.loads response.text = .ok data → isMapping data = false) →
    ∃ e, chatOutcome settings py response = .error e ∧ (e.isInstance "TransientError" = true ∨ e = recursionError)

section Reported

variable {settings py}

theorem Host.printable_of_printed {v : Value F} (h : py.Printed v) : py.printable v = true := by
  induction v using Value.induct with
  | scalar s => exact decide_eq_true (Value.every_scalar.mp h)
  | list items ih =>
    rw [Host.printable, Value.fold_list, List.all_eq_true]
    intro b hb
    obtain ⟨v, hv, rfl⟩ := List.mem_map.mp hb
    exact ih v hv (Value.every_list.mp h v hv)
  | tuple items ih =>
    rw [Host.printable, Value.fold_tuple, List.all_eq_true]
    intro b hb
    obtain ⟨v, hv, rfl⟩ := List.mem_map.mp hb
    exact ih v hv ((Value.every_tuple.mp h).2 v hv)
  | dict items ih =>
    obtain ⟨hkeys, hitems⟩ := Value.every_dict.mp h
    rw [Host.printable, Value.fold_dict, List.all_eq_true]
    intro p hp
    obtain ⟨m, hm, rfl⟩ := List.mem_map.mp hp
    rw [Bool.and_eq_true]
    exact ⟨decide_eq_true (hkeys m.1 (List.mem_map_of_mem hm)), ih m hm (hitems m hm)⟩

theorem printed_getKeyword {key : String} {v : Value F} (h : py.Printed v) : py.Printed (getKeyword key v) := by
  have hnone : py.Printed (.scalar .none : Value F) := trivial
  cases v with
  | dict items =>
    have hmember : getKeyword key (.dict items) =
      ((items.find? fun m => isText key m.1).map Prod.snd).getD (.scalar .none) := rfl
    rw [hmember]
    cases hfind : items.find? fun m => isText key m.1 with
    | none => exact hnone
    | some m => exact (Value.every_dict.mp h).2 m (List.mem_of_find?_eq_some hfind)
  | _ => exact hnone

/-- What was read can be written in a message. -/
theorem strOf_eq_ok {v : Value F} (h : py.Printed v) : ∃ s, py.strOf v = .ok s := by
  have hrepr : ∃ s, (py.reprOf v).map Str.ofString = .ok s := by
    rw [Host.reprOf, if_pos (Host.printable_of_printed h)]
    exact ⟨_, rfl⟩
  cases v with
  | scalar s =>
    cases s with
    | str s => exact ⟨s, rfl⟩
    | _ => exact hrepr
  | _ => exact hrepr

/-- An error of the package, or the end of the stack. -/
abbrev IsReported (e : Exc) : Prop := e.isInstance "AIError" = true ∨ e = recursionError

theorem isInstance_of_mem {cls name : String} {bases : List String} {message : String} (h : cls ∈ bases) :
    (xyberosError name bases message).isInstance cls = true := by
  simp [xyberosError, Exc.isInstance, h]

/-- Raising an error of the package. -/
theorem raises_aiError {α : Type} {name : String} {bases : List String} {message : String} (h : "AIError" ∈ bases) :
    Interpreter.RaisesOnly IsReported (.error (xyberosError name bases message) : Except Exc α) :=
  Interpreter.raises_error (.inl (isInstance_of_mem h))

theorem raises_loads (text : List Char) :
    Interpreter.RaisesOnly (fun e => e.isInstance "ValueError" = true ∨ e = recursionError) (py.loads text) := by
  refine Interpreter.raises_loads (.inl ?_) (.inr rfl) (fun message => .inl ?_) text
  · simp [jsonDecodeError, Exc.isInstance]
  · simp [valueError, Exc.isInstance]

theorem raises_loadsText (s : Str) :
    Interpreter.RaisesOnly (fun e => e.isInstance "ValueError" = true ∨ e = recursionError) (py.loadsText s) := by
  unfold Platform.loadsText
  cases charsOf s with
  | none => exact py.raises_loadsSurrogates s
  | some text => exact raises_loads text

theorem raises_reportValueError {α : Type} {x : Except Exc α} {report : Exc → Exc}
    (hx : Interpreter.RaisesOnly (fun e => e.isInstance "ValueError" = true ∨ e = recursionError) x)
    (hreport : ∀ e, (report e).isInstance "AIError" = true) :
    Interpreter.RaisesOnly IsReported (reportValueError x report) := by
  cases x with
  | ok a => exact Interpreter.raises_ok a
  | error e =>
    refine Interpreter.raises_error ?_
    split_ifs with hvalue
    · exact .inl (hreport e)
    · exact .inr ((hx e rfl).resolve_left hvalue)

theorem raises_raiseForStatus (response : Response F) (path : String) :
    Interpreter.RaisesOnly IsReported (raiseForStatus settings py response path) := by
  unfold raiseForStatus
  dsimp only
  split_ifs
  · exact Interpreter.raises_ok _
  all_goals exact raises_aiError (by simp)

theorem raises_decodeObject (text : List Char) (source : String) :
    Interpreter.RaisesOnly IsReported (decodeObject py text source) := by
  refine (raises_reportValueError (raises_loads text) fun e => isInstance_of_mem (by simp)).bind fun data => ?_
  split_ifs
  · exact Interpreter.raises_ok _
  · exact raises_aiError (by simp)

theorem raises_raiseForErrorField {data : Value F} (h : py.Printed data) :
    Interpreter.RaisesOnly IsReported (raiseForErrorField settings py data) := by
  unfold raiseForErrorField
  split
  · exact Interpreter.raises_ok _
  · have hprinted : py.Printed (getKeyword "error" data) := printed_getKeyword h
    obtain ⟨text, htext⟩ := strOf_eq_ok hprinted
    rw [htext]
    show Interpreter.RaisesOnly IsReported (ite _ _ _)
    split_ifs <;> exact raises_aiError (by simp)

theorem raises_received (path : String) (response : Response F) :
    Interpreter.RaisesOnly IsReported (received settings py path response) := by
  refine (raises_raiseForStatus response path).bind fun _ => ?_
  intro e he
  rcases bind_eq_error.mp he with he | ⟨data, hdata, he⟩
  · exact raises_decodeObject _ _ e he
  · have hprinted := (Interpreter.loaded_of_loads (decodeObject_ok_iff.mp hdata).1).printed
    exact (raises_raiseForErrorField hprinted).bind (fun _ => Interpreter.raises_ok _) e he

theorem raises_toolArguments (name : Str) (raw : Value F) :
    Interpreter.RaisesOnly IsReported (toolArguments py name raw) := by
  have hend : ∀ value : Value F, Interpreter.RaisesOnly IsReported (argumentsOf name value) := by
    intro value
    unfold argumentsOf
    split
    · exact Interpreter.raises_ok _
    · exact raises_aiError (by simp)
  unfold toolArguments
  split
  · exact Interpreter.raises_ok _
  · exact (raises_reportValueError (raises_loadsText _) fun e => isInstance_of_mem (by simp)).bind hend
  · exact hend _

theorem raises_toolCall (item : Value F) : Interpreter.RaisesOnly IsReported (toolCall py item) := by
  unfold toolCall
  dsimp only
  split_ifs
  · exact raises_aiError (by simp)
  · exact raises_aiError (by simp)
  · split
    · exact raises_aiError (by simp)
    · refine (raises_toolArguments _ _).bind fun arguments => ?_
      unfold ToolCall.declare
      split_ifs
      · exact raises_aiError (by simp)
      · exact Interpreter.raises_ok _

theorem raises_chatResponse (data : Value F) :
    Interpreter.RaisesOnly IsReported (chatResponse settings py data) := by
  have hcalls : ∀ raw, Interpreter.RaisesOnly IsReported (toolCalls py raw) := by
    intro raw
    unfold toolCalls
    split_ifs
    · exact Interpreter.raises_ok _
    · intro e he
      obtain ⟨item, -, hitem⟩ := mapM_eq_error he
      exact raises_toolCall item e hitem
    · exact raises_aiError (by simp)
  unfold chatResponse
  dsimp only
  split_ifs
  · exact raises_aiError (by simp)
  · split
    · exact (hcalls _).bind fun _ => Interpreter.raises_ok _
    · exact raises_aiError (by simp)

/-- Without a body there is no response. -/
theorem chatOutcome_of_received {response : Response F} {e : Exc}
    (h : received settings py "/api/chat" response = .error e) : chatOutcome settings py response = .error e := by
  rw [chatOutcome, h]
  rfl

/-- A status that is a failure decides the end, and whether it is worth another attempt. -/
theorem raiseForStatus_of_failure {response : Response F} (hfailed : ¬ response.status < 400) (path : String) :
    ∃ e, raiseForStatus settings py response path = .error e ∧
      (e.isInstance "TransientError" = true ↔ response.status = 429 ∨ 500 ≤ response.status) := by
  unfold raiseForStatus
  dsimp only
  rw [if_neg hfailed]
  split_ifs with hlimit hmissing hhigh
  · exact ⟨_, rfl, iff_of_true (isInstance_of_mem (by simp)) (.inl hlimit)⟩
  · have hstatus : response.status = 404 := of_decide_eq_true (Bool.and_eq_true_iff.mp hmissing).1
    exact ⟨_, rfl, iff_of_false (by simp [modelNotFound, aiModelNotFoundError, xyberosError, Exc.isInstance])
      (by omega)⟩
  · exact ⟨_, rfl, iff_of_true (isInstance_of_mem (by simp)) (.inr hhigh)⟩
  · exact ⟨_, rfl, iff_of_false (by simp [aiRequestError, xyberosError, Exc.isInstance])
      (not_or.mpr ⟨hlimit, hhigh⟩)⟩

theorem chatOutcome_of_failure {response : Response F} (hfailed : ¬ response.status < 400) :
    ∃ e, chatOutcome settings py response = .error e ∧
      (e.isInstance "TransientError" = true ↔ response.status = 429 ∨ 500 ≤ response.status) := by
  obtain ⟨e, he, hworth⟩ := raiseForStatus_of_failure hfailed "/api/chat"
  have hreceived : received settings py "/api/chat" response = .error e := by
    rw [received, he]
    rfl
  exact ⟨e, chatOutcome_of_received hreceived, hworth⟩

/-- A text without an object is worth another attempt, or nested too deep. -/
theorem decodeObject_of_unreadable {text : List Char}
    (hnone : ∀ data, py.loads text = .ok data → isMapping data = false) (source : String) :
    ∃ e, decodeObject py text source = .error e ∧ (e.isInstance "TransientError" = true ∨ e = recursionError) := by
  cases hload : py.loads text with
  | error e =>
    by_cases hvalue : e.isInstance "ValueError" = true
    · refine ⟨aiInvalidPayloadError s!"{source} is not JSON: {e.message}", ?_, .inl (isInstance_of_mem (by simp))⟩
      rw [decodeObject, hload, reportValueError, if_pos hvalue]
      rfl
    · refine ⟨e, ?_, .inr ((raises_loads _ e hload).resolve_left hvalue)⟩
      rw [decodeObject, hload, reportValueError, if_neg hvalue]
      rfl
  | ok data =>
    refine ⟨aiInvalidPayloadError s!"{source} is {typeName data} instead of an object", ?_,
      .inl (isInstance_of_mem (by simp))⟩
    rw [decodeObject, hload]
    exact if_neg (Bool.eq_false_iff.mp (hnone data hload))

theorem received_of_unreadable {path : String} {response : Response F} {e : Exc} (hstatus : response.status < 400)
    (h : decodeObject py response.text s!"the {path} response" = .error e) :
    received settings py path response = .error e := by
  rw [received, raiseForStatus_ok_iff.mpr hstatus, h]
  rfl

end Reported

/-- **Normalized failures.**  Whatever the service answers, a chat that is not accepted raises an error of the package,
or its text is nested too deep; and the status decides whether another attempt is worth while. -/
theorem failures_normalized (response : Response F) : Normalized settings py response where
  raises := (raises_received _ response).bind raises_chatResponse
  retried := by
    intro h
    have hfailed : ¬ response.status < 400 := by omega
    obtain ⟨e, he, hworth⟩ := chatOutcome_of_failure hfailed
    exact ⟨e, he, hworth.mpr h⟩
  rejected := by
    intro hlow hhigh hlimit
    obtain ⟨e, he, hworth⟩ := chatOutcome_of_failure (not_lt.mpr hlow)
    exact ⟨e, he, Bool.eq_false_iff.mpr fun h => (hworth.mp h).elim hlimit (not_le.mpr hhigh)⟩
  unreadable := by
    intro hstatus hnone
    obtain ⟨e, he, hworth⟩ := decodeObject_of_unreadable hnone _
    exact ⟨e, chatOutcome_of_received (received_of_unreadable hstatus he), hworth⟩

end Xyberos.Ai.Adapter
