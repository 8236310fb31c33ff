import Xyberos.Json.Equality
import Xyberos.Json.Loads
import Mathlib.Data.List.TakeWhile

/-!
# Xyberos.Mcp.Client — a request, and the reply in an event stream

A request is sent with a number, and its reply is looked for among the messages of the body that comes back.  The
payloads of an event stream are read by a loop over its lines; they are the data of the blocks between blank lines
(`eventData_eq`).

The reply is the first message whose `id` Python compares equal to the number.  A stream may hold requests of the
server beside the response, numbered by the server: the response is taken exactly when no message before it has such an
`id` (`correlated_iff`).
-/

set_option autoImplicit false

namespace Xyberos.Mcp

open Json

variable {F : Type}

/-! ## Event streams -/

abbrev Body := List UInt8

/-- The bytes that `bytes.strip` removes. -/
def isByteSpace (b : UInt8) : Bool := b == 0x20 || (0x09 ≤ b && b ≤ 0x0d)

/-- `raw.strip()`. -/
def stripBytes (raw : Body) : Body := ((raw.dropWhile isByteSpace).reverse.dropWhile isByteSpace).reverse

/-- The lines of `raw.splitlines()`, where `line` is what has been read of the first, backwards. -/
def splitLinesFrom (line : Body) : Body → List Body
  | [] => if line = [] then [] else [line.reverse]
  | 0x0d :: 0x0a :: raw => line.reverse :: splitLinesFrom [] raw
  | b :: raw => if b = 0x0a ∨ b = 0x0d then line.reverse :: splitLinesFrom [] raw else splitLinesFrom (b :: line) raw

/-- `raw.splitlines()`. -/
def splitLines (raw : Body) : List Body := splitLinesFrom [] raw

/-- `b"data:"`. -/
def dataField : Body := [0x64, 0x61, 0x74, 0x61, 0x3a]

def IsData (line : Body) : Prop := dataField <+: line

instance (line : Body) : Decidable (IsData line) := inferInstanceAs (Decidable (_ <+: _))

/-- What a `data:` line carries. -/
def dataOf (line : Body) : Body := stripBytes (line.drop dataField.length)

/-- `b"\n".join(current)`. -/
def joinData (current : List Body) : Body := [0x0a].intercalate current

/-- The turn of the loop of `_event_data` for one line. -/
def eventLine (s : List Body × List Body) (line : Body) : List Body × List Body :=
  if IsData line then (s.1, s.2 ++ [dataOf line])
  else if stripBytes line = [] ∧ s.2 ≠ [] then (s.1 ++ [joinData s.2], [])
  else s

/-- What `_event_data` returns after the loop. -/
def eventEnd (s : List Body × List Body) : List Body := if s.2 ≠ [] then s.1 ++ [joinData s.2] else s.1

/-- `_event_data`. -/
def eventData (raw : Body) : List Body := eventEnd ((splitLines raw).foldl eventLine ([], []))

/-- The payload of an event: the data of its lines, if it has any. -/
def payload? (data : List Body) : Option Body := if data = [] then none else some (joinData data)

/-- The data of the events: of the lines between blank ones. -/
def blocks (lines : List Body) : List (List Body) :=
  (lines.splitOnP fun line => stripBytes line = []).map fun block => (block.filter fun line => IsData line).map dataOf

/-- The payloads of an event stream. -/
def payloads (raw : Body) : List Body := (blocks (splitLines raw)).filterMap payload?

/-! ## Messages -/

/-- `isinstance(value, Mapping)`. -/
def IsMapping (v : Value F) : Prop := ∃ items, v = .dict items

/-- `value == n`. -/
def equalsInt (floats : Floats F) (n : ℤ) : Option (Value F) → Bool
  | some (.scalar s) => s.number floats == Scalar.number floats (.int n)
  | _ => false

def mcpProtocolError (message : String) : Exc := xyberosError "McpProtocolError" ["McpError"] message

def mcpTransportError (message : String) : Exc :=
  xyberosError "McpTransportError" ["McpError", "TransientError"] message

/-- What is read of `McpServerSettings`. -/
structure McpServerSettings where
  name : String
  url : String

/-- A JSON-RPC request, or with no id a notification. -/
structure Payload (F : Type) where
  id : Option ℕ
  method : String
  params : Option (Value F)
deriving DecidableEq

/-- `McpClient`. -/
structure McpClient where
  settings : McpServerSettings
  sessionId : Option String
  requestId : ℕ

/-- What `_send` returns. -/
structure Response where
  raw : Body
  contentType : String
  sessionId : Option String

/-- What a client uses: `_send` with a payload that `json.dumps` writes, the text that `json.loads` decodes bytes to,
and `repr` of bytes and of values. -/
structure World (F : Type) extends Interpreter F where
  send : McpClient → Payload F → Except Exc Response
  decode : Body → Except Exc (List Char)
  reprBytes : Body → String
  reprValue : Option (Value F) → String

/-- `"text/event-stream" in content_type.lower()`. -/
def IsEventStream (contentType : String) : Prop :=
  "text/event-stream".toList <:+: contentType.toList.map Char.toLower

instance (contentType : String) : Decidable (IsEventStream contentType) := inferInstanceAs (Decidable (_ <:+: _))

namespace World

variable (w : World F)

/-- `json.loads(raw)`. -/
def loadsBytes (raw : Body) : Except Exc (Value F) := do
  let text ← w.decode raw
  w.loads text

/-- `_load`. -/
def load (settings : McpServerSettings) (raw : Body) : Except Exc (Value F) :=
  match w.loadsBytes raw with
  | .error error =>
    if error.isInstance "ValueError" then
      .error (mcpTransportError (s!"server {reprStr settings.name} at {settings.url} answered with a body that is " ++
        s!"not JSON: {w.reprBytes (raw.take 120)}"))
    else .error error
  | .ok (.dict items) => .ok (.dict items)
  | .ok _ => .error (mcpTransportError
      s!"server {reprStr settings.name} answered with a JSON value that is not a JSON-RPC message")

/-- `_messages`. -/
def messages (settings : McpServerSettings) (raw : Body) (contentType : String) : Except Exc (List (Value F)) :=
  if stripBytes raw = [] then .ok []
  else if IsEventStream contentType then (eventData raw).mapM (w.load settings)
  else [raw].mapM (w.load settings)

/-- `message.get("id") == request_id`. -/
def carriesId (n : ℕ) (message : Value F) : Bool := equalsInt w.toFloats n (member "id" message)

/-- The message that `_post` takes for the reply to a request. -/
def replyTo (settings : McpServerSettings) (method : String) (n : ℕ) (response : Response) : Except Exc (Value F) := do
  let messages ← w.messages settings response.raw response.contentType
  match messages.find? (w.carriesId n) with
  | some message => return message
  | none => .error (mcpProtocolError (s!"server {reprStr settings.name} answered {reprStr method} without a reply " ++
      s!"carrying request id {n}"))

/-- `_post`. -/
def post (client : McpClient) (payload : Payload F) : McpClient × Except Exc (Value F) :=
  match w.send client payload with
  | .error error => (client, .error error)
  | .ok response =>
    let client :=
      if response.sessionId = none ∨ response.sessionId = some "" then client
      else { client with sessionId := response.sessionId }
    match payload.id with
    | none => (client, .ok (.dict []))
    | some n => (client, w.replyTo client.settings payload.method n response)

/-- The error of a JSON-RPC response with an error object. -/
def rpcError (settings : McpServerSettings) (method : String) (error : Value F) : Exc :=
  let code := w.reprValue (member "code" error)
  let detail := w.reprValue (member "message" error)
  mcpProtocolError s!"server {reprStr settings.name} answered {method} with JSON-RPC error {code}: {detail}"

/-- What `_request` makes of the reply. -/
def outcome (settings : McpServerSettings) (method : String) (message : Value F) : Except Exc (Value F) :=
  match member "error" message with
  | some (.dict error) => .error (w.rpcError settings method (.dict error))
  | _ =>
    match member "result" message with
    | some (.dict result) => .ok (.dict result)
    | _ => .error (mcpProtocolError s!"server {reprStr settings.name} answered {method} without a result object")

/-- `_request`. -/
def request (client : McpClient) (method : String) (params : Option (Value F)) : McpClient × Except Exc (Value F) :=
  let client := { client with requestId := client.requestId + 1 }
  let (client', message) := w.post client ⟨some client.requestId, method, params⟩
  (client', do w.outcome client.settings method (← message))

end World

/-! ## What a request is for -/

/-- A JSON-RPC response carrying an id. -/
def Responds (n : ℕ) (message : Value F) : Prop :=
  member "method" message = none ∧ member "id" message = some (.scalar (.int n))

/-- What a response says: its result object, or its error. -/
inductive Tells (w : World F) (settings : McpServerSettings) (method : String) (message : Value F) :
    Except Exc (Value F) → Prop
  | result {items} (h : member "result" message = some (.dict items))
    (hno : ∀ items, member "error" message ≠ some (.dict items)) : Tells w settings method message (.ok (.dict items))
  | error {items} (h : member "error" message = some (.dict items)) :
    Tells w settings method message (.error (w.rpcError settings method (.dict items)))

/-- The server answers a request with an event stream that has one response to it, and any messages beside it. -/
structure Streams (w : World F) (client : McpClient) (method : String) (params : Option (Value F))
    (before : List (Value F)) (reply : Value F) (after : List (Value F)) (told : Except Exc (Value F)) : Prop where
  sends : ∃ response, w.send { client with requestId := client.requestId + 1 }
      ⟨some (client.requestId + 1), method, params⟩ = .ok response ∧ IsEventStream response.contentType ∧
    List.Forall₂ (fun raw message => w.loadsBytes raw = .ok message) (payloads response.raw) (before ++ reply :: after)
  objects : ∀ message ∈ before ++ reply :: after, IsMapping message
  responds : Responds (client.requestId + 1) reply
  tells : Tells w client.settings method reply told
  only : ∀ message ∈ before ++ after, ¬ Responds (client.requestId + 1) message

/-- The response is taken for the reply, and the request comes to what it says. -/
structure Correlated (w : World F) (client : McpClient) (method : String) (params : Option (Value F))
    (reply : Value F) (told : Except Exc (Value F)) : Prop where
  taken : (w.post { client with requestId := client.requestId + 1 }
    ⟨some (client.requestId + 1), method, params⟩).2 = .ok reply
  comes : (w.request client method params).2 = told

/-! ## The payloads of an event stream -/

section Events

theorem stripBytes_eq_nil {raw : Body} : stripBytes raw = [] ↔ ∀ b ∈ raw, isByteSpace b = true := by
  have hdrop : ∀ l : Body, l.dropWhile isByteSpace = [] ↔ ∀ b ∈ l, isByteSpace b = true := fun l =>
    List.dropWhile_eq_nil_iff
  rw [stripBytes, List.reverse_eq_nil_iff, hdrop]
  constructor
  · intro h
    by_contra hnot
    rw [← hdrop] at hnot
    have hhead := List.head_dropWhile_not isByteSpace hnot
    rw [h _ (by simp)] at hhead
    cases hhead
  · intro h b hb
    exact h b ((List.dropWhile_suffix _).subset (List.mem_reverse.mp hb))

/-- A `data:` line is not blank. -/
theorem strip_ne_nil_of_isData {line : Body} (h : IsData line) : stripBytes line ≠ [] := by
  intro hstrip
  have hspace := stripBytes_eq_nil.mp hstrip 0x64 (h.subset (by simp [dataField]))
  exact absurd hspace (by decide)

/-- The data of the events of more lines. -/
theorem blocks_cons (line : Body) (lines : List Body) :
    blocks (line :: lines) =
      if IsData line then (blocks lines).modifyHead (dataOf line :: ·)
      else if stripBytes line = [] then [] :: blocks lines
      else blocks lines := by
  obtain ⟨block, rest, hsplit⟩ := List.exists_cons_of_ne_nil
    (List.splitOnP_ne_nil (fun line => decide (stripBytes line = [])) lines)
  unfold blocks
  rw [List.splitOnP_cons_eq_if_modifyHead, hsplit]
  by_cases hdata : IsData line
  · rw [if_neg (by simpa using strip_ne_nil_of_isData hdata), if_pos hdata]
    simp [hdata]
  · rw [if_neg hdata]
    by_cases hblank : stripBytes line = []
    · simp [hblank]
    · simp [hblank, hdata]

theorem blocks_ne_nil (lines : List Body) : blocks lines ≠ [] := by
  simp [blocks, List.splitOnP_ne_nil]

theorem eventEnd_foldl (s : List Body × List Body) (lines : List Body) :
    eventEnd (lines.foldl eventLine s) = s.1 ++ ((blocks lines).modifyHead (s.2 ++ ·)).filterMap payload? := by
  induction lines generalizing s with
  | nil =>
    obtain ⟨found, current⟩ := s
    by_cases hc : current = [] <;> simp [eventEnd, blocks, payload?, hc]
  | cons line lines ih =>
    obtain ⟨found, current⟩ := s
    rw [List.foldl_cons, ih, blocks_cons, eventLine]
    by_cases hdata : IsData line
    · rw [if_pos hdata, if_pos hdata, List.modifyHead_modifyHead]
      simp [Function.comp_def]
    · rw [if_neg hdata, if_neg hdata]
      obtain ⟨data, rest, hblocks⟩ := List.exists_cons_of_ne_nil (blocks_ne_nil lines)
      by_cases hblank : stripBytes line = []
      · by_cases hc : current = []
        · simp [hblank, hc, hblocks, payload?]
        · simp [hblank, hc, hblocks, payload?]
      · rw [if_neg fun h => hblank h.1, if_neg hblank]

/-- **The loop over the lines** finds the payloads of the events. -/
theorem eventData_eq (raw : Body) : eventData raw = payloads raw := by
  obtain ⟨data, rest, hblocks⟩ := List.exists_cons_of_ne_nil (blocks_ne_nil (splitLines raw))
  rw [eventData, eventEnd_foldl, payloads, hblocks]
  simp

theorem mem_of_mem_splitLinesFrom {acc raw line : Body} (h : line ∈ splitLinesFrom acc raw) :
    ∀ b ∈ line, b ∈ acc ∨ b ∈ raw := by
  induction acc, raw using splitLinesFrom.induct with
  | case1 => simp [splitLinesFrom] at h
  | case2 acc hacc =>
    rw [splitLinesFrom, if_neg hacc] at h
    obtain rfl := List.mem_singleton.mp h
    exact fun b hb => .inl (List.mem_reverse.mp hb)
  | case3 acc raw ih =>
    rw [splitLinesFrom] at h
    rcases List.mem_cons.mp h with rfl | h
    · exact fun b hb => .inl (List.mem_reverse.mp hb)
    · intro b hb
      rcases ih h b hb with hb | hb
      · cases hb
      · exact .inr (by simp [hb])
  | case4 acc b raw hcrlf hend ih =>
    rw [splitLinesFrom, if_pos hend] at h
    · rcases List.mem_cons.mp h with rfl | h
      · exact fun b hb => .inl (List.mem_reverse.mp hb)
      · intro b hb
        rcases ih h b hb with hb | hb
        · cases hb
        · exact .inr (by simp [hb])
    · exact hcrlf
  | case5 acc b raw hcrlf hend ih =>
    rw [splitLinesFrom, if_neg hend] at h
    · intro c hc
      have := ih h c hc
      simp only [List.mem_cons] at this ⊢
      tauto
    · exact hcrlf

/-- A body with a payload is not blank. -/
theorem strip_ne_nil_of_payloads {raw : Body} (h : payloads raw ≠ []) : stripBytes raw ≠ [] := by
  intro hblank
  refine h ?_
  have hno : ∀ lines : List Body, (∀ line ∈ lines, ¬ IsData line) → lines.foldl eventLine ([], []) = ([], []) := by
    intro lines hlines
    induction lines with
    | nil => rfl
    | cons line lines ih =>
      obtain ⟨hline, hlines⟩ := List.forall_mem_cons.mp hlines
      rw [List.foldl_cons, eventLine, if_neg hline, if_neg (by simp)]
      exact ih hlines
  rw [← eventData_eq, eventData, hno]
  · rfl
  · intro line hline hdata
    have hd : (0x64 : UInt8) ∈ line := hdata.subset (by simp [dataField])
    rcases mem_of_mem_splitLinesFrom hline _ hd with hm | hm
    · cases hm
    · exact absurd (stripBytes_eq_nil.mp hblank _ hm) (by decide)

end Events

/-! ## The reply -/

section Reply

variable {w : World F} {client : McpClient} {method : String} {params : Option (Value F)} {before after : List (Value F)}
  {reply : Value F} {told : Except Exc (Value F)}

theorem load_ok {settings : McpServerSettings} {raw : Body} {message : Value F} (h : w.loadsBytes raw = .ok message)
    (hm : IsMapping message) : w.load settings raw = .ok message := by
  obtain ⟨items, rfl⟩ := hm
  rw [World.load, h]

/-- The messages of the stream are read. -/
theorem Streams.messages_eq (h : Streams w client method params before reply after told) : ∃ response,
    w.send { client with requestId := client.requestId + 1 } ⟨some (client.requestId + 1), method, params⟩ =
      .ok response ∧
    w.messages client.settings response.raw response.contentType = .ok (before ++ reply :: after) := by
  obtain ⟨response, hsend, hstream, hloads⟩ := h.sends
  refine ⟨response, hsend, ?_⟩
  have hne : payloads response.raw ≠ [] := by
    intro hnil
    rw [hnil, List.forall₂_nil_left_iff] at hloads
    simp at hloads
  rw [World.messages, if_neg (strip_ne_nil_of_payloads hne), if_pos hstream, eventData_eq]
  refine mapM_eq_ok.mpr ?_
  have hobjects := h.objects
  rw [List.forall₂_iff_get] at hloads ⊢
  refine ⟨hloads.1, fun i hi hi' => load_ok (hloads.2 i hi hi') (hobjects _ (List.get_mem _ _))⟩

/-- The response has the `id` of the request. -/
theorem Streams.equals (h : Streams w client method params before reply after told) :
    w.carriesId (client.requestId + 1) reply = true := by
  rw [World.carriesId, h.responds.2]
  exact beq_self_eq_true _

/-- The message that is taken is the first with an equal `id`. -/
theorem Streams.post_eq (h : Streams w client method params before reply after told) :
    (w.post { client with requestId := client.requestId + 1 } ⟨some (client.requestId + 1), method, params⟩).2 =
      .ok ((before.find? (w.carriesId (client.requestId + 1))).getD reply) := by
  obtain ⟨response, hsend, hmessages⟩ := h.messages_eq
  have hfind : (before ++ reply :: after).find? (w.carriesId (client.requestId + 1)) =
      some ((before.find? (w.carriesId (client.requestId + 1))).getD reply) := by
    rw [List.find?_append, List.find?_cons_of_pos h.equals]
    cases before.find? (w.carriesId (client.requestId + 1)) <;> rfl
  have hreply : w.replyTo client.settings method (client.requestId + 1) response =
      .ok ((before.find? (w.carriesId (client.requestId + 1))).getD reply) := by
    simp only [World.replyTo, hmessages, bind, Except.bind, hfind]
    rfl
  rw [World.post, hsend]
  dsimp only
  split_ifs <;> exact hreply

/-- What a response says is what is made of it. -/
theorem Tells.outcome_eq {settings : McpServerSettings} {message : Value F} (h : Tells w settings method message told) :
    w.outcome settings method message = told := by
  cases h with
  | result h hno =>
    unfold World.outcome
    split
    · rename_i error herror
      exact absurd herror (hno error)
    · rw [h]
  | error h => rw [World.outcome, h]

/-- **The response is taken for the reply** exactly when no message before it has an `id` that Python compares equal to
the number of the request. -/
theorem correlated_iff (w : World F) (client : McpClient) (method : String) (params : Option (Value F))
    (before : List (Value F)) (reply : Value F) (after : List (Value F)) (told : Except Exc (Value F))
    (h : Streams w client method params before reply after told) :
    Correlated w client method params reply told ↔
      ∀ message ∈ before, w.carriesId (client.requestId + 1) message = false := by
  have hpost := h.post_eq
  constructor
  · intro hcorrelated message hmessage
    by_contra hequal
    have hfound : (before.find? (w.carriesId (client.requestId + 1))).isSome :=
      List.find?_isSome.mpr ⟨message, hmessage, by simpa using hequal⟩
    obtain ⟨taken, htaken⟩ := Option.isSome_iff_exists.mp hfound
    rw [htaken, hcorrelated.taken] at hpost
    obtain rfl := Except.ok.inj hpost
    exact h.only _ (List.mem_append_left _ (List.mem_of_find?_eq_some htaken)) h.responds
  · intro hfree
    have hnone : before.find? (w.carriesId (client.requestId + 1)) = none :=
      List.find?_eq_none.mpr fun message hmessage => by simpa using hfree message hmessage
    rw [hnone] at hpost
    refine ⟨hpost, ?_⟩
    rw [World.request]
    dsimp only
    rw [hpost]
    exact h.tells.outcome_eq

end Reply

/-! ### A server that pings -/

theorem no_float : ∀ x : Empty, FloatValue.nan 0 = FloatValue.finite x := fun x => x.elim

/-- An interpreter that reads no `float`. -/
def noFloats : Floats Empty where
  value x := x.elim
  repr x := x.elim
  read _ := .nan 0
  repr_wellFormed x := x.elim
  repr_isFloat x := x.elim
  read_repr := no_float

def bytesOf (text : String) : Body := text.toList.map fun c => UInt8.ofNat c.toNat

/-- A server that answers every request with this event stream. -/
def sends (text : String) : World Empty where
  toFloats := noFloats
  maxStrDigits := 4300
  encodeDepth := 1000
  decodeDepth := 1000
  send _ _ := .ok ⟨bytesOf text, "text/event-stream", none⟩
  decode raw := .ok (raw.map fun b => Char.ofNat b.toNat)
  reprBytes _ := ""
  reprValue _ := ""

def freshClient : McpClient := ⟨⟨"kb", "http://127.0.0.1:8931/mcp"⟩, none, 0⟩

/-- `{"id": 1, "result": {}}`. -/
def response : Value Empty :=
  .dict [(.str (Str.ofString "id"), .scalar (.int 1)), (.str (Str.ofString "result"), .dict [])]

/-- `{"id": 1, "method": "ping"}`. -/
def ping : Value Empty :=
  .dict [(.str (Str.ofString "id"), .scalar (.int 1)),
    (.str (Str.ofString "method"), .scalar (.str (Str.ofString "ping")))]

/-- `{"method": "notifications/message"}`. -/
def notice : Value Empty :=
  .dict [(.str (Str.ofString "method"), .scalar (.str (Str.ofString "notifications/message")))]

def responseEvent : String := "data: \x7b\"id\": 1, \"result\": \x7b\x7d\x7d\n\n"

def pingEvent : String := "event: message\ndata: \x7b\"id\": 1, \"method\": \"ping\"\x7d\n\n"

def noticeEvent : String := "data: \x7b\"method\": \"notifications/message\"\x7d\n\n"

/-- A stream of the response to the first request, of pings and of notifications. -/
theorem streams_sends {text : String} {before after : List (Value Empty)}
    (hloads : List.Forall₂ (fun raw message => (sends text).loadsBytes raw = .ok message) (payloads (bytesOf text))
      (before ++ response :: after)) (hothers : ∀ message ∈ before ++ after, message = ping ∨ message = notice) :
    Streams (sends text) freshClient "initialize" none before response after (.ok (.dict [])) where
  sends := by
    have hstream : IsEventStream "text/event-stream" := by decide +kernel
    exact ⟨_, rfl, hstream, hloads⟩
  objects := by
    intro message hm
    have hcases : message = response ∨ message = ping ∨ message = notice := by
      rcases List.mem_append.mp hm with hm | hm
      · exact .inr (hothers message (List.mem_append_left _ hm))
      · exact (List.mem_cons.mp hm).imp_right fun hm => hothers message (List.mem_append_right _ hm)
    rcases hcases with rfl | rfl | rfl <;> exact ⟨_, rfl⟩
  responds := by constructor <;> decide +kernel
  tells := by
    have hno : member "error" response = none := by decide +kernel
    exact .result (by decide +kernel) (by simp [hno])
  only := by
    intro message hm
    rcases hothers message hm with rfl | rfl
    · exact fun h => absurd h.1 (by decide +kernel)
    · exact fun h => absurd h.1 (by decide +kernel)

/-- A notification before the response, and a ping behind it. -/
theorem correlated_pingAfter :
    Correlated (sends (noticeEvent ++ responseEvent ++ pingEvent)) freshClient "initialize" none response
      (.ok (.dict [])) := by
  have hpayloads : payloads (bytesOf (noticeEvent ++ responseEvent ++ pingEvent)) =
      [bytesOf "\x7b\"method\": \"notifications/message\"\x7d", bytesOf "\x7b\"id\": 1, \"result\": \x7b\x7d\x7d",
        bytesOf "\x7b\"id\": 1, \"method\": \"ping\"\x7d"] := by
    -- the characters of a literal are read off it, since the kernel is slow to decode its bytes
    have hnotice : noticeEvent.toList = _ := String.toList_ofList
    have hresponse : responseEvent.toList = _ := String.toList_ofList
    have hping : pingEvent.toList = _ := String.toList_ofList
    rw [bytesOf, String.toList_append, String.toList_append, hnotice, hresponse, hping]
    decide +kernel
  have hstreams : Streams (sends (noticeEvent ++ responseEvent ++ pingEvent)) freshClient "initialize" none [notice]
      response [ping] (.ok (.dict [])) := by
    refine streams_sends ?_ (by simp)
    rw [hpayloads]
    exact .cons (by decide +kernel) (.cons (by decide +kernel) (.cons (by decide +kernel) .nil))
  refine (correlated_iff _ freshClient "initialize" none [notice] response [ping] _ hstreams).mpr fun message hm => ?_
  rw [List.mem_singleton.mp hm]
  decide +kernel

/-- A ping before the response, with the number that the server gave it. -/
theorem not_correlated_pingBefore :
    Streams (sends (pingEvent ++ responseEvent)) freshClient "initialize" none [ping] response [] (.ok (.dict [])) ∧
      ¬ Correlated (sends (pingEvent ++ responseEvent)) freshClient "initialize" none response (.ok (.dict [])) := by
  have hpayloads : payloads (bytesOf (pingEvent ++ responseEvent)) =
      [bytesOf "\x7b\"id\": 1, \"method\": \"ping\"\x7d", bytesOf "\x7b\"id\": 1, \"result\": \x7b\x7d\x7d"] := by
    have hping : pingEvent.toList = _ := String.toList_ofList
    have hresponse : responseEvent.toList = _ := String.toList_ofList
    rw [bytesOf, String.toList_append, hping, hresponse]
    decide +kernel
  refine ⟨streams_sends ?_ (by simp), fun h => absurd h.comes (by decide +kernel)⟩
  rw [hpayloads]
  exact .cons (by decide +kernel) (.cons (by decide +kernel) .nil)

end Xyberos.Mcp
