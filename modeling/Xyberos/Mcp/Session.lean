import Xyberos.Base.Interleaving
import Xyberos.Mcp.Tools

/-!
# Xyberos.Mcp.Session — one client and many calls

`McpClient` as its calls see it: coroutines that share a counter, the session the server has given, and whether the
handshake is done.  Calls are suspended while `_send` waits for the server in a thread, where the headers are read, so
they interleave.

In every interleaving no request number is used twice, each request goes out with the headers of the moment, and the
session and the protocol version are in them only when a server has given the one and agreed on the other
(`calls_share`).  A call comes to what the first message with its own number says, in the answer to its own request
(`calls_correlated`), and `list_tools` follows the cursors page by page, fifty at most (`pages_followed`).
-/

set_option autoImplicit false

namespace Xyberos.Mcp.Session

open Json Ai
open Proc (Exchange Traced Yields Grounded Local TaskEvent ofTask Interleaves)

variable {F : Type}

/-! ## The code -/

/-- What is read of `McpServerSettings` by a session. -/
structure SessionSettings extends McpServerSettings where
  headers : List (String × String) := []
  protocolVersion : String := "2025-06-18"

/-- What a call asks for. -/
inductive Ask (F : Type)
  /-- `self._request_id += 1` -/
  | nextId
  /-- `self._initialized`, read in the thread -/
  | initialized
  /-- `self._session_id`, read in the thread -/
  | sessionId
  /-- the request is sent, with what `json.dumps` refuses and what `urlopen` raises in the answer -/
  | send (headers : Dict String) (payload : Payload F)
  /-- `self._session_id = session_id` -/
  | store (sessionId : String)
  /-- `self._initialized = True` -/
  | ready

abbrev Ask.Reply : Ask F → Type
  | .nextId => ℕ
  | .initialized => Bool
  | .sessionId => Option String
  | .send _ _ => Except Exc Response
  | .store _ => Unit
  | .ready => Unit

abbrev Calling (F α : Type) := Proc (Ask F) Ask.Reply Exc α

/-- What a call asks, and what it is answered. -/
abbrev Deed (F : Type) := Exchange (Ask.Reply (F := F))

def ask (q : Ask F) : Calling F q.Reply := Proc.request q

/-- `_SESSION_HEADER`. -/
def sessionHeader : String := "Mcp-Session-Id"

/-- `_PROTOCOL_HEADER`. -/
def protocolHeader : String := "MCP-Protocol-Version"

/-- The headers of every request. -/
def fixedHeaders (settings : SessionSettings) : Dict String :=
  settings.headers.foldl (fun d header => d.set header.1 header.2)
    ⟨[("Content-Type", "application/json"), ("Accept", "application/json, text/event-stream")]⟩

/-- `_headers`. -/
def headersOf (settings : SessionSettings) (initialized : Bool) (sessionId : Option String) : Dict String :=
  let spoken :=
    if initialized then (fixedHeaders settings).set protocolHeader settings.protocolVersion else fixedHeaders settings
  match sessionId with
  | none => spoken
  | some id => if id = "" then spoken else spoken.set sessionHeader id

variable (w : World F) (settings : SessionSettings)

/-- What a response has to store. -/
def storing (response : Response) : Option String := response.sessionId.filter fun id => id ≠ ""

/-- `_post`, less the search for the reply. -/
def exchange (payload : Payload F) : Calling F Response := do
  let initialized : Bool ← ask .initialized
  let sessionId : Option String ← ask .sessionId
  let answer : Except Exc Response ← ask (.send (headersOf settings initialized sessionId) payload)
  let response ← Proc.ofExcept answer
  match storing response with
  | some id => do
    let _ ← ask (.store id)
    return response
  | none => return response

/-- `_request`. -/
def rpc (method : String) (params : Option (Value F)) : Calling F (Value F) := do
  let n : ℕ ← ask .nextId
  let response ← exchange settings ⟨some n, method, params⟩
  let message ← Proc.ofExcept (w.replyTo settings.toMcpServerSettings method n response)
  Proc.ofExcept (w.outcome settings.toMcpServerSettings method message)

/-- `McpServerInfo`. -/
structure McpServerInfo where
  name : Str
  version : Str
  protocolVersion : Str

/-- The parameters of `initialize`. -/
def handshakeParams : Value F :=
  objectOf [("protocolVersion", word settings.protocolVersion), ("capabilities", .dict []),
    ("clientInfo", objectOf [("name", word "xyberos"), ("version", word "2.2.0")])]

/-- What `initialize` returns. -/
def serverInfo (result : Value F) : McpServerInfo where
  name := textValue (member "name" ((member "serverInfo" result).getD (.dict [])))
  version := textValue (member "version" ((member "serverInfo" result).getD (.dict [])))
  protocolVersion :=
    match member "protocolVersion" result with
    | some (.scalar (.str negotiated)) => negotiated
    | _ => Str.ofString settings.protocolVersion

/-- `initialize`. -/
def handshake : Calling F McpServerInfo := do
  let result ← rpc w settings "initialize" (some (handshakeParams settings))
  match handshakeRefusal settings.toMcpServerSettings settings.protocolVersion result with
  | some message => .raise (mcpProtocolError message)
  | none => do
    let _ ← ask .ready
    let _ ← exchange settings ⟨none, "notifications/initialized", none⟩
    return serverInfo settings result

/-- The parameters of `tools/list`. -/
def cursorParams (cursor : Value F) : Option (Value F) :=
  if truthy w.toFloats cursor then some (objectOf [("cursor", cursor)]) else none

/-- The loop of `list_tools`, with the pages that are left. -/
def listPages : ℕ → Value F → Calling F (List (McpToolInfo F))
  | 0, _ => .raise (paginationError settings.toMcpServerSettings)
  | pages + 1, cursor => do
    let result ← rpc w settings "tools/list" (cursorParams w cursor)
    let page ← Proc.ofExcept (w.toolPage settings.toMcpServerSettings result)
    if truthy w.toFloats page.2 then do
      let infos ← listPages pages page.2
      return page.1 ++ infos
    else return page.1

/-- `list_tools`. -/
def listTools : Calling F (List (McpToolInfo F)) := listPages w settings 50 (.scalar .none)

/-- `McpCallResult`. -/
structure McpCallResult where
  tool : Str
  text : Str
  isError : Bool

/-- A block of `_content_text`. -/
def blockText (block : Value F) : Str :=
  if !isMapping block then Str.ofString "[unreadable content block]"
  else
    let kind := textValue (member "type" block)
    if kind = Str.ofString "text" then textValue (member "text" block)
    else Str.ofString "[" ++ (if kind.isEmpty then Str.ofString "non-text" else kind) ++ Str.ofString " content]"

/-- `_content_text`. -/
def contentText : Option (Value F) → Str
  | some (.list blocks) => (Str.ofString "\n").intercalate (blocks.map blockText)
  | _ => []

/-- What `call_tool` makes of the result. -/
def callResult (name : Str) (result : Value F) : McpCallResult where
  tool := name
  text := contentText (member "content" result)
  isError :=
    match member "isError" result with
    | some (.scalar (.bool b)) => b
    | _ => false

/-- The parameters of `tools/call`. -/
def callParams (name : Str) (arguments : Value F) : Value F :=
  objectOf [("name", .scalar (.str name)), ("arguments", arguments)]

/-- `call_tool`. -/
def callTool (name : Str) (arguments : Value F) : Calling F McpCallResult := do
  let result ← rpc w settings "tools/call" (some (callParams name arguments))
  return callResult name result

/-- A call of a client. -/
inductive Call (F : Type)
  | handshake
  | listTools
  | callTool (name : Str) (arguments : Value F)

/-- What a call does, whatever it returns. -/
def Call.coroutine : Call F → Calling F Unit
  | .handshake => do
    let _ ← Session.handshake w settings
    return ()
  | .listTools => do
    let _ ← Session.listTools w settings
    return ()
  | .callTool name arguments => do
    let _ ← Session.callTool w settings name arguments
    return ()

/-! ## What the calls share -/

/-- The mutable part of a client. -/
structure Shared where
  requestId : ℕ := 0
  sessionId : Option String := none
  initialized : Bool := false

/-- What an exchange of a call does to the client. -/
def Shared.step (s : Shared) (e : TaskEvent (Ask.Reply (F := F))) : Shared :=
  match e.2.1 with
  | .nextId => { s with requestId := s.requestId + 1 }
  | .store id => { s with sessionId := some id }
  | .ready => { s with initialized := true }
  | _ => s

/-- The client gives the answer. -/
def Shared.Answers (s : Shared) (e : TaskEvent (Ask.Reply (F := F))) : Prop :=
  match e.2 with
  | ⟨.nextId, n⟩ => n = s.requestId + 1
  | ⟨.initialized, b⟩ => b = s.initialized
  | ⟨.sessionId, id⟩ => id = s.sessionId
  | _ => True

/-- A session of a fresh client: any number of calls, in any interleaving. -/
structure Underway (calls : ℕ → Call F) (l : List (TaskEvent (Ask.Reply (F := F)))) : Prop where
  interleaves : Interleaves (fun _ _ => True) (fun task => (calls task).coroutine w settings) l
  answers : Steps Shared.step Shared.Answers {} l

/-! ## The course of a request -/

/-- What is stored after a response. -/
def stored (response : Response) : List (Deed F) :=
  match storing response with
  | some id => [⟨.store id, ()⟩]
  | none => []

/-- The course of `_post`: the two reads, the request with the headers they give, and what is stored. -/
inductive Exchanged (payload : Payload F) : List (Deed F) → Except Exc Response → Prop
  | failed (b : Bool) (id : Option String) (e : Exc) : Exchanged payload
      [⟨.initialized, b⟩, ⟨.sessionId, id⟩, ⟨.send (headersOf settings b id) payload, .error e⟩] (.error e)
  | answered (b : Bool) (id : Option String) (response : Response) : Exchanged payload
      (⟨.initialized, b⟩ :: ⟨.sessionId, id⟩ :: ⟨.send (headersOf settings b id) payload, .ok response⟩ ::
        stored response)
      (.ok response)

/-- The course of `_request`: a number of its own, and what the reply to it in its own answer comes to. -/
inductive Posted (method : String) (params : Option (Value F)) : List (Deed F) → Except Exc (Value F) → Prop
  | failed (n : ℕ) (l : List (Deed F)) (e : Exc) (h : Exchanged settings ⟨some n, method, params⟩ l (.error e)) :
      Posted method params (⟨.nextId, n⟩ :: l) (.error e)
  | answered (n : ℕ) (l : List (Deed F)) (response : Response)
      (h : Exchanged settings ⟨some n, method, params⟩ l (.ok response)) :
      Posted method params (⟨.nextId, n⟩ :: l)
        ((w.replyTo settings.toMcpServerSettings method n response).bind
          (w.outcome settings.toMcpServerSettings method))

section Courses

variable {w settings}

abbrev anything : (q : Ask F) → q.Reply → Prop := fun _ _ => True

theorem yields_exchange (payload : Payload F) :
    Yields anything (exchange settings payload) (Exchanged settings payload) := by
  refine Proc.yields_bind_request.mpr fun b _ => Proc.yields_bind_request.mpr fun id _ =>
    Proc.yields_bind_request.mpr fun x _ => Proc.yields_bind.mpr (Proc.yields_ofExcept.mpr ?_)
  cases x with
  | error e => exact .failed b id e
  | ok response =>
    rw [Proc.ends_ok]
    have h : Exchanged settings payload (⟨.initialized, b⟩ :: ⟨.sessionId, id⟩ ::
        ⟨.send (headersOf settings b id) payload, .ok response⟩ :: stored response) (.ok response) :=
      .answered b id response
    unfold stored at h
    cases hs : storing response with
    | none =>
      rw [hs] at h
      exact Proc.yields_pure.mpr h
    | some id' =>
      rw [hs] at h
      exact Proc.yields_bind_request.mpr fun _ _ => Proc.yields_pure.mpr h

theorem yields_rpc (method : String) (params : Option (Value F)) :
    Yields anything (rpc w settings method params) (Posted w settings method params) := by
  refine Proc.yields_bind_request.mpr fun n _ => Proc.yields_bind.mpr ((yields_exchange _).mono fun l r h => ?_)
  cases r with
  | error e => exact .failed n l e h
  | ok response =>
    have hposted := Posted.answered (w := w) n l response h
    rw [Proc.ends_ok]
    refine Proc.yields_bind.mpr (Proc.yields_ofExcept.mpr ?_)
    cases hreply : w.replyTo settings.toMcpServerSettings method n response with
    | error e =>
      rw [hreply] at hposted
      rw [Proc.ends_error, List.append_nil]
      exact hposted
    | ok message =>
      rw [hreply] at hposted
      refine Proc.yields_ofExcept.mpr ?_
      rw [List.append_nil, List.append_nil]
      exact hposted

/-- The request of a course is in it. -/
theorem Exchanged.sent {payload : Payload F} {l : List (Deed F)} {response : Response}
    (h : Exchanged settings payload l (.ok response)) :
    ∃ headers, (⟨.send headers payload, .ok response⟩ : Deed F) ∈ l := by
  cases h with
  | answered b id => exact ⟨headersOf settings b id, by simp⟩

end Courses

/-! ## Pages and calls of tools -/

/-- A page that was read: what was exchanged for it, its tools, and the cursor of the next. -/
structure Page (F : Type) where
  deeds : List (Deed F)
  infos : List (McpToolInfo F)
  next : Value F

/-- Pages read one after the other, each asked for with the cursor before it, up to the cursor that is left. -/
inductive Pages : Value F → List (Page F) → Value F → Prop
  | nil (cursor : Value F) : Pages cursor [] cursor
  | cons {cursor cursor' result : Value F} {page : Page F} {pages : List (Page F)}
      (posted : Posted w settings "tools/list" (cursorParams w cursor) page.deeds (.ok result))
      (read : w.toolPage settings.toMcpServerSettings result = .ok (page.infos, page.next))
      (rest : Pages page.next pages cursor') : Pages cursor (page :: pages) cursor'

/-- A page is not read: its request fails, or it is refused. -/
inductive Unread (cursor : Value F) (l : List (Deed F)) (e : Exc) : Prop
  | failed (h : Posted w settings "tools/list" (cursorParams w cursor) l (.error e))
  | refused (result : Value F) (h : Posted w settings "tools/list" (cursorParams w cursor) l (.ok result))
      (hpage : w.toolPage settings.toMcpServerSettings result = .error e)

/-- How the loop of `list_tools` ends: at the first page without a cursor, at a page that is not read, or when no pages
are left.  Every page before has a cursor. -/
inductive Listed (left : ℕ) (cursor : Value F) : List (Deed F) → Except Exc (List (McpToolInfo F)) → Prop
  | all (front : List (Page F)) (last : Page F) (pages : Pages w settings cursor (front ++ [last]) last.next)
      (bound : front.length < left) (more : ∀ page ∈ front, truthy w.toFloats page.next = true)
      (none : truthy w.toFloats last.next = false) :
      Listed left cursor ((front ++ [last]).flatMap Page.deeds) (.ok ((front ++ [last]).flatMap Page.infos))
  | unread (front : List (Page F)) {cursor' : Value F} {l : List (Deed F)} {e : Exc}
      (pages : Pages w settings cursor front cursor') (bound : front.length < left)
      (more : ∀ page ∈ front, truthy w.toFloats page.next = true) (fails : Unread w settings cursor' l e) :
      Listed left cursor (front.flatMap Page.deeds ++ l) (.error e)
  | endless (front : List (Page F)) {cursor' : Value F} (pages : Pages w settings cursor front cursor')
      (bound : front.length = left) (more : ∀ page ∈ front, truthy w.toFloats page.next = true) :
      Listed left cursor (front.flatMap Page.deeds) (.error (paginationError settings.toMcpServerSettings))

section Pages

variable {w settings}

/-- A page in front. -/
theorem Listed.cons {left : ℕ} {cursor result : Value F} {l : List (Deed F)} {r : Except Exc (List (McpToolInfo F))}
    (page : Page F)
    (hposted : Posted w settings "tools/list" (cursorParams w cursor) page.deeds (.ok result))
    (hread : w.toolPage settings.toMcpServerSettings result = .ok (page.infos, page.next))
    (hmore : truthy w.toFloats page.next = true) (h : Listed w settings left page.next l r) :
    Listed w settings (left + 1) cursor (page.deeds ++ l) (r.map (page.infos ++ ·)) := by
  cases h with
  | all front last pages bound more none =>
    exact .all (page :: front) last (.cons hposted hread pages) (Nat.succ_lt_succ bound)
      (List.forall_mem_cons.mpr ⟨hmore, more⟩) none
  | unread front pages bound more fails =>
    have h := Listed.unread (page :: front) (.cons hposted hread pages) (Nat.succ_lt_succ bound)
      (List.forall_mem_cons.mpr ⟨hmore, more⟩) fails
    rwa [List.flatMap_cons, List.append_assoc] at h
  | endless front pages bound more =>
    exact .endless (page :: front) (.cons hposted hread pages) (congrArg (· + 1) bound)
      (List.forall_mem_cons.mpr ⟨hmore, more⟩)

theorem yields_listPages (left : ℕ) (cursor : Value F) :
    Yields anything (listPages w settings left cursor) (Listed w settings left cursor) := by
  induction left generalizing cursor with
  | zero => exact Proc.yields_raise.mpr (.endless [] (.nil cursor) rfl (fun page hpage => by cases hpage))
  | succ left ih =>
    refine Proc.yields_bind.mpr ((yields_rpc _ _).mono fun l r hposted => ?_)
    cases r with
    | error e =>
      exact .unread [] (.nil cursor) left.succ_pos (fun page hpage => by cases hpage) (.failed hposted)
    | ok result =>
      refine Proc.yields_bind.mpr (Proc.yields_ofExcept.mpr ?_)
      rw [List.append_nil]
      cases hpage : w.toolPage settings.toMcpServerSettings result with
      | error e =>
        exact .unread [] (.nil cursor) left.succ_pos (fun page hmem => by cases hmem)
          (.refused result hposted hpage)
      | ok page =>
        rw [Proc.ends_ok]
        by_cases hnext : truthy w.toFloats page.2 = true
        · rw [if_pos hnext]
          refine Proc.yields_bind.mpr ((ih page.2).mono fun l' r' hrest => ?_)
          have hlisted := hrest.cons ⟨l, page.1, page.2⟩ hposted hpage hnext
          cases r' with
          | error e => exact hlisted
          | ok infos =>
            refine Proc.yields_pure.mpr ?_
            rw [List.append_nil]
            exact hlisted
        · rw [if_neg hnext]
          refine Proc.yields_pure.mpr ?_
          have hlisted := Listed.all [] ⟨l, page.1, page.2⟩ (.cons hposted hpage (.nil _)) left.succ_pos
            (fun page hmem => by cases hmem) (by simpa using hnext)
          simpa using hlisted

/-- **Pages are followed**, each with the cursor of the one before, fifty at most: what is returned is what all of them
list, in their order, and the last has no cursor. -/
theorem pages_followed {l : List (Deed F)} {r : Except Exc (List (McpToolInfo F))}
    (h : Proc.Traced anything (listTools w settings) l r) : Listed w settings 50 (.scalar .none) l r :=
  yields_listPages 50 _ l r h

/-- **A call of a tool** comes to what the first message with its own number says, in the answer to its own request. -/
theorem calls_correlated {name : Str} {arguments : Value F} {l : List (Deed F)} {r : Except Exc McpCallResult}
    (h : Proc.Traced anything (callTool w settings name arguments) l r) :
    ∃ r', Posted w settings "tools/call" (some (callParams name arguments)) l r' ∧ r = r'.map (callResult name) := by
  have hyields : Yields anything (callTool w settings name arguments) fun l r =>
      ∃ r', Posted w settings "tools/call" (some (callParams name arguments)) l r' ∧ r = r'.map (callResult name) := by
    refine Proc.yields_bind.mpr ((yields_rpc _ _).mono fun l r' hposted => ?_)
    cases r' with
    | error e => exact ⟨_, hposted, rfl⟩
    | ok result =>
      refine Proc.yields_pure.mpr ⟨.ok result, ?_, rfl⟩
      rwa [List.append_nil]
  exact hyields l r h

end Pages

/-! ## Grounds -/

/-- The number a request is sent with. -/
def sentId : Deed F → Option ℕ
  | ⟨.send _ payload, _⟩ => payload.id
  | _ => none

/-- The server has agreed on the protocol: an answer to `initialize` that is not refused. -/
def Agreed (l : List (Deed F)) : Prop :=
  ∃ h n response result,
    (⟨.send h ⟨some n, "initialize", some (handshakeParams settings)⟩, .ok response⟩ : Deed F) ∈ l ∧
    (w.replyTo settings.toMcpServerSettings "initialize" n response).bind
      (w.outcome settings.toMcpServerSettings "initialize") = .ok result ∧
    handshakeRefusal settings.toMcpServerSettings settings.protocolVersion result = none

/-- The server has given a session. -/
def Gave (id : String) (l : List (Deed F)) : Prop :=
  ∃ h payload response, (⟨.send h payload, .ok response⟩ : Deed F) ∈ l ∧ response.sessionId = some id ∧ id ≠ ""

/-- What a call does in view of what it has done: it sends the headers of what it has just read, with the number it has
drawn last and not sent yet; it stores what it was given, and is ready when the server has agreed. -/
def Meant (pre : List (Deed F)) : Deed F → Prop
  | ⟨.send h payload, _⟩ =>
    (∃ pre' b id, pre = pre' ++ [⟨.initialized, b⟩, ⟨.sessionId, id⟩] ∧ h = headersOf settings b id) ∧
      ∀ n, payload.id = some n → ∃ pre' mid, pre = pre' ++ ⟨.nextId, n⟩ :: mid ∧ ∀ x ∈ mid, sentId x = none
  | ⟨.store id, _⟩ => Gave id pre
  | ⟨.ready, _⟩ => Agreed w settings pre
  | _ => True

section Grounds

variable {w settings}

theorem Agreed.mono {l l' : List (Deed F)} (h : Agreed w settings l) (hl : l ⊆ l') : Agreed w settings l' := by
  obtain ⟨headers, n, response, result, hmem, hrest⟩ := h
  exact ⟨headers, n, response, result, hl hmem, hrest⟩

theorem Gave.mono {id : String} {l l' : List (Deed F)} (h : Gave id l) (hl : l ⊆ l') : Gave id l' := by
  obtain ⟨headers, payload, response, hmem, hrest⟩ := h
  exact ⟨headers, payload, response, hl hmem, hrest⟩

theorem local_meant : Local (Meant w settings) := by
  intro l pre x h
  obtain ⟨q, y⟩ := x
  cases q with
  | nextId => trivial
  | initialized => trivial
  | sessionId => trivial
  | send headers payload =>
    obtain ⟨⟨pre', b, id, rfl, hheaders⟩, hnumber⟩ := h
    refine ⟨⟨l ++ pre', b, id, (List.append_assoc ..).symm, hheaders⟩, fun n hn => ?_⟩
    obtain ⟨pre'', mid, he, hmid⟩ := hnumber n hn
    exact ⟨l ++ pre'', mid, by rw [he, List.append_assoc], hmid⟩
  | store id => exact Gave.mono h (List.subset_append_right l pre)
  | ready => exact Agreed.mono h (List.subset_append_right l pre)

theorem Exchanged.grounded {payload : Payload F} {l : List (Deed F)} {r : Except Exc Response}
    (h : Exchanged settings payload l r) (front : List (Deed F))
    (hfront : ∀ n, payload.id = some n → ∃ pre', front = pre' ++ [⟨.nextId, n⟩]) :
    Grounded (fun pre => Meant w settings (front ++ pre)) l := by
  have hsend : ∀ b id x, Meant w settings (front ++ [⟨.initialized, b⟩, ⟨.sessionId, id⟩])
      ⟨.send (headersOf settings b id) payload, x⟩ := by
    intro b id x
    refine ⟨⟨front, b, id, rfl, rfl⟩, fun n hn => ?_⟩
    obtain ⟨pre', rfl⟩ := hfront n hn
    refine ⟨pre', [⟨.initialized, b⟩, ⟨.sessionId, id⟩], by simp, fun y hy => ?_⟩
    rcases List.mem_pair.mp hy with rfl | rfl <;> rfl
  cases h with
  | failed b id e =>
    refine Grounded.cons_iff.mpr ⟨trivial, Grounded.cons_iff.mpr ⟨trivial, Grounded.cons_iff.mpr ⟨?_, .nil⟩⟩⟩
    exact hsend b id _
  | answered b id response =>
    refine Grounded.cons_iff.mpr ⟨trivial, Grounded.cons_iff.mpr ⟨trivial, Grounded.cons_iff.mpr ⟨hsend b id _, ?_⟩⟩⟩
    unfold stored
    cases hs : storing response with
    | none => exact .nil
    | some id' =>
      obtain ⟨hgiven, hne⟩ := Option.filter_eq_some_iff.mp hs
      have hmem : (⟨.send (headersOf settings b id) payload, .ok response⟩ : Deed F) ∈ front ++
          [⟨.initialized, b⟩, ⟨.sessionId, id⟩, ⟨.send (headersOf settings b id) payload, .ok response⟩] :=
        List.mem_append_right front (by simp)
      exact Grounded.cons_iff.mpr ⟨⟨_, payload, response, hmem, hgiven, of_decide_eq_true hne⟩, .nil⟩

theorem Posted.grounded {method : String} {params : Option (Value F)} {l : List (Deed F)} {r : Except Exc (Value F)}
    (h : Posted w settings method params l r) : Grounded (Meant w settings) l := by
  have hall : ∀ n l r, Exchanged settings ⟨some n, method, params⟩ l r →
      Grounded (Meant w settings) (⟨.nextId, n⟩ :: l) := by
    intro n l r hl
    refine Grounded.cons_iff.mpr ⟨trivial, hl.grounded [⟨.nextId, n⟩] fun m hm => ?_⟩
    cases hm
    exact ⟨[], rfl⟩
  cases h with
  | failed n l e hl => exact hall n l _ hl
  | answered n l response hl => exact hall n l _ hl

theorem yields_rpc_grounded (method : String) (params : Option (Value F)) :
    Yields anything (rpc w settings method params) fun l _ => Grounded (Meant w settings) l :=
  (yields_rpc method params).mono fun _ _ h => h.grounded

theorem yields_handshake_grounded :
    Yields anything (handshake w settings) fun l _ => Grounded (Meant w settings) l := by
  refine Proc.yields_bind.mpr ((yields_rpc _ _).mono fun l r h => ?_)
  have hl := h.grounded
  cases r with
  | error e => exact hl
  | ok result =>
    rw [Proc.ends_ok]
    cases hrefusal : handshakeRefusal settings.toMcpServerSettings settings.protocolVersion result with
    | some message =>
      refine Proc.yields_raise.mpr ?_
      rw [List.append_nil]
      exact hl
    | none =>
      have hagreed : Agreed w settings l := by
        generalize hr : (Except.ok result : Except Exc (Value F)) = r at h
        cases h with
        | failed => cases hr
        | answered n l' response hl' =>
          obtain ⟨headers, hmem⟩ := hl'.sent
          exact ⟨headers, n, response, result, List.mem_cons_of_mem _ hmem, hr.symm, hrefusal⟩
      refine Proc.yields_bind_request.mpr fun _ _ => Proc.yields_bind.mpr ((yields_exchange _).mono fun l' r' h' => ?_)
      have hrest : Grounded (Meant w settings) (l ++ ⟨.ready, ()⟩ :: l') := by
        refine Grounded.append_iff.mpr ⟨hl, Grounded.cons_iff.mpr ⟨?_, ?_⟩⟩
        · exact hagreed.mono (List.subset_append_left ..)
        · have hnotify : Grounded (Meant w settings) l' := h'.grounded [] fun n hn => by cases hn
          have hshift := hnotify.shift local_meant (l ++ [⟨.ready, ()⟩])
          simpa only [List.append_assoc, List.singleton_append] using hshift
      cases r' with
      | error e => exact hrest
      | ok response =>
        refine Proc.yields_pure.mpr ?_
        rw [List.append_nil]
        exact hrest

theorem yields_listPages_grounded (pages : ℕ) (cursor : Value F) :
    Yields anything (listPages w settings pages cursor) fun l _ => Grounded (Meant w settings) l := by
  induction pages generalizing cursor with
  | zero => exact Proc.yields_raise.mpr .nil
  | succ pages ih =>
    refine Proc.yields_grounded_bind local_meant (yields_rpc_grounded _ _) fun result => ?_
    refine Proc.yields_grounded_bind local_meant Proc.yields_grounded_ofExcept fun page => ?_
    split_ifs
    · exact Proc.yields_grounded_bind local_meant (ih page.2) fun infos => Proc.yields_pure.mpr .nil
    · exact Proc.yields_pure.mpr .nil

theorem yields_coroutine_grounded (call : Call F) :
    Yields anything (call.coroutine w settings) fun l _ => Grounded (Meant w settings) l := by
  cases call with
  | handshake =>
    exact Proc.yields_grounded_bind local_meant yields_handshake_grounded fun _ => Proc.yields_pure.mpr .nil
  | listTools =>
    exact Proc.yields_grounded_bind local_meant (yields_listPages_grounded 50 _) fun _ => Proc.yields_pure.mpr .nil
  | callTool name arguments =>
    refine Proc.yields_grounded_bind local_meant ?_ fun _ => Proc.yields_pure.mpr .nil
    exact Proc.yields_grounded_bind local_meant (yields_rpc_grounded _ _) fun _ => Proc.yields_pure.mpr .nil

end Grounds

/-! ## What the calls share, over a session -/

section Sharing

variable {w settings} {calls : ℕ → Call F} {l : List (TaskEvent (Ask.Reply (F := F)))}

/-- The numbers drawn. -/
def drawn (l : List (TaskEvent (Ask.Reply (F := F)))) : List (ℕ × ℕ) := l.filterMap fun e =>
  match e with
  | (task, ⟨.nextId, n⟩) => some (task, n)
  | _ => none

/-- The numbers sent. -/
def sent (l : List (TaskEvent (Ask.Reply (F := F)))) : List ℕ := l.filterMap fun e => sentId e.2

theorem mem_drawn {task n : ℕ} : (task, n) ∈ drawn l ↔ (task, (⟨.nextId, n⟩ : Deed F)) ∈ l := by
  constructor
  · intro h
    obtain ⟨⟨task', q, x⟩, he, hx⟩ := List.mem_filterMap.mp h
    cases q <;> cases hx
    exact he
  · exact fun h => List.mem_filterMap.mpr ⟨_, h, rfl⟩

/-- Numbers are drawn in order, each once. -/
theorem drawn_nodup {s : Shared} (h : Steps Shared.step Shared.Answers s l) :
    ((drawn l).map Prod.snd).Nodup ∧ ∀ n ∈ (drawn l).map Prod.snd, s.requestId < n := by
  induction l generalizing s with
  | nil => exact ⟨List.nodup_nil, fun n hn => absurd hn List.not_mem_nil⟩
  | cons e l ih =>
    obtain ⟨hanswer, hrest⟩ := h
    obtain ⟨hnodup, hbound⟩ := ih hrest
    obtain ⟨task, q, x⟩ := e
    cases q with
    | nextId =>
      have hx : @Eq ℕ x (s.requestId + 1) := hanswer
      have hdrawn : (drawn ((task, (⟨.nextId, x⟩ : Deed F)) :: l)).map Prod.snd = x :: (drawn l).map Prod.snd := rfl
      rw [hdrawn, List.nodup_cons]
      refine ⟨⟨fun hmem => ?_, hnodup⟩, List.forall_mem_cons.mpr ⟨by omega, fun n hn => ?_⟩⟩
      · have : s.requestId + 1 < x := hbound x hmem
        omega
      · have : s.requestId + 1 < n := hbound n hn
        omega
    | initialized => exact ⟨hnodup, hbound⟩
    | sessionId => exact ⟨hnodup, hbound⟩
    | send headers payload => exact ⟨hnodup, hbound⟩
    | store id => exact ⟨hnodup, hbound⟩
    | ready => exact ⟨hnodup, hbound⟩

theorem mem_of_get?_fixedHeaders {key value : String} (hkey : key ≠ "Content-Type" ∧ key ≠ "Accept")
    (h : (fixedHeaders settings).get? key = some value) : (key, value) ∈ settings.headers := by
  have hall : ∀ (headers : List (String × String)) (base : Dict String),
      (headers.foldl (fun d header => d.set header.1 header.2) base).get? key = some value →
        base.get? key = some value ∨ (key, value) ∈ headers := by
    intro headers
    induction headers with
    | nil => exact fun base h => .inl h
    | cons header headers ih =>
      intro base h
      rcases ih _ h with hbase | hmem
      · by_cases hk : key = header.1
        · rw [hk, Dict.get?_set_self] at hbase
          obtain rfl := Option.some.inj hbase
          exact .inr (by simp [hk])
        · rw [Dict.get?_set_of_ne _ _ hk] at hbase
          exact .inl hbase
      · exact .inr (List.mem_cons_of_mem _ hmem)
  refine (hall _ _ h).resolve_left fun hbase => ?_
  have htype : (key == "Content-Type") = false := beq_false_of_ne hkey.1
  have haccept : (key == "Accept") = false := beq_false_of_ne hkey.2
  simp [Dict.get?, List.lookup_cons, htype, haccept] at hbase

theorem sessionHeader_ne : sessionHeader ≠ protocolHeader := by decide +kernel

/-- The session in the headers is one of the settings, or the one that the client holds. -/
theorem of_get?_sessionHeader {b : Bool} {held : Option String} {id : String}
    (h : (headersOf settings b held).get? sessionHeader = some id) :
    (sessionHeader, id) ∈ settings.headers ∨ held = some id := by
  have hspoken : (if b then (fixedHeaders settings).set protocolHeader settings.protocolVersion
      else fixedHeaders settings).get? sessionHeader = some id → (sessionHeader, id) ∈ settings.headers := by
    intro hget
    refine mem_of_get?_fixedHeaders ⟨by decide +kernel, by decide +kernel⟩ ?_
    split_ifs at hget
    · rwa [Dict.get?_set_of_ne _ _ sessionHeader_ne] at hget
    · exact hget
  unfold headersOf at h
  cases held with
  | none => exact .inl (hspoken h)
  | some id' =>
    dsimp only at h
    by_cases hid : id' = ""
    · rw [if_pos hid] at h
      exact .inl (hspoken h)
    · rw [if_neg hid, Dict.get?_set_self] at h
      exact .inr h

/-- The protocol version in the headers is one of the settings, and after the handshake theirs. -/
theorem of_get?_protocolHeader {b : Bool} {held : Option String} {version : String}
    (h : (headersOf settings b held).get? protocolHeader = some version) :
    (protocolHeader, version) ∈ settings.headers ∨ b = true ∧ version = settings.protocolVersion := by
  have hspoken : (if b then (fixedHeaders settings).set protocolHeader settings.protocolVersion
      else fixedHeaders settings).get? protocolHeader = some version →
        (protocolHeader, version) ∈ settings.headers ∨ b = true ∧ version = settings.protocolVersion := by
    intro hget
    split_ifs at hget with hb
    · rw [Dict.get?_set_self] at hget
      exact .inr ⟨hb, (Option.some.inj hget).symm⟩
    · exact .inl (mem_of_get?_fixedHeaders ⟨by decide +kernel, by decide +kernel⟩ hget)
  unfold headersOf at h
  cases held with
  | none => exact hspoken h
  | some id =>
    dsimp only at h
    by_cases hid : id = ""
    · rw [if_pos hid] at h
      exact hspoken h
    · rw [if_neg hid, Dict.get?_set_of_ne _ _ sessionHeader_ne.symm] at h
      exact hspoken h

theorem Underway.meant (h : Underway w settings calls l) {pre post : List (TaskEvent (Ask.Reply (F := F)))} {task : ℕ}
    {x : Deed F} (hl : l = pre ++ (task, x) :: post) : Meant w settings (ofTask task pre) x :=
  h.interleaves.grounded (fun task => yields_coroutine_grounded (calls task)) hl

/-- **Numbers are used once.**  A number that is sent was drawn by the same task, and not sent since. -/
theorem Underway.sent_nodup (h : Underway w settings calls l) : (sent l).Nodup := by
  have hdrawn : ((drawn l).map Prod.snd).Nodup := (drawn_nodup h.answers).1
  -- where a number is sent, its task has drawn it, and has sent nothing since
  have hsent : ∀ pre post task x n, l = pre ++ (task, x) :: post → sentId x = some n →
      ∃ pre' mid, ofTask task pre = pre' ++ ⟨.nextId, n⟩ :: mid ∧ ∀ y ∈ mid, sentId y = none := by
    intro pre post task x n hl hx
    obtain ⟨q, y⟩ := x
    cases q with
    | send headers payload => exact (h.meant hl).2 n hx
    | nextId => cases hx
    | initialized => cases hx
    | sessionId => cases hx
    | store id => cases hx
    | ready => cases hx
  refine List.pairwise_filterMap.mpr (Proc.pairwise_of_splits fun l₁ e l₂ e' l₃ hl n hn n' hn' he => ?_)
  subst he
  obtain ⟨task, x⟩ := e
  obtain ⟨task', x'⟩ := e'
  obtain ⟨p, mid, hp, -⟩ := hsent l₁ _ task x n hl hn
  obtain ⟨p', mid', hp', hmid'⟩ := hsent (l₁ ++ (task, x) :: l₂) l₃ task' x' n (by rw [hl]; simp) hn'
  have hfirst : (task, n) ∈ drawn l₁ := mem_drawn.mpr (Proc.mem_ofTask.mp (hp ▸ by simp))
  have hsecond : (task', n) ∈ drawn (l₁ ++ (task, x) :: l₂) := mem_drawn.mpr (Proc.mem_ofTask.mp (hp' ▸ by simp))
  -- the number was drawn once, before the first of the two requests
  have hsplit : drawn l = drawn l₁ ++ (drawn ((task, x) :: l₂) ++ drawn ((task', x') :: l₃)) := by
    rw [hl]
    simp only [drawn, ← List.filterMap_append, List.cons_append]
  rw [hsplit, List.map_append, List.map_append] at hdrawn
  have honce : ∀ task'', (task'', n) ∉ drawn ((task, x) :: l₂) := fun task'' hmem =>
    (List.nodup_append.mp hdrawn).2.2 n (List.mem_map_of_mem (f := Prod.snd) hfirst) n
      (List.mem_append_left _ (List.mem_map_of_mem (f := Prod.snd) hmem)) rfl
  have hsecond' : (task', n) ∈ drawn l₁ := by
    rw [drawn, List.filterMap_append] at hsecond
    exact (List.mem_append.mp hsecond).resolve_right (honce task')
  obtain rfl : task = task' := by
    have hinj := List.inj_on_of_nodup_map (List.nodup_append.mp hdrawn).1 hfirst hsecond' rfl
    exact congrArg Prod.fst hinj
  rw [Proc.ofTask_append, Proc.ofTask_cons_self] at hp'
  rcases List.append_eq_append_iff.mp hp' with ⟨m, -, hm⟩ | ⟨m, -, hm⟩
  · have hmem : (⟨.nextId, n⟩ : Deed F) ∈ ofTask task ((task, x) :: l₂) := by
      rw [Proc.ofTask_cons_self, hm]
      simp
    exact honce task (mem_drawn.mpr (Proc.mem_ofTask.mp hmem))
  · cases m with
    | nil =>
      obtain ⟨rfl, -⟩ := List.cons.inj hm
      cases hn
    | cons y m =>
      obtain ⟨-, hm⟩ := List.cons.inj hm
      have hnone := hmid' x (hm ▸ by simp)
      rw [hnone] at hn
      cases hn

theorem ofTask_subset (task : ℕ) (l : List (TaskEvent (Ask.Reply (F := F)))) : ofTask task l ⊆ l.map Prod.snd :=
  fun x hx => List.mem_map.mpr ⟨(task, x), Proc.mem_ofTask.mp hx, rfl⟩

/-- What the client holds was given by the server. -/
theorem Underway.provenance (h : Underway w settings calls l) {pre post : List (TaskEvent (Ask.Reply (F := F)))}
    (hl : l = pre ++ post) :
    (∀ id, (after Shared.step {} pre).sessionId = some id → Gave id (pre.map Prod.snd)) ∧
      ((after Shared.step {} pre).initialized = true → Agreed w settings (pre.map Prod.snd)) := by
  induction pre using List.reverseRecOn generalizing post with
  | nil => exact ⟨(fun id hid => by cases hid), (fun hb => by cases hb)⟩
  | append_singleton pre e ih =>
    rw [List.append_assoc, List.singleton_append] at hl
    obtain ⟨hsession, hprotocol⟩ := ih hl
    rw [after_concat, List.map_append]
    have hfront : pre.map Prod.snd ⊆ pre.map Prod.snd ++ [e].map Prod.snd := List.subset_append_left ..
    have hsession' := fun id hid => (hsession id hid).mono hfront
    have hprotocol' := fun hb => (hprotocol hb).mono hfront
    obtain ⟨task, q, x⟩ := e
    have hown : ofTask task pre ⊆ pre.map Prod.snd ++ [(task, (⟨q, x⟩ : Deed F))].map Prod.snd :=
      fun y hy => hfront (ofTask_subset task pre hy)
    cases q with
    | nextId => exact ⟨hsession', hprotocol'⟩
    | initialized => exact ⟨hsession', hprotocol'⟩
    | sessionId => exact ⟨hsession', hprotocol'⟩
    | send headers payload => exact ⟨hsession', hprotocol'⟩
    | store id =>
      refine ⟨fun id' hid => ?_, hprotocol'⟩
      cases hid
      exact Gave.mono (h.meant hl) hown
    | ready => exact ⟨hsession', fun _ => Agreed.mono (h.meant hl) hown⟩

/-- The last two requests of a task have read whether the client is initialized, and then which session it holds. -/
def HasRead (pre : List (TaskEvent (Ask.Reply (F := F)))) (task : ℕ) (b : Bool) (id : Option String) : Prop :=
  ∃ q r rest, pre = q ++ (task, ⟨.initialized, b⟩) :: (r ++ (task, ⟨.sessionId, id⟩) :: rest) ∧
    ofTask task r = [] ∧ ofTask task rest = [] ∧ b = (after Shared.step {} q).initialized ∧
    id = (after Shared.step {} (q ++ (task, ⟨.initialized, b⟩) :: r)).sessionId

/-- A request goes out with the headers of what its task has just read. -/
theorem Underway.read (h : Underway w settings calls l) {pre post : List (TaskEvent (Ask.Reply (F := F)))} {task : ℕ}
    {headers : Dict String} {payload : Payload F} {x : Except Exc Response}
    (hl : l = pre ++ (task, (⟨.send headers payload, x⟩ : Deed F)) :: post) :
    ∃ b id, HasRead pre task b id ∧ headers = headersOf settings b id := by
  obtain ⟨⟨front, b, id, htask, hheaders⟩, -⟩ := h.meant hl
  obtain ⟨q, q', rfl, -, hq'⟩ := Proc.exists_of_ofTask htask
  have hnext : ofTask task q' = [] ++ ⟨.sessionId, id⟩ :: [] := hq'
  obtain ⟨r, rest, rfl, hr, hrest⟩ := Proc.exists_of_ofTask hnext
  have hanswers := steps_iff.mp h.answers
  have hb : b = (after Shared.step {} q).initialized := hanswers q _ _ (hl.trans (List.append_assoc ..))
  have hid : id = (after Shared.step {} (q ++ (task, ⟨.initialized, b⟩) :: r)).sessionId :=
    hanswers (q ++ (task, ⟨.initialized, b⟩) :: r) (task, ⟨.sessionId, id⟩)
      (rest ++ (task, ⟨.send headers payload, x⟩) :: post) (by rw [hl]; simp)
  exact ⟨b, id, ⟨q, r, rest, rfl, hr, hrest, hb, hid⟩, hheaders⟩

/-- What a request of a task goes out with: a number that the task has drawn, and the headers of what the task has read
for it; the session in them was given by the server, and the protocol version is in them when the server has agreed on
it. -/
structure Requested (w : World F) (settings : SessionSettings) (pre : List (TaskEvent (Ask.Reply (F := F)))) (task : ℕ)
    (headers : Dict String) (payload : Payload F) : Prop where
  own : ∀ n, payload.id = some n → (task, (⟨.nextId, n⟩ : Deed F)) ∈ pre
  current : ∃ b id, HasRead pre task b id ∧ headers = headersOf settings b id
  session : ∀ id, headers.get? sessionHeader = some id →
    (sessionHeader, id) ∈ settings.headers ∨ Gave id (pre.map Prod.snd)
  protocol : ∀ version, headers.get? protocolHeader = some version →
    (protocolHeader, version) ∈ settings.headers ∨
      version = settings.protocolVersion ∧ Agreed w settings (pre.map Prod.snd)

/-- **Calls share a client.**  In every session the numbers are used once, and each request goes out with a number of
its own and the headers that the client has then. -/
theorem calls_share (h : Underway w settings calls l) : (sent l).Nodup ∧
    ∀ pre task headers payload x post, l = pre ++ (task, (⟨.send headers payload, x⟩ : Deed F)) :: post →
      Requested w settings pre task headers payload := by
  refine ⟨h.sent_nodup, fun pre task headers payload x post hl => ?_⟩
  obtain ⟨b, held, hread, hheaders⟩ := h.read hl
  have hread' := hread
  obtain ⟨q, r, rest, hpre, -, -, hb, hid⟩ := hread'
  -- what the client holds when it is read was given before
  have hfront : ∀ p rest', pre = p ++ rest' → (∃ rest'', l = p ++ rest'') ∧ p.map Prod.snd ⊆ pre.map Prod.snd := by
    rintro p rest' rfl
    exact ⟨⟨_, hl.trans (List.append_assoc ..)⟩, by rw [List.map_append]; exact List.subset_append_left ..⟩
  refine ⟨fun n hn => ?_, ⟨b, _, hread, hheaders⟩, fun given hgiven => ?_, fun version hversion => ?_⟩
  · obtain ⟨pre', mid, hdrawn, -⟩ := (h.meant hl).2 n hn
    exact Proc.mem_ofTask.mp (hdrawn ▸ by simp)
  · rw [hheaders] at hgiven
    refine (of_get?_sessionHeader hgiven).imp_right fun hheld => ?_
    obtain ⟨⟨_, hrest⟩, hsubset⟩ := hfront (q ++ (task, ⟨.initialized, b⟩) :: r)
      ((task, ⟨.sessionId, held⟩) :: rest) (hpre.trans (by simp))
    exact Gave.mono ((h.provenance hrest).1 given (hid.symm.trans hheld)) hsubset
  · rw [hheaders] at hversion
    rcases of_get?_protocolHeader hversion with hgiven | ⟨hready, he⟩
    · exact .inl hgiven
    · obtain ⟨⟨_, hrest⟩, hsubset⟩ := hfront q _ hpre
      exact .inr ⟨he, Agreed.mono ((h.provenance hrest).2 (hb.symm.trans hready)) hsubset⟩

/-! ### Two calls at once -/

def kb : SessionSettings := { name := "kb", url := "http://127.0.0.1:8931/mcp" }

/-- A response with a session, and without a reply. -/
def sessionResponse : Response := ⟨[], "application/json", some "s1"⟩

def handshakeAndCalls : ℕ → Call Empty
  | 0 => .handshake
  | _ + 1 => .callTool (Str.ofString "search") (.dict [])

/-- What the requests of a task are answered. -/
def answersTo (task : ℕ) : (q : Ask Empty) → q.Reply
  | .nextId => @id ℕ (task + 1)
  | .initialized => false
  | .sessionId => if task = 0 then none else some "s1"
  | .send _ _ => .ok sessionResponse
  | .store _ => ()
  | .ready => ()

/-- A tool is called while the handshake is on its way: the headers of the call have the session of the handshake. -/
def twoCalls : List (TaskEvent (Ask.Reply (F := Empty))) :=
  [(0, ⟨.nextId, @id ℕ 1⟩), (1, ⟨.nextId, @id ℕ 2⟩), (0, ⟨.initialized, false⟩), (0, ⟨.sessionId, none⟩),
    (0, ⟨.send (headersOf kb false none) ⟨some 1, "initialize", some (handshakeParams kb)⟩, .ok sessionResponse⟩),
    (0, ⟨.store "s1", ()⟩), (1, ⟨.initialized, false⟩), (1, ⟨.sessionId, some "s1"⟩),
    (1, ⟨.send (headersOf kb false (some "s1")) ⟨some 2, "tools/call",
      some (callParams (Str.ofString "search") (.dict []))⟩, .ok sessionResponse⟩)]

theorem underway_twoCalls : Underway (sends "") kb handshakeAndCalls twoCalls where
  interleaves := by
    intro task
    have htraced : ∀ p : Calling Empty Unit, Proc.Traced anything p (p.replay (answersTo task)).1
      (p.replay (answersTo task)).2 := Proc.traced_replay fun _ => trivial
    match task with
    | 0 => exact ⟨[], _, htraced _⟩
    | 1 => exact ⟨[⟨.store "s1", ()⟩], _, htraced _⟩
    | task + 2 => exact ⟨_, _, htraced _⟩
  answers := ⟨rfl, rfl, rfl, rfl, trivial, trivial, rfl, rfl, trivial, trivial⟩

/-- Two pages of tools, the first with a cursor. -/
def toolsEvent : ℕ → String
  | 1 => "data: \x7b\"id\": 1, \"result\": \x7b\"tools\": [\x7b\"name\": \"search\"\x7d, \x7b\"name\": \"fetch\"\x7d], " ++
      "\"nextCursor\": \"p2\"\x7d\x7d\n\n"
  | n => s!"data: \x7b\"id\": {n}, \"result\": \x7b\"tools\": [\x7b\"name\": \"store\"\x7d]\x7d\x7d\n\n"

/-- The tools of `kb` are listed.  A page takes four requests, of which the first draws its number. -/
def listing : List (Deed Empty) × Except Exc (List (McpToolInfo Empty)) :=
  (listTools (sends "") kb).replayFrom (fun n q => match q with
    | .nextId => @id ℕ (n / 4 + 1)
    | .initialized => true
    | .sessionId => none
    | .send _ _ => .ok ⟨bytesOf (toolsEvent (n / 4 + 1)), "text/event-stream", none⟩
    | .store _ => ()
    | .ready => ()) 0

/-- What `listing` has sent: the second request asks with the cursor of the first page. -/
def sentPayloads (l : List (Deed Empty)) : List (Payload Empty) := l.filterMap fun e => match e.1 with
  | .send _ payload => some payload
  | _ => none

theorem pages_followed_listing :
    sentPayloads listing.1 = [⟨some 1, "tools/list", none⟩,
      ⟨some 2, "tools/list", some (objectOf [("cursor", word "p2")])⟩] ∧
    listing.2.map (List.map McpToolInfo.name) = .ok (["search", "fetch", "store"].map Str.ofString) ∧
    Listed (sends "") kb 50 (.scalar .none) listing.1 listing.2 :=
  ⟨by decide +kernel, by decide +kernel, pages_followed (Proc.traced_replayFrom (fun _ _ => trivial) 0 _)⟩

theorem calls_share_twoCalls : (sent twoCalls).Nodup ∧
    ∀ pre task headers payload x post, twoCalls = pre ++ (task, (⟨.send headers payload, x⟩ : Deed Empty)) :: post →
      Requested (sends "") kb pre task headers payload :=
  calls_share underway_twoCalls

end Sharing

end Xyberos.Mcp.Session
