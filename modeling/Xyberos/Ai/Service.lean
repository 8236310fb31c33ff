import Xyberos.Ai.Adapter
import Xyberos.Base.Interleaving

/-!
# Xyberos.Ai.Service — the calls of an adapter, and the release of its service

The calls of an `OllamaProvider` are coroutines that share what a health check has learned of the release of the
service.  They interleave wherever one of them is suspended, and between any two of their exchanges here.

In every interleaving a chat, a stream or an embedding goes out only after its call found that the release learned last,
if any, is not too old, and what is learned is what the service has answered to a health check (`floor_kept`).  A stream
delivers the chunks of its lines in their order, and closes its response once, behind them (`stream_delivers`).
-/

set_option autoImplicit false

namespace Xyberos.Ai.Adapter

open Json
open Proc (Exchange Traced Yields Grounded Local TaskEvent ofTask Interleaves)

variable {F : Type}

/-! ## The code -/

/-- What a call asks for. -/
inductive Ask (F : Type)
  /-- `self._reported_version` -/
  | reported
  /-- `self._reported_version = version` -/
  | learn (version : Str)
  /-- `client.get(VERSION_PATH)` -/
  | version
  /-- `client.post(path, json=payload)` -/
  | post (path : String) (payload : Value F)
  /-- `client.stream("POST", CHAT_PATH, json=payload)` is entered -/
  | enter (payload : Value F)
  /-- `yield chunk`: the consumer goes on, or throws something in -/
  | yield (chunk : ChatChunk)
  /-- the streamed response is closed -/
  | close

/-- A streamed response: what reading it whole raises, its lines, and what the connection raises behind them. -/
structure StreamedResponse (F : Type) extends Response F where
  read : Except Exc Unit
  lines : List (List Char)
  broken : Option Exc

abbrev Ask.Reply : Ask F → Type
  | .reported => Option Str
  | .learn _ => Unit
  | .version => Except Exc (Response F)
  | .post _ _ => Except Exc (Response F)
  | .enter _ => Except Exc (StreamedResponse F)
  | .yield _ => Except Exc Unit
  | .close => Except Exc Unit

abbrev Calling (F α : Type) := Proc (Ask F) Ask.Reply Exc α

/-- What a call asks, and what it is answered. -/
abbrev Deed (F : Type) := Exchange (Ask.Reply (F := F))

def ask (q : Ask F) : Calling F q.Reply := Proc.request q

structure EmbeddingRequest where
  inputs : List Str
  model : Option Str := none

inductive ModelStatus
  | ready | unreachable | modelUnavailable | unhealthy
deriving DecidableEq, Repr

structure ModelHealth where
  status : ModelStatus
  model : Str
  detail : String := ""
  providerVersion : Option Str := none

variable (settings : OllamaSettings F) (py : Platform F)

/-- `_floor_message`. -/
def floorMessage (reported : Str) : String :=
  s!"Ollama {textOf reported} is older than the supported minimum {textOf settings.minimumVersion}: structured " ++
    "output, tool calling, and batch embeddings are only verified against that floor or newer. Upgrade Ollama, or " ++
    "lower minimum_version deliberately and accept that Xyberos does not test against it"

/-- `_refuse_unsupported_service`, from what it reads. -/
def refuseUnsupportedService (reported : Option Str) : Except Exc Unit :=
  match reported with
  | none => .ok ()
  | some version => do
    let below ← py.versionIsBelow version settings.minimumVersion
    if below then .error (aiConfigurationError (floorMessage settings version)) else .ok ()

/-- `_require_supported`. -/
def requireSupported (request : ChatRequest F) : Except Exc Unit :=
  if !request.tools.isEmpty && !settings.tools then
    .error (aiUnsupportedCapabilityError (s!"the Ollama model {reprStr (textOf settings.model)} is not configured " ++
      "with tool support; set tools = true for this model once you have confirmed the model supports them"))
  else if request.responseSchema.isSome && !settings.structuredOutput then
    .error (aiUnsupportedCapabilityError (s!"the Ollama model {reprStr (textOf settings.model)} is not configured " ++
      "with structured output support; set structured_output = true once you have confirmed the model honours a " ++
      "JSON schema"))
  else .ok ()

/-- What `_post` makes of an exception. -/
def callError (path : String) (error : Exc) : Exc :=
  if error.isInstance "TimeoutException" then aiTimeoutError s!"the Ollama call to {path} timed out"
  else if error.isInstance "HTTPError" then aiTransportError s!"the Ollama service is unreachable: {error.cls.name}"
  else error

/-- `_post`. -/
def post (path : String) (payload : Value F) : Calling F (Value F) := do
  let answer : Except Exc (Response F) ← ask (.post path payload)
  match answer with
  | .error error => .raise (callError path error)
  | .ok response => Proc.ofExcept (received settings py path response)

/-- `chat`. -/
def chat (request : ChatRequest F) : Calling F (ChatResponse F) := do
  Proc.ofExcept (requireSupported settings request)
  let reported : Option Str ← ask .reported
  Proc.ofExcept (refuseUnsupportedService settings py reported)
  let data ← post settings py "/api/chat" (chatPayload settings request false)
  Proc.ofExcept (chatResponse settings py data)

/-- `embed`. -/
def embed (request : EmbeddingRequest) : Calling F (EmbeddingResponse F) := do
  let model := nameOr request.model (settings.embeddingModel.getD [])
  if model.isEmpty then
    .raise (aiConfigurationError ("no embedding model is configured; set embedding_model on the Ollama settings, " ++
      "for example XYBEROS_AI__OLLAMA__EMBEDDING_MODEL=nomic-embed-text"))
  else do
    let reported : Option Str ← ask .reported
    Proc.ofExcept (refuseUnsupportedService settings py reported)
    let data ← post settings py "/api/embed" (objectOf [("model", .scalar (.str model)),
      ("input", .list (request.inputs.map fun s => .scalar (.str s)))])
    Proc.ofExcept (embeddingResponse py data request.inputs.length model)

/-- The loop of `_stream`. -/
def streamLines : List (List Char) → Option Exc → Calling F Unit
  | [], none => return ()
  | [], some error => .raise error
  | line :: lines, broken =>
    match streamChunk settings py line with
    | .error error => .raise error
    | .ok none => streamLines lines broken
    | .ok (some chunk) => do
      let resumed : Except Exc Unit ← ask (.yield chunk)
      match resumed with
      | .error error => .raise error
      | .ok _ => streamLines lines broken

/-- What `_stream` makes of an exception. -/
def streamError (error : Exc) : Exc :=
  if error.isInstance "TimeoutException" then aiTimeoutError "the Ollama stream timed out"
  else if error.isInstance "HTTPError" then
    aiTransportError s!"the Ollama service became unreachable during the stream: {error.cls.name}"
  else error

/-- The body of the `async with` of `_stream`. -/
def streamBody (response : StreamedResponse F) : Calling F Unit :=
  if 400 ≤ response.status then do
    Proc.ofExcept response.read
    Proc.ofExcept (raiseForStatus settings py response.toResponse "/api/chat")
    streamLines settings py response.lines response.broken
  else streamLines settings py response.lines response.broken

/-- `_stream`. -/
def streamFrom (payload : Value F) : Calling F Unit := do
  let entered : Except Exc (StreamedResponse F) ← ask (.enter payload)
  match entered with
  | .error error => .raise (streamError error)
  | .ok response => do
    let ended : Except Exc Unit ← (streamBody settings py response).attempt
    let closed : Except Exc Unit ← ask .close
    Proc.ofExcept ((closed >>= fun _ => ended).mapError streamError)

/-- What `stream` refuses before it looks at the release, beside `_require_supported`. -/
def requireStreaming : Except Exc Unit :=
  if settings.streaming then .ok ()
  else .error (aiUnsupportedCapabilityError (s!"the Ollama model {reprStr (textOf settings.model)} is configured " ++
    "with streaming = false; enable it once you have confirmed the model supports streaming"))

/-- What `stream` refuses after it has looked at the release. -/
def refuseExtras (request : ChatRequest F) : Except Exc Unit :=
  if !request.tools.isEmpty then .error (aiRequestError "an Ollama streaming request cannot offer tools")
  else if request.responseSchema.isSome then
    .error (aiRequestError "an Ollama streaming request cannot ask for a response schema")
  else .ok ()

/-- `stream`, and the generator that it returns. -/
def stream (request : ChatRequest F) : Calling F Unit := do
  Proc.ofExcept (requireSupported settings request)
  Proc.ofExcept (requireStreaming settings)
  let reported : Option Str ← ask .reported
  Proc.ofExcept (refuseUnsupportedService settings py reported)
  Proc.ofExcept (refuseExtras request)
  streamFrom settings py (chatPayload settings request true)

/-- `_safe_json`. -/
def safeJson (response : Response F) : Except Exc (Value F) :=
  match response.json with
  | .ok data => .ok (if isMapping data then data else .dict [])
  | .error error => if error.isInstance "ValueError" then .ok (.dict []) else .error error

/-- `_service_version`, from what the service answers. -/
def serviceVersion (answer : Except Exc (Response F)) : Except Exc (Option Str) :=
  match answer with
  | .error error => if error.isInstance "HTTPError" then .ok none else .error error
  | .ok response =>
    if 400 ≤ response.status then .ok none
    else do
      let data ← safeJson response
      return some ((name? (getKeyword "version" data)).getD (Str.ofString "unknown"))

/-- `_reported_capabilities`, each as `str` writes it. -/
def reportedCapabilities (data : Value F) : Except Exc (Option (List Str)) :=
  let reported := getKeyword "capabilities" data
  if isSequence reported then do
    let names ← (sequence reported).mapM py.strOf
    return some names
  else .ok none

/-- `_capability_mismatch`. -/
def capabilityMismatch (reported : Option (List Str)) : Option String :=
  match reported with
  | none => none
  | some names =>
    if settings.tools && !names.contains (Str.ofString "tools") then
      let listed := textOr "none" (some (", ".intercalate (names.map textOf)))
      some s!"this adapter is configured with tools = true, but the model reports these capabilities: {listed}"
    else none

/-- The rest of `health`, from what the service answers about the model. -/
def inspected (version : Str) (answer : Except Exc (Response F)) : Except Exc ModelHealth :=
  let unhealthy := fun detail : String => (⟨.unhealthy, settings.model, detail, some version⟩ : ModelHealth)
  match answer with
  | .error error =>
    if error.isInstance "HTTPError" then .ok (unhealthy s!"the model could not be inspected ({error.cls.name})")
    else .error error
  | .ok response =>
    if response.status = 404 then
      .ok ⟨.modelUnavailable, settings.model, s!"the model {reprStr (textOf settings.model)} is not available on " ++
        "this service; pull it yourself or configure another model, because Xyberos never pulls models", some version⟩
    else if 400 ≤ response.status then .ok (unhealthy s!"Ollama answered {response.status} for /api/show")
    else do
      let data ← safeJson response
      let reported ← reportedCapabilities py data
      match capabilityMismatch settings reported with
      | some detail => return unhealthy detail
      | none => return ⟨.ready, settings.model, "", some version⟩

/-- `health`. -/
def health : Calling F ModelHealth := do
  let answer : Except Exc (Response F) ← ask .version
  let version ← Proc.ofExcept (serviceVersion answer)
  match version with
  | none => return ⟨.unreachable, settings.model,
      s!"the Ollama service at {settings.baseUrl} did not answer /api/version", none⟩
  | some version => do
    let _ : Unit ← ask (.learn version)
    let below ← Proc.ofExcept (py.versionIsBelow version settings.minimumVersion)
    if below then return ⟨.unhealthy, settings.model, floorMessage settings version, some version⟩
    else do
      let shown : Except Exc (Response F) ← ask (.post "/api/show" (objectOf [("model", .scalar (.str settings.model))]))
      Proc.ofExcept (inspected settings py version shown)

/-- A call of an adapter. -/
inductive Call (F : Type)
  | chat (request : ChatRequest F)
  | stream (request : ChatRequest F)
  | embed (request : EmbeddingRequest)
  | health

/-- What a call does, whatever it returns. -/
def Call.coroutine : Call F → Calling F Unit
  | .chat request => (Adapter.chat settings py request).discard
  | .stream request => Adapter.stream settings py request
  | .embed request => (Adapter.embed settings py request).discard
  | .health => (Adapter.health settings py).discard

/-! ## What the calls share -/

/-- What an exchange of a call does to the release that is known. -/
def known (version : Option Str) (e : TaskEvent (Ask.Reply (F := F))) : Option Str :=
  match e.2.1 with
  | .learn version => some version
  | _ => version

/-- The adapter gives the answer. -/
def Told (version : Option Str) (e : TaskEvent (Ask.Reply (F := F))) : Prop :=
  match e.2 with
  | ⟨.reported, x⟩ => x = version
  | _ => True

/-- Calls of a fresh adapter, any number of them, in any interleaving. -/
structure Underway (calls : ℕ → Call F) (l : List (TaskEvent (Ask.Reply (F := F)))) : Prop where
  interleaves : Interleaves (fun _ _ => True) (fun task => (calls task).coroutine settings py) l
  told : Steps known Told none l

/-- The release is one that the adapter works with. -/
def Supported (version : Option Str) : Prop := refuseUnsupportedService settings py version = .ok ()

/-- A request for a chat, a stream or an embedding. -/
def goesOut : Ask F → Bool
  | .post path _ => path != "/api/show"
  | .enter _ => true
  | _ => false

/-- What a call does in view of what it has done. -/
structure Meant (l : List (Deed F)) (x : Deed F) : Prop where
  /-- it sends a request when it has just found the release supported -/
  sent : goesOut x.1 = true → ∃ l' version, l = l' ++ [⟨.reported, version⟩] ∧ Supported settings py version
  /-- it keeps a release when the service has just answered with it -/
  learned : ∀ version, x.1 = .learn version →
    ∃ l' answer, l = l' ++ [⟨.version, answer⟩] ∧ serviceVersion answer = .ok (some version)
  /-- it inspects a model when it has just kept a release that is supported -/
  shown : ∀ payload, x.1 = .post "/api/show" payload →
    ∃ l' version, l = l' ++ [⟨.learn version, ()⟩] ∧ Supported settings py (some version)

/-- An exchange of a task, with nothing of the task since. -/
def JustDid (task : ℕ) (x : Deed F) (l l₁ : List (TaskEvent (Ask.Reply (F := F)))) : Prop :=
  ∃ l₂, l = l₁ ++ (task, x) :: l₂ ∧ ∀ e ∈ l₂, e.1 ≠ task

/-- What holds of the requests of any number of calls. -/
structure FloorKept (l : List (TaskEvent (Ask.Reply (F := F)))) : Prop where
  /-- a request goes out when its call has just found the release that was known then supported -/
  sent : ∀ before task x behind, l = before ++ (task, x) :: behind → goesOut x.1 = true →
    ∃ l₁, JustDid task ⟨.reported, after known none l₁⟩ before l₁ ∧ Supported settings py (after known none l₁)
  /-- the release that is known is what the service has just answered to the call that keeps it -/
  learned : ∀ before task version u behind, l = before ++ (task, ⟨.learn version, u⟩) :: behind →
    ∃ answer l₁, JustDid task ⟨.version, answer⟩ before l₁ ∧ serviceVersion answer = .ok (some version)
  /-- a model is inspected on a service that has just been found supported -/
  shown : ∀ before task payload answer behind, l = before ++ (task, ⟨.post "/api/show" payload, answer⟩) :: behind →
    ∃ version l₁, JustDid task ⟨.learn version, ()⟩ before l₁ ∧ Supported settings py (some version)

/-! ## What a stream delivers -/

/-- The chunks that are yielded. -/
def yielded (l : List (Deed F)) : List ChatChunk :=
  l.filterMap fun x =>
    match x.1 with
    | .yield chunk => some chunk
    | _ => none

/-- The chunk of a line, if it has one. -/
def chunkOf (line : List Char) : Option ChatChunk :=
  match streamChunk settings py line with
  | .ok chunk => chunk
  | .error _ => none

/-- Why the reading of a streamed response stopped, after the lines of `before` and with those of `behind` left. -/
inductive Stopped (broken : Option Exc) : List (Deed F) → List (List Char) → List (List Char) → Except Exc Unit → Prop
  /-- there was none left -/
  | finished (l : List (Deed F)) (before : List (List Char)) (h : broken = none) : Stopped broken l before [] (.ok ())
  /-- the connection broke behind the last one -/
  | broke (l : List (Deed F)) (before : List (List Char)) (e : Exc) (h : broken = some e) :
      Stopped broken l before [] (.error e)
  /-- the next one was refused -/
  | refused (l : List (Deed F)) (before : List (List Char)) (line : List Char) (rest : List (List Char)) (e : Exc)
      (h : streamChunk settings py line = .error e) : Stopped broken l before (line :: rest) (.error e)
  /-- the consumer threw something in at the chunk of the last one -/
  | thrown (l : List (Deed F)) (before : List (List Char)) (line : List Char) (behind : List (List Char))
      (chunk : ChatChunk) (e : Exc) (h : streamChunk settings py line = .ok (some chunk)) :
      Stopped broken (l ++ [⟨.yield chunk, .error e⟩]) (before ++ [line]) behind (.error e)

/-- The lines of a streamed response were read up to some place: their chunks were yielded, each once and in order, and
the reading stopped for one of the reasons there are. -/
structure Flows (lines : List (List Char)) (broken : Option Exc) (l : List (Deed F)) (r : Except Exc Unit) : Prop where
  yields : ∀ x ∈ l, ∃ chunk, x.1 = .yield chunk
  /-- what the consumer throws in is the end -/
  heard : ∀ pre chunk e post, l = pre ++ ⟨.yield chunk, .error e⟩ :: post → post = [] ∧ r = .error e
  inOrder : ∃ before behind, lines = before ++ behind ∧ yielded l = before.filterMap (chunkOf settings py) ∧
    (∀ line ∈ before, ∃ chunk, streamChunk settings py line = .ok chunk) ∧ Stopped settings py broken l before behind r

/-- Nothing is refused before the service is asked, if it reported this release. -/
structure Admitted (request : ChatRequest F) (version : Option Str) : Prop where
  possible : requireSupported settings request = .ok ()
  streaming : requireStreaming settings = .ok ()
  supported : Supported settings py version
  plain : refuseExtras request = .ok ()

/-- The course of a stream that is asked for: it is not answered, or answered with an error, or it is delivered; an
answer is closed once, at the end. -/
inductive Answered (payload : Value F) : List (Deed F) → Except Exc Unit → Prop
  | unanswered (e : Exc) : Answered payload [⟨.enter payload, .error e⟩] (.error (streamError e))
  | failed (response : StreamedResponse F) (e : Exc) (closed : Except Exc Unit) (hstatus : 400 ≤ response.status)
      (he : (response.read >>= fun _ => raiseForStatus settings py response.toResponse "/api/chat") = .error e) :
      Answered payload [⟨.enter payload, .ok response⟩, ⟨.close, closed⟩]
        ((closed >>= fun _ => .error e).mapError streamError)
  | delivered (response : StreamedResponse F) (l : List (Deed F)) (r closed : Except Exc Unit)
      (hstatus : response.status < 400) (hflows : Flows settings py response.lines response.broken l r) :
      Answered payload (⟨.enter payload, .ok response⟩ :: (l ++ [⟨.close, closed⟩]))
        ((closed >>= fun _ => r).mapError streamError)

/-- The course of a stream: it is refused before the release is looked at, or after it, or it is asked for. -/
inductive Streamed (request : ChatRequest F) : List (Deed F) → Except Exc Unit → Prop
  | refused (e : Exc) (h : (requireSupported settings request >>= fun _ => requireStreaming settings) = .error e) :
      Streamed request [] (.error e)
  | unsupported (version : Option Str) (e : Exc) (hpossible : requireSupported settings request = .ok ())
      (hstreaming : requireStreaming settings = .ok ())
      (h : (refuseUnsupportedService settings py version >>= fun _ => refuseExtras request) = .error e) :
      Streamed request [⟨.reported, version⟩] (.error e)
  | asked (version : Option Str) (l : List (Deed F)) (r : Except Exc Unit) (h : Admitted settings py request version)
      (hanswered : Answered settings py (chatPayload settings request true) l r) :
      Streamed request (⟨.reported, version⟩ :: l) r

section Grounds

variable {settings py}

theorem meant_local : Local (Meant settings py) := by
  intro l pre x h
  refine ⟨fun hout => ?_, fun version hx => ?_, fun payload hx => ?_⟩
  · obtain ⟨l', version, rfl, hsupported⟩ := h.sent hout
    exact ⟨l ++ l', version, (List.append_assoc ..).symm, hsupported⟩
  · obtain ⟨l', answer, rfl, hversion⟩ := h.learned version hx
    exact ⟨l ++ l', answer, (List.append_assoc ..).symm, hversion⟩
  · obtain ⟨l', version, rfl, hsupported⟩ := h.shown payload hx
    exact ⟨l ++ l', version, (List.append_assoc ..).symm, hsupported⟩

/-- What a call may do at any time. -/
def free : Ask F → Bool
  | .learn _ => false
  | .post _ _ => false
  | .enter _ => false
  | _ => true

theorem meant_of_free {l : List (Deed F)} {x : Deed F} (h : free x.1 = true) : Meant settings py l x := by
  obtain ⟨q, a⟩ := x
  cases q with
  | learn version => cases h
  | post path payload => cases h
  | enter payload => cases h
  | _ => exact ⟨by simp [goesOut], by simp, by simp⟩

theorem meant_of_goesOut (l' : List (Deed F)) {version : Option Str} {x : Deed F} (h : goesOut x.1 = true)
    (hsupported : Supported settings py version) : Meant settings py (l' ++ [⟨.reported, version⟩]) x := by
  obtain ⟨q, a⟩ := x
  refine ⟨fun _ => ⟨l', version, rfl, hsupported⟩, ?_, ?_⟩
  · rintro version rfl
    cases h
  · rintro payload rfl
    cases h

abbrev anything : (q : Ask F) → q.Reply → Prop := fun _ _ => True

theorem grounded_single {x : Deed F} (hx : Meant settings py [] x) : Grounded (Meant settings py) [x] :=
  Grounded.cons_iff.mpr ⟨hx, .nil⟩

theorem grounded_pair {x y : Deed F} (hx : Meant settings py [] x) (hy : Meant settings py [x] y) :
    Grounded (Meant settings py) [x, y] :=
  Grounded.cons_iff.mpr ⟨hx, Grounded.cons_iff.mpr ⟨hy, .nil⟩⟩

/-- A request that follows the check of the release. -/
theorem yields_checked {α : Type} {path : String} {payload : Value F} {f : Value F → Except Exc α}
    (hpath : (path != "/api/show") = true) :
    Yields anything (do
      let reported : Option Str ← ask .reported
      Proc.ofExcept (refuseUnsupportedService settings py reported)
      let data ← post settings py path payload
      Proc.ofExcept (f data)) fun l _ => Grounded (Meant settings py) l := by
  refine Proc.yields_bind_request.mpr fun reported _ => Proc.yields_bind.mpr (Proc.yields_ofExcept.mpr ?_)
  cases hrefuse : refuseUnsupportedService settings py reported with
  | error e => exact grounded_single (meant_of_free rfl)
  | ok u =>
    refine Proc.yields_bind.mpr (Proc.yields_bind_request.mpr fun answer _ => ?_)
    have hpair : Grounded (Meant settings py) [⟨.reported, reported⟩, ⟨.post path payload, answer⟩] :=
      grounded_pair (meant_of_free rfl) (meant_of_goesOut [] hpath hrefuse)
    cases answer with
    | error e => exact Proc.yields_raise.mpr hpair
    | ok response =>
      refine Proc.yields_ofExcept.mpr ?_
      cases received settings py path response with
      | error e => exact hpair
      | ok data => exact Proc.yields_ofExcept.mpr hpair

theorem yields_chat (request : ChatRequest F) :
    Yields anything (chat settings py request) fun l _ => Grounded (Meant settings py) l := by
  refine Proc.yields_bind.mpr (Proc.yields_ofExcept.mpr ?_)
  cases requireSupported settings request with
  | error e => exact .nil
  | ok u => exact yields_checked rfl

theorem yields_embed (request : EmbeddingRequest) :
    Yields anything (embed settings py request) fun l _ => Grounded (Meant settings py) l := by
  unfold embed
  dsimp only
  split_ifs
  · exact Proc.yields_raise.mpr .nil
  · exact yields_checked rfl

theorem yields_health : Yields anything (health settings py) fun l _ => Grounded (Meant settings py) l := by
  refine Proc.yields_bind_request.mpr fun answer _ => Proc.yields_bind.mpr (Proc.yields_ofExcept.mpr ?_)
  cases hversion : serviceVersion answer with
  | error e => exact grounded_single (meant_of_free rfl)
  | ok version =>
    cases version with
    | none => exact Proc.yields_pure.mpr (grounded_single (meant_of_free rfl))
    | some version =>
      refine Proc.yields_bind_request.mpr fun _ _ => Proc.yields_bind.mpr (Proc.yields_ofExcept.mpr ?_)
      -- the version is learnt from the answer that shows it
      have hlearn : Meant settings py [⟨.version, answer⟩] ⟨.learn version, ()⟩ := by
        refine ⟨by simp [goesOut], fun version' he => ?_, by simp⟩
        obtain rfl := Ask.learn.inj he
        exact ⟨[], answer, rfl, hversion⟩
      have hpair : Grounded (Meant settings py) [⟨.version, answer⟩, ⟨.learn version, ()⟩] :=
        grounded_pair (meant_of_free rfl) hlearn
      cases hbelow : py.versionIsBelow version settings.minimumVersion with
      | error e => exact hpair
      | ok below =>
        cases below with
        | true => exact Proc.yields_pure.mpr hpair
        | false =>
          refine Proc.yields_bind_request.mpr fun shown _ => Proc.yields_ofExcept.mpr ?_
          have hsupported : Supported settings py (some version) := by
            unfold Supported refuseUnsupportedService
            dsimp only
            rw [hbelow]
            rfl
          refine Grounded.cons_iff.mpr ⟨meant_of_free rfl, Grounded.cons_iff.mpr ⟨hlearn, Grounded.cons_iff.mpr
            ⟨⟨by simp [goesOut], by simp, fun _ _ => ?_⟩, .nil⟩⟩⟩
          exact ⟨[⟨.version, answer⟩], version, rfl, hsupported⟩

/-! ### Streams -/

section Flows

variable {line : List Char} {lines : List (List Char)} {broken : Option Exc} {chunk : ChatChunk} {l : List (Deed F)}
  {r : Except Exc Unit}

theorem Flows.nothing (h : Stopped settings py broken [] [] lines r) : Flows settings py lines broken [] r :=
  ⟨by simp, by simp, [], lines, rfl, rfl, by simp, h⟩

/-- A line in front that has no chunk. -/
theorem Flows.silent (hchunk : streamChunk settings py line = .ok none) (h : Flows settings py lines broken l r) :
    Flows settings py (line :: lines) broken l r := by
  obtain ⟨before, behind, rfl, hbefore, hread, hstopped⟩ := h.inOrder
  refine ⟨h.yields, h.heard, line :: before, behind, rfl, ?_, ?_, ?_⟩
  · rw [List.filterMap_cons, chunkOf, hchunk]
    exact hbefore
  · exact List.forall_mem_cons.mpr ⟨⟨none, hchunk⟩, hread⟩
  · cases hstopped with
    | finished l before hb => exact .finished _ _ hb
    | broke l before e hb => exact .broke _ _ e hb
    | refused l before line' rest e he => exact .refused _ _ line' rest e he
    | thrown l before line' behind chunk e hc => exact .thrown l (line :: before) line' behind chunk e hc

/-- A line in front whose chunk the consumer took. -/
theorem Flows.spoken (hchunk : streamChunk settings py line = .ok (some chunk))
    (h : Flows settings py lines broken l r) :
    Flows settings py (line :: lines) broken (⟨.yield chunk, .ok ()⟩ :: l) r := by
  obtain ⟨before, behind, rfl, hbefore, hread, hstopped⟩ := h.inOrder
  refine ⟨List.forall_mem_cons.mpr ⟨⟨chunk, rfl⟩, h.yields⟩, ?_, line :: before, behind, rfl, ?_, ?_, ?_⟩
  · intro pre chunk' e post hl
    cases pre with
    | nil =>
      obtain ⟨hx, -⟩ := List.cons.inj hl
      cases hx
    | cons x pre => exact h.heard pre chunk' e post (List.cons.inj hl).2
  · rw [List.filterMap_cons, chunkOf, hchunk, ← hbefore]
    rfl
  · exact List.forall_mem_cons.mpr ⟨⟨some chunk, hchunk⟩, hread⟩
  · cases hstopped with
    | finished l before hb => exact .finished _ _ hb
    | broke l before e hb => exact .broke _ _ e hb
    | refused l before line' rest e he => exact .refused _ _ line' rest e he
    | thrown l before line' behind chunk' e hc =>
      exact .thrown (⟨.yield chunk, .ok ()⟩ :: l) (line :: before) line' behind chunk' e hc

/-- A line at whose chunk the consumer threw something in. -/
theorem Flows.thrown {e : Exc} (hchunk : streamChunk settings py line = .ok (some chunk)) :
    Flows settings py (line :: lines) broken [⟨.yield chunk, .error e⟩] (.error e) := by
  refine ⟨by simp, ?_, [line], lines, rfl, ?_, ?_, .thrown [] [] line lines chunk e hchunk⟩
  · intro pre chunk' e' post hl
    cases pre with
    | nil =>
      obtain ⟨hx, hpost⟩ := List.cons.inj hl
      cases hx
      exact ⟨hpost.symm, rfl⟩
    | cons x pre => simp at hl
  · rw [List.filterMap_cons, chunkOf, hchunk]
    rfl
  · simp [hchunk]

theorem flows_streamLines (lines : List (List Char)) (broken : Option Exc) :
    Yields anything (streamLines settings py lines broken) (Flows settings py lines broken) := by
  induction lines with
  | nil =>
    cases broken with
    | none => exact Proc.yields_pure.mpr (.nothing (.finished _ _ rfl))
    | some e => exact Proc.yields_raise.mpr (.nothing (.broke _ _ e rfl))
  | cons line lines ih =>
    unfold streamLines
    cases hchunk : streamChunk settings py line with
    | error e => exact Proc.yields_raise.mpr (.nothing (.refused _ _ line lines e hchunk))
    | ok chunk =>
      cases chunk with
      | none => exact ih.mono fun l r h => h.silent hchunk
      | some chunk =>
        refine Proc.yields_bind_request.mpr fun resumed _ => ?_
        cases resumed with
        | error e => exact Proc.yields_raise.mpr (.thrown hchunk)
        | ok u => exact ih.mono fun l r h => h.spoken hchunk

end Flows

/-- A stream that is asked for. -/
theorem answered_streamFrom (payload : Value F) :
    Yields anything (streamFrom settings py payload) (Answered settings py payload) := by
  refine Proc.yields_bind_request.mpr fun entered _ => ?_
  cases entered with
  | error e => exact Proc.yields_raise.mpr (.unanswered e)
  | ok response =>
    -- whichever way the body ends, the response is closed then
    have hclose : ∀ {l r}, (∀ closed,
        Answered settings py payload (⟨.enter payload, .ok response⟩ :: (l ++ [⟨.close, closed⟩]))
          ((closed >>= fun _ => r).mapError streamError)) → Yields anything (do
          let closed : Except Exc Unit ← ask .close
          Proc.ofExcept ((closed >>= fun _ => r).mapError streamError)) fun l' r' =>
            Answered settings py payload (⟨.enter payload, .ok response⟩ :: (l ++ l')) r' :=
      fun h => Proc.yields_bind_request.mpr fun closed _ => Proc.yields_ofExcept.mpr (h closed)
    refine Proc.yields_bind.mpr (Proc.yields_attempt.mpr ?_)
    unfold streamBody
    split_ifs with hstatus
    · refine Proc.yields_bind.mpr (Proc.yields_ofExcept.mpr ?_)
      cases hread : response.read with
      | error e => exact hclose (l := []) fun closed => .failed response e closed hstatus (by rw [hread]; rfl)
      | ok u =>
        refine Proc.yields_bind.mpr (Proc.yields_ofExcept.mpr ?_)
        cases hraise : raiseForStatus settings py response.toResponse "/api/chat" with
        | error e =>
          exact hclose (l := []) fun closed => .failed response e closed hstatus (by rw [hread]; exact hraise)
        | ok u => exact absurd (raiseForStatus_ok_iff.mp hraise) (not_lt.mpr hstatus)
    · have hlines : Yields anything (streamLines settings py response.lines response.broken)
          (Flows settings py response.lines response.broken) := flows_streamLines response.lines response.broken
      exact hlines.mono fun l r h => hclose fun closed => .delivered response l r closed (not_le.mp hstatus) h

/-- Only the first request of a stream is a grave one. -/
theorem Answered.free {payload : Value F} {l : List (Deed F)} {r : Except Exc Unit}
    (h : Answered settings py payload l r) :
    ∃ x l', l = ⟨.enter payload, x⟩ :: l' ∧ ∀ y ∈ l', Adapter.free y.1 = true := by
  cases h with
  | unanswered e => exact ⟨_, [], rfl, by simp⟩
  | failed response e closed => exact ⟨_, _, rfl, by simp [Adapter.free]⟩
  | delivered response l r closed hstatus hflows =>
    refine ⟨_, _, rfl, fun y hy => ?_⟩
    rcases List.mem_append.mp hy with hy | hy
    · obtain ⟨chunk, hchunk⟩ := hflows.yields y hy
      rw [hchunk]
      rfl
    · obtain rfl := List.mem_singleton.mp hy
      rfl

theorem yields_stream (request : ChatRequest F) :
    Yields anything (stream settings py request) fun l _ => Grounded (Meant settings py) l := by
  refine Proc.yields_bind.mpr (Proc.yields_ofExcept.mpr ?_)
  cases requireSupported settings request with
  | error e => exact .nil
  | ok u =>
    refine Proc.yields_bind.mpr (Proc.yields_ofExcept.mpr ?_)
    cases requireStreaming settings with
    | error e => exact .nil
    | ok u =>
      refine Proc.yields_bind_request.mpr fun reported _ => Proc.yields_bind.mpr (Proc.yields_ofExcept.mpr ?_)
      cases hrefuse : refuseUnsupportedService settings py reported with
      | error e => exact grounded_single (meant_of_free rfl)
      | ok u =>
        refine Proc.yields_bind.mpr (Proc.yields_ofExcept.mpr ?_)
        cases refuseExtras request with
        | error e => exact grounded_single (meant_of_free rfl)
        | ok u =>
          refine (answered_streamFrom (chatPayload settings request true)).mono fun l r h => ?_
          obtain ⟨x, l', rfl, hfree⟩ := h.free
          refine Grounded.cons_iff.mpr ⟨meant_of_free rfl, Grounded.cons_iff.mpr
            ⟨meant_of_goesOut [] rfl hrefuse, fun pre y post hl => meant_of_free (hfree y ?_)⟩⟩
          rw [hl]
          simp

theorem yields_coroutine (call : Call F) :
    Yields anything (call.coroutine settings py) fun l _ => Grounded (Meant settings py) l := by
  have hdiscard : ∀ {α : Type} {p : Calling F α}, Yields anything p (fun l _ => Grounded (Meant settings py) l) →
      Yields anything p.discard fun l _ => Grounded (Meant settings py) l :=
    fun h => Proc.yields_grounded_bind meant_local h fun _ => Proc.yields_pure.mpr .nil
  cases call with
  | chat request => exact hdiscard (yields_chat request)
  | stream request => exact yields_stream request
  | embed request => exact hdiscard (yields_embed request)
  | health => exact hdiscard yields_health

/-- The last exchange of a task, in the list of all. -/
theorem justDid_of_ofTask {task : ℕ} {l : List (TaskEvent (Ask.Reply (F := F)))} {pre : List (Deed F)} {x : Deed F}
    (h : ofTask task l = pre ++ [x]) : ∃ l₁, JustDid task x l l₁ := by
  obtain ⟨l₁, l₂, hl, -, hnone⟩ := Proc.exists_of_ofTask h
  refine ⟨l₁, l₂, hl, fun e he htask => ?_⟩
  have hmem : e.2 ∈ ofTask task l₂ := Proc.mem_ofTask.mpr (by rw [← htask]; exact he)
  rw [hnone] at hmem
  cases hmem

end Grounds

/-- **Streams.**  A stream is refused, for a reason that can be told before it is asked for, or it is asked for once; it
then delivers the chunks of its lines in their order, each of them once, up to the line that is refused, the place at
which the connection breaks or the chunk at which the consumer throws something in, and closes the response once, behind
the last chunk. -/
theorem stream_delivers (request : ChatRequest F) :
    Yields anything (stream settings py request) (Streamed settings py request) := by
  refine Proc.yields_bind.mpr (Proc.yields_ofExcept.mpr ?_)
  cases hpossible : requireSupported settings request with
  | error e => exact .refused e (by rw [hpossible]; rfl)
  | ok u =>
    refine Proc.yields_bind.mpr (Proc.yields_ofExcept.mpr ?_)
    cases hstreaming : requireStreaming settings with
    | error e => exact .refused e (by rw [hpossible]; exact hstreaming)
    | ok u =>
      refine Proc.yields_bind_request.mpr fun reported _ => Proc.yields_bind.mpr (Proc.yields_ofExcept.mpr ?_)
      cases hrefuse : refuseUnsupportedService settings py reported with
      | error e => exact .unsupported reported e hpossible hstreaming (by rw [hrefuse]; rfl)
      | ok u =>
        refine Proc.yields_bind.mpr (Proc.yields_ofExcept.mpr ?_)
        cases hextras : refuseExtras request with
        | error e => exact .unsupported reported e hpossible hstreaming (by rw [hrefuse]; exact hextras)
        | ok u =>
          exact (answered_streamFrom (chatPayload settings request true)).mono fun l r h =>
            .asked reported l r ⟨hpossible, hstreaming, hrefuse, hextras⟩ h

/-- **The floor.**  However calls interleave, a chat, a stream or an embedding goes out only after its call found the
release that was learned last, if any, to be supported, and only what the service has answered is learned. -/
theorem floor_kept {calls : ℕ → Call F} {l : List (TaskEvent (Ask.Reply (F := F)))} (h : Underway settings py calls l) :
    FloorKept settings py l := by
  have hmeant : ∀ {before behind task x}, l = before ++ (task, x) :: behind →
      Meant settings py (ofTask task before) x :=
    fun hl => h.interleaves.grounded (fun task => yields_coroutine (calls task)) hl
  refine ⟨?_, ?_, ?_⟩
  · intro before task x behind hl hout
    obtain ⟨l', version, htask, hsupported⟩ := (hmeant hl).sent hout
    obtain ⟨l₁, l₂, hbefore, hsince⟩ := justDid_of_ofTask htask
    -- the answer to the read is the release that was known
    have htold : version = after known none l₁ := by
      refine steps_iff.mp h.told l₁ (task, ⟨.reported, version⟩) (l₂ ++ (task, x) :: behind) ?_
      rw [hl, hbefore, List.append_assoc, List.cons_append]
    subst htold
    exact ⟨l₁, ⟨l₂, hbefore, hsince⟩, hsupported⟩
  · intro before task version u behind hl
    obtain ⟨l', answer, htask, hversion⟩ := (hmeant hl).learned version rfl
    obtain ⟨l₁, hjust⟩ := justDid_of_ofTask htask
    exact ⟨answer, l₁, hjust, hversion⟩
  · intro before task payload answer behind hl
    obtain ⟨l', version, htask, hsupported⟩ := (hmeant hl).shown payload rfl
    obtain ⟨l₁, hjust⟩ := justDid_of_ofTask htask
    exact ⟨version, l₁, hjust, hsupported⟩

/-! ### A health check beside a chat -/

/-- The interpreter without floats, with Unicode 14. -/
def plainPlatform : Platform Empty where
  toHost := wholeNumbers
  isSpace := unicode14.isSpace
  isDigit := unicode14.isDigit
  decimal := unicode14.decimal
  isDigit_of_decimal := unicode14.isDigit_of_decimal
  lower s := s
  loadsSurrogates _ := .error jsonDecodeError
  floatOf _ := .ok (.nan 0)
  raises_loadsSurrogates _ := Interpreter.raises_error (.inl (by simp [jsonDecodeError, Exc.isInstance]))

def llama : OllamaSettings Empty where
  model := Str.ofString "llama3.2"
  options_free := by simp

/-- A service of the release 0.1.0. -/
def oldService : Response Empty := ⟨200, [], .ok (objectOf [("version", word "0.1.0")])⟩

def greeting : ChatRequest Empty := { messages := [{ role := .user, content := Str.ofString "hi" }] }

def healthAndChat : ℕ → Call Empty
  | 0 => .health
  | _ + 1 => .chat greeting

/-- What the requests of a task are answered. -/
def answersTo (task : ℕ) : (q : Ask Empty) → q.Reply
  | .reported => if task = 1 then none else some (Str.ofString "0.1.0")
  | .learn _ => ()
  | .version => .ok oldService
  | .post _ _ => .ok oldService
  | .enter _ => .error jsonDecodeError
  | .yield _ => .ok ()
  | .close => .ok ()

/-- A chat looks at the release while the health check is on its way, and goes out; the one after it is refused. -/
def oneAhead : List (TaskEvent (Ask.Reply (F := Empty))) :=
  [(0, ⟨.version, .ok oldService⟩), (1, ⟨.reported, none⟩), (0, ⟨.learn (Str.ofString "0.1.0"), ()⟩),
    (2, ⟨.reported, some (Str.ofString "0.1.0")⟩),
    (1, ⟨.post "/api/chat" (chatPayload llama greeting false), .ok oldService⟩)]

theorem underway_oneAhead : Underway llama plainPlatform healthAndChat oneAhead where
  interleaves := by
    intro task
    have htraced : ∀ p : Calling Empty Unit, Traced anything p (p.replay (answersTo task)).1
      (p.replay (answersTo task)).2 := Proc.traced_replay fun _ => trivial
    match task with
    | 0 => exact ⟨[], _, htraced _⟩
    | 1 => exact ⟨[], _, htraced _⟩
    | 2 => exact ⟨[], _, htraced _⟩
    | task + 3 => exact ⟨_, _, htraced _⟩
  told := ⟨trivial, rfl, trivial, rfl, trivial, trivial⟩

theorem floor_kept_oneAhead : FloorKept llama plainPlatform oneAhead :=
  floor_kept llama plainPlatform underway_oneAhead

end Xyberos.Ai.Adapter
