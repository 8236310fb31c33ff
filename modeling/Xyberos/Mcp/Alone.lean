import Xyberos.Mcp.Session

/-!
# Xyberos.Mcp.Alone — the calls of a client, one after another

`tools_for` makes the calls of a client one after another, and its model follows what the client has become from call to
call.  The coroutines, when no other call comes between them, come to the same: `_post`, `_request`, `initialize` and
`list_tools` do what `post`, `request`, `initializeClient` and `listTools` say, and the tools are chosen from what they
list (`toolsOf_eq`).
-/

set_option autoImplicit false

namespace Xyberos.Mcp.Session

open Json

variable {F : Type} (w : World F) (settings : SessionSettings)

namespace Shared

/-- The client, less the state of its handshake. -/
def client (s : Shared) : McpClient := ⟨settings.toMcpServerSettings, s.sessionId, s.requestId⟩

/-- What the client has become. -/
def follow (s : Shared) (client : McpClient) : Shared :=
  { s with requestId := client.requestId, sessionId := client.sessionId }

/-- The client answers what is asked of it, and the world what is sent. -/
def answer (s : Shared) : (q : Ask F) → q.Reply × Shared
  | .nextId => (s.requestId + 1, { s with requestId := s.requestId + 1 })
  | .initialized => (s.initialized, s)
  | .sessionId => (s.sessionId, s)
  | .send _ payload => (w.send (s.client settings) payload, s)
  | .store id => ((), { s with sessionId := some id })
  | .ready => ((), { s with initialized := true })

end Shared

/-- A coroutine by itself. -/
def alone {α : Type} (p : Calling F α) (s : Shared) : Option (Except Exc α × Shared) :=
  p.run (fun q s => some (.ok (s.answer w settings q).1, (s.answer w settings q).2)) s

section Alone

variable {w settings} {s : Shared} {α β : Type}

theorem alone_bind_ok {p : Calling F β} {f : β → Calling F α} {b : β} {t : Shared}
    (h : alone w settings p s = some (.ok b, t)) : alone w settings (p >>= f) s = alone w settings (f b) t := by
  rw [alone] at h
  rw [alone, Proc.run_bind, h]
  rfl

theorem alone_bind_error {p : Calling F β} {f : β → Calling F α} {e : Exc} {t : Shared}
    (h : alone w settings p s = some (.error e, t)) : alone w settings (p >>= f) s = some (.error e, t) := by
  rw [alone] at h
  rw [alone, Proc.run_bind, h]
  rfl

theorem alone_ofExcept (x : Except Exc α) : alone w settings (Proc.ofExcept x) s = some (x, s) := Proc.run_ofExcept ..

theorem alone_pure (a : α) : alone w settings (pure a) s = some (.ok a, s) := rfl

theorem alone_raise (e : Exc) : alone w settings (.raise e : Calling F α) s = some (.error e, s) := rfl

theorem alone_ask (q : Ask F) :
    alone w settings (ask q) s = some (.ok (s.answer w settings q).1, (s.answer w settings q).2) := rfl

theorem client_follow {client : McpClient} (h : client.settings = settings.toMcpServerSettings) :
    (s.follow client).client settings = client := by
  rw [Shared.client, Shared.follow, ← h]

/-! ### The client -/

/-- What `_post` keeps of a response. -/
theorem post_fst {client : McpClient} {payload : Payload F} {response : Response}
    (h : w.send client payload = .ok response) :
    (w.post client payload).1 =
      match storing response with
      | some id => { client with sessionId := some id }
      | none => client := by
  rw [World.post, h]
  cases hid : response.sessionId with
  | none => cases payload.id <;> simp [storing, hid]
  | some id => cases payload.id <;> by_cases hempty : id = "" <;> simp [storing, hid, hempty, Option.filter]

theorem post_settings (w : World F) (client : McpClient) (payload : Payload F) :
    (w.post client payload).1.settings = client.settings := by
  cases h : w.send client payload with
  | error e => rw [World.post, h]
  | ok response =>
    rw [post_fst h]
    cases storing response <;> rfl

theorem request_settings (w : World F) (client : McpClient) (method : String) (params : Option (Value F)) :
    (w.request client method params).1.settings = client.settings := post_settings ..

/-- What is made of the response to a request. -/
theorem post_snd (w : World F) (client : McpClient) (n : ℕ) (method : String) (params : Option (Value F)) :
    (w.post client ⟨some n, method, params⟩).2 =
      (w.send client ⟨some n, method, params⟩).bind (w.replyTo client.settings method n) := by
  rw [World.post]
  cases w.send client ⟨some n, method, params⟩ with
  | error e => rfl
  | ok response =>
    dsimp only [Except.bind]
    split_ifs <;> rfl

theorem post_none (w : World F) (client : McpClient) (method : String) (params : Option (Value F)) :
    w.post client ⟨none, method, params⟩ =
      ((w.post client ⟨none, method, params⟩).1, (w.send client ⟨none, method, params⟩).map fun _ => .dict []) := by
  refine Prod.ext rfl ?_
  rw [World.post]
  cases w.send client ⟨none, method, params⟩ with
  | error e => rfl
  | ok response => rfl

end Alone

/-! ## The calls of a client -/

section Calls

variable (s : Shared)

/-- `_post`. -/
theorem alone_exchange (payload : Payload F) : alone w settings (exchange settings payload) s =
    some (w.send (s.client settings) payload, s.follow (w.post (s.client settings) payload).1) := by
  unfold exchange
  rw [alone_bind_ok (alone_ask .initialized), alone_bind_ok (alone_ask .sessionId),
    alone_bind_ok (alone_ask (.send _ payload))]
  dsimp only [Shared.answer]
  cases hsend : w.send (s.client settings) payload with
  | error e =>
    rw [alone_bind_error (alone_ofExcept _), World.post, hsend]
    rfl
  | ok response =>
    rw [alone_bind_ok (alone_ofExcept _), post_fst hsend]
    cases storing response with
    | none => rfl
    | some id => rfl

/-- `_request`. -/
theorem alone_rpc (method : String) (params : Option (Value F)) : alone w settings (rpc w settings method params) s =
    some ((w.request (s.client settings) method params).2,
      s.follow (w.request (s.client settings) method params).1) := by
  -- the client with the next number
  obtain ⟨t, ht⟩ : ∃ t, t = ({ s with requestId := s.requestId + 1 } : Shared) := ⟨_, rfl⟩
  have hclient : { s.client settings with requestId := (s.client settings).requestId + 1 } = t.client settings := by
    rw [ht]
    rfl
  have hid : (t.client settings).requestId = s.requestId + 1 := by
    rw [ht]
    rfl
  have hexchange := alone_exchange w settings t ⟨some (s.requestId + 1), method, params⟩
  have hfollow : ∀ client, t.follow client = s.follow client := by
    rw [ht]
    exact fun _ => rfl
  have hpost := post_snd w (t.client settings) (s.requestId + 1) method params
  rw [hfollow] at hexchange
  unfold rpc World.request
  rw [alone_bind_ok (alone_ask .nextId), hclient]
  dsimp only [Shared.answer]
  rw [← ht, hid, hpost]
  cases hsend : w.send (t.client settings) ⟨some (s.requestId + 1), method, params⟩ with
  | error e =>
    rw [hsend] at hexchange
    rw [alone_bind_error hexchange]
    rfl
  | ok response =>
    rw [hsend] at hexchange
    rw [alone_bind_ok hexchange]
    dsimp only [Except.bind]
    have hsettings : (t.client settings).settings = settings.toMcpServerSettings := rfl
    rw [hsettings]
    cases w.replyTo settings.toMcpServerSettings method (s.requestId + 1) response with
    | error e =>
      rw [alone_bind_error (alone_ofExcept _)]
      rfl
    | ok message =>
      rw [alone_bind_ok (alone_ofExcept _), alone_ofExcept]
      rfl

/-- `initialize`: what it returns is not kept. -/
theorem alone_handshake : ∃ x t, alone w settings (handshake w settings) s = some (x, t) ∧
    w.initializeClient (s.client settings) settings.protocolVersion = (t.client settings, x.map fun _ => ()) := by
  have hrpc := alone_rpc w settings s "initialize" (some (handshakeParams settings))
  have hclient := client_follow (s := s)
    (request_settings w (s.client settings) "initialize" (some (handshakeParams settings)))
  unfold World.initializeClient handshake
  unfold handshakeParams at hrpc hclient ⊢
  generalize w.request (s.client settings) "initialize" _ = r at hrpc hclient ⊢
  obtain ⟨client, result⟩ := r
  cases result with
  | error e => exact ⟨_, _, alone_bind_error hrpc, by rw [hclient]; rfl⟩
  | ok result =>
    rw [alone_bind_ok hrpc]
    have hsettings : client.settings = settings.toMcpServerSettings := (congrArg McpClient.settings hclient).symm
    dsimp only
    rw [hsettings]
    cases handshakeRefusal settings.toMcpServerSettings settings.protocolVersion result with
    | some message => exact ⟨_, _, alone_raise _, by rw [hclient]; rfl⟩
    | none =>
      -- the notification goes out with what the answer has made of the client
      dsimp only
      rw [alone_bind_ok (alone_ask .ready)]
      dsimp only [Shared.answer]
      obtain ⟨t, ht⟩ : ∃ t, t = ({ s.follow client with initialized := true } : Shared) := ⟨_, rfl⟩
      have htclient : t.client settings = client := by
        rw [ht]
        exact hclient
      have hexchange := alone_exchange w settings t ⟨none, "notifications/initialized", none⟩
      have hpost := client_follow (s := t)
        ((post_settings w client ⟨none, "notifications/initialized", none⟩).trans hsettings)
      rw [htclient] at hexchange
      rw [← ht, post_none]
      cases hsend : w.send client ⟨none, "notifications/initialized", none⟩ with
      | error e =>
        rw [hsend] at hexchange
        exact ⟨_, _, alone_bind_error hexchange, by rw [hpost]; rfl⟩
      | ok response =>
        rw [hsend] at hexchange
        exact ⟨_, _, (alone_bind_ok hexchange).trans (alone_pure _), by rw [hpost]; rfl⟩

/-- A turn of the loop of `list_tools`. -/
theorem listPages_succ (pages : ℕ) (client : McpClient) (cursor : Value F) :
    w.listPages (pages + 1) client cursor =
      (w.request client "tools/list" (cursorParams w cursor)).2.bind fun result =>
        (w.toolPage client.settings result).bind fun page =>
          if truthy w.toFloats page.2 then
            (w.listPages pages (w.request client "tools/list" (cursorParams w cursor)).1 page.2).map (page.1 ++ ·)
          else .ok page.1 := by
  have hsettings := request_settings w client "tools/list" (cursorParams w cursor)
  rw [World.listPages, ← cursorParams, ← hsettings]
  generalize w.request client "tools/list" (cursorParams w cursor) = r
  obtain ⟨client', result⟩ := r
  cases result with
  | error e => rfl
  | ok result =>
    dsimp only [bind, Except.bind]
    cases w.toolPage client'.settings result with
    | error e => rfl
    | ok page =>
      dsimp only
      split_ifs
      · cases w.listPages pages client' page.2 <;> rfl
      · rfl

/-- The pages of `list_tools`. -/
theorem alone_listPages (pages : ℕ) (cursor : Value F) : ∃ t,
    alone w settings (listPages w settings pages cursor) s = some (w.listPages pages (s.client settings) cursor, t) := by
  induction pages generalizing s cursor with
  | zero => exact ⟨_, alone_raise _⟩
  | succ pages ih =>
    have hrpc := alone_rpc w settings s "tools/list" (cursorParams w cursor)
    have hclient := client_follow (s := s)
      (request_settings w (s.client settings) "tools/list" (cursorParams w cursor))
    rw [listPages_succ]
    unfold listPages
    generalize w.request (s.client settings) "tools/list" (cursorParams w cursor) = r at hrpc hclient ⊢
    obtain ⟨client, result⟩ := r
    cases result with
    | error e => exact ⟨_, alone_bind_error hrpc⟩
    | ok result =>
      rw [alone_bind_ok hrpc]
      dsimp only [Except.bind]
      have hsettings : (s.client settings).settings = settings.toMcpServerSettings := rfl
      rw [hsettings]
      cases w.toolPage settings.toMcpServerSettings result with
      | error e => exact ⟨_, alone_bind_error (alone_ofExcept _)⟩
      | ok page =>
        rw [alone_bind_ok (alone_ofExcept _)]
        dsimp only
        by_cases hnext : truthy w.toFloats page.2 = true
        · -- the pages that follow are asked for by what the client has become
          rw [if_pos hnext, if_pos hnext]
          obtain ⟨t, ht⟩ := ih (s.follow client) page.2
          rw [hclient] at ht
          cases hrest : w.listPages pages client page.2 with
          | error e => exact ⟨t, alone_bind_error (ht.trans (by rw [hrest]))⟩
          | ok infos => exact ⟨t, (alone_bind_ok (ht.trans (by rw [hrest]))).trans rfl⟩
        · rw [if_neg hnext, if_neg hnext]
          exact ⟨_, alone_pure _⟩

/-- `list_tools`. -/
theorem alone_listTools :
    ∃ t, alone w settings (listTools w settings) s = some (w.listTools (s.client settings), t) :=
  alone_listPages w settings s 50 _

variable {w settings s}

/-- **The tools of a client are chosen from what its calls list, one after the other.** -/
theorem toolsOf_eq {client : ToolClient} (hclient : client.toMcpClient = s.client settings)
    (hversion : client.protocolVersion = settings.protocolVersion) : ∃ x t,
    alone w settings (do
      let _ ← handshake w settings
      listTools w settings) s = some (x, t) ∧
    toolsOf w client = x.bind fun infos => client.tools.mapM (chosenTool w.host client.settings infos) := by
  obtain ⟨x, t, hshake, hinitialized⟩ := alone_handshake w settings s
  unfold toolsOf
  rw [hclient, hversion, hinitialized]
  cases x with
  | error e => exact ⟨_, _, alone_bind_error hshake, rfl⟩
  | ok info =>
    obtain ⟨u, hlist⟩ := alone_listTools w settings t
    exact ⟨_, _, (alone_bind_ok hshake).trans hlist, rfl⟩

end Calls

end Xyberos.Mcp.Session
