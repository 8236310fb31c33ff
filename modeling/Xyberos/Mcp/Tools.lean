import Xyberos.Ai.Tools
import Xyberos.Mcp.Client

/-!
# Xyberos.Mcp.Tools — the tools of servers under one roof

`tools_for` starts each client, lists what its server offers, and declares the tools that were chosen, each under the
name of its server and its own.  What a handler does is left out but for the server and the tool that it calls.

The names of servers are distinct and so are the tools chosen of one server, yet the name of a server may continue the
name of another by the separator: the declared names are distinct exactly when no such pair meets (`apart_iff`).
-/

set_option autoImplicit false

namespace Xyberos.Mcp

open Json Ai

variable {F : Type}

/-- A client, and what is read of its settings beside the name and the URL. -/
structure ToolClient extends McpClient where
  tools : List String
  protocolVersion : String := "2025-06-18"
  identifier : isIdentifier settings.name = true
  tools_ne_nil : tools ≠ []
  not_blank : ∀ tool ∈ tools, isBlank tool = false
  nodup : tools.Nodup

/-- `McpToolInfo`, with a dictionary of parameters. -/
structure McpToolInfo (F : Type) where
  name : Str
  description : Str
  parameters : Value F
deriving DecidableEq

/-- `f"{server}_{tool}"`. -/
def qualified (server tool : String) : String := server ++ "_" ++ tool

/-- `Tool`: its declaration, and the tool that its handler calls. -/
structure Tool (F : Type) where
  spec : ToolSpec F
  server : McpServerSettings
  remote : Str

/-! ## What a server offers -/

/-- `bool(value)`. -/
def truthy (floats : Floats F) : Value F → Bool
  | .scalar .none => false
  | .scalar (.str s) => !s.isEmpty
  | .scalar s => !equalsInt floats 0 (some (.scalar s))
  | .list items => !items.isEmpty
  | .tuple items => !items.isEmpty
  | .dict items => !items.isEmpty

/-- `_text`. -/
def textValue : Option (Value F) → Str
  | some (.scalar (.str s)) => s
  | _ => []

/-- What `initialize` refuses in the answer. -/
def handshakeRefusal (settings : McpServerSettings) (protocolVersion : String) (result : Value F) : Option String :=
  match member "serverInfo" result with
  | some (.dict _) =>
    match member "protocolVersion" result with
    | some (.scalar (.str negotiated)) =>
      if negotiated = Str.ofString protocolVersion then none
      else some (s!"server {reprStr settings.name} negotiated {reprStr (textOf negotiated)}, and this client " ++
        s!"speaks {reprStr protocolVersion}; pin one of them rather than guessing which side is wrong")
    | _ => none
  | _ => some s!"server {reprStr settings.name} answered initialize without a serverInfo object"

/-- The end of `list_tools`. -/
def paginationError (settings : McpServerSettings) : Exc :=
  mcpProtocolError (s!"server {reprStr settings.name} paginated tools/list past 50 pages, so this client stops " ++
    "rather than following it indefinitely")

namespace World

variable (w : World F)

/-- The interpreter, with `repr`. -/
def host : Host F := { w.toInterpreter with reprValue := fun v => w.reprValue (some v) }

/-- `initialize`, less what it returns. -/
def initializeClient (client : McpClient) (protocolVersion : String) : McpClient × Except Exc Unit :=
  let (client, result) := w.request client "initialize" (some (objectOf [("protocolVersion", word protocolVersion),
    ("capabilities", .dict []), ("clientInfo", objectOf [("name", word "xyberos"), ("version", word "2.2.0")])]))
  match result with
  | .error error => (client, .error error)
  | .ok result =>
    match handshakeRefusal client.settings protocolVersion result with
    | some message => (client, .error (mcpProtocolError message))
    | none =>
      let (client, answer) := w.post client ⟨none, "notifications/initialized", none⟩
      (client, answer.map fun _ => ())

/-- `_tool_info`. -/
def toolInfo (settings : McpServerSettings) (entry : Value F) : Except Exc (McpToolInfo F) := do
  if !isMapping entry then
    .error (mcpProtocolError
      s!"server {reprStr settings.name} listed a tool that is not an object: {w.reprValue (some entry)}")
  let name := textValue (member "name" entry)
  if name.all fun c => isSpace (Char.ofNat c.val) then
    .error (mcpProtocolError s!"server {reprStr settings.name} listed a tool without a usable name")
  match (member "inputSchema" entry).getD (objectOf [("type", word "object")]) with
  | .dict items => return ⟨name, textValue (member "description" entry), .dict items⟩
  | _ => .error (mcpProtocolError
      s!"the schema of tool {reprStr (textOf name)} from server {reprStr settings.name} is not an object")

/-- The tools of one page, and the cursor of the next. -/
def toolPage (settings : McpServerSettings) (result : Value F) : Except Exc (List (McpToolInfo F) × Value F) :=
  match member "tools" result with
  | some (.list entries) => do
    let infos ← entries.mapM (w.toolInfo settings)
    return (infos, (member "nextCursor" result).getD (.scalar .none))
  | _ => .error (mcpProtocolError s!"server {reprStr settings.name} answered tools/list without a list of tools")

/-- The loop of `list_tools`, with the pages that are left. -/
def listPages : ℕ → McpClient → Value F → Except Exc (List (McpToolInfo F))
  | 0, client, _ => .error (paginationError client.settings)
  | pages + 1, client, cursor => do
    let params := if truthy w.toFloats cursor then some (objectOf [("cursor", cursor)]) else none
    let (client, result) := w.request client "tools/list" params
    let (infos, next) ← w.toolPage client.settings (← result)
    if truthy w.toFloats next then return infos ++ (← listPages pages client next)
    return infos

/-- `list_tools`. -/
def listTools (client : McpClient) : Except Exc (List (McpToolInfo F)) := w.listPages 50 client (.scalar .none)

end World

/-! ## `tools_for` -/

/-- `available.get(name)`: of the infos with this name the last one. -/
def available (infos : List (McpToolInfo F)) (name : String) : Option (McpToolInfo F) :=
  infos.reverse.find? fun info => info.name = Str.ofString name

/-- `_describe`. -/
def describeTool (description : Str) : String :=
  if description.length ≤ 1024 then textOf description else textOf (description.take 1024) ++ "..."

def mcpConfigurationError (message : String) : Exc := xyberosError "McpConfigurationError" ["McpError"] message

/-- `_check_server_schema`. -/
def checkServerSchema (py : Host F) (server : String) (info : McpToolInfo F) : Except Exc Unit :=
  let location := s!"the schema of tool {reprStr (textOf info.name)} from server {reprStr server}"
  match checkSchema location py info.parameters with
  | .ok _ => .ok ()
  | .error error =>
    if error.isInstance "AIError" then
      .error (aiSchemaError (s!"{location} uses a JSON Schema keyword this framework does not implement, so it is " ++
        s!"refused rather than offered to a model with arguments nothing could check: {error.message}"))
    else .error error

/-- `_project`. -/
def project (py : Host F) (settings : McpServerSettings) (info : McpToolInfo F) : Except Exc (Tool F) := do
  let spec ← ToolSpec.declare py (qualified settings.name (textOf info.name)) (describeTool info.description) info.parameters
  return ⟨spec, settings, info.name⟩

/-- The tool of a client with this name, from what its server offers. -/
def chosenTool (py : Host F) (settings : McpServerSettings) (infos : List (McpToolInfo F)) (name : String) :
    Except Exc (Tool F) :=
  match available infos name with
  | none =>
    let names := (infos.map McpToolInfo.name).dedup.insertionSort fun a b => ¬ b < a
    let offered := textOr "none" (", ".intercalate (names.map textOf))
    .error (mcpConfigurationError
      s!"server {reprStr settings.name} offers no tool {reprStr name}; it offers: {offered}")
  | some info => do
    checkServerSchema py settings.name info
    project py settings info

/-- What `tools_for` does for one client. -/
def toolsOf (w : World F) (client : ToolClient) : Except Exc (List (Tool F)) := do
  let (started, answer) := w.initializeClient client.toMcpClient client.protocolVersion
  answer
  let infos ← w.listTools started
  client.tools.mapM (chosenTool w.host client.settings infos)

/-- `tools_for`. -/
def toolsFor (w : World F) (clients : List ToolClient) : Except Exc (List (Tool F)) := do
  return (← clients.mapM (toolsOf w)).flatten

/-! ## What the names are for -/

/-- The server lists every tool that is chosen of it, with a schema that is acceptable. -/
def Serves (w : World F) (client : ToolClient) : Prop :=
  ∃ started infos, w.initializeClient client.toMcpClient client.protocolVersion = (started, .ok ()) ∧
    w.listTools started = .ok infos ∧ ∀ name ∈ client.tools, ∃ info, available infos name = some info ∧
      checkSchema s!"the schema of tool {reprStr name}" w.host info.parameters = .ok ()

/-- The chosen tools in order, each with its server. -/
def pairs (clients : List ToolClient) : List (McpServerSettings × Str) :=
  clients.flatMap fun client => client.tools.map fun tool => (client.settings, Str.ofString tool)

/-- There is one tool for each pair, and a set with all of them leads from each name to one server's tool. -/
def Apart (w : World F) (clients : List ToolClient) : Prop :=
  ∃ tools, toolsFor w clients = .ok tools ∧ tools.map (fun tool => (tool.server, tool.remote)) = pairs clients ∧
    (tools.map fun tool => tool.spec.name).Nodup ∧
    ∀ sink, ∃ set, ToolSet.of (tools.map Tool.spec) sink = .ok set ∧
      ∀ tool ∈ tools, set.get tool.spec.name = some tool.spec ∧
        ∀ other ∈ tools, other.spec.name = tool.spec.name → other = tool

/-- The name of a server continues the name of another, and a chosen tool of the other continues alike. -/
def Overlap (clients : List ToolClient) : Prop :=
  ∃ client ∈ clients, ∃ longer ∈ clients, ∃ rest, longer.settings.name = qualified client.settings.name rest ∧
    ∃ tool ∈ longer.tools, qualified rest tool ∈ client.tools

/-! ## Joining with the separator -/

theorem toList_qualified (server tool : String) : (qualified server tool).toList = server.toList ++ '_' :: tool.toList := by
  simp [qualified, String.toList_append]

theorem qualified_left_inj {server tool tool' : String} (h : qualified server tool = qualified server tool') :
    tool = tool' := by
  have hchars := congrArg String.toList h
  rw [toList_qualified, toList_qualified] at hchars
  have htail := List.append_cancel_left hchars
  exact String.toList_inj.mp (List.cons.inj htail).2

theorem qualified_assoc (a b c : String) : qualified (qualified a b) c = qualified a (qualified b c) := by
  simp [qualified, String.append_assoc]

theorem qualified_ne_self (server rest : String) : qualified server rest ≠ server := by
  intro h
  have hlength := congrArg (fun s => s.toList.length) h
  simp only [toList_qualified, List.length_append, List.length_cons] at hlength
  omega

/-- Joined names are equal only where one server's name continues the other's. -/
theorem qualified_eq {a b c d : String} (h : qualified a b = qualified c d) :
    a = c ∨ (∃ rest, a = qualified c rest ∧ d = qualified rest b) ∨ ∃ rest, c = qualified a rest ∧ b = qualified rest d := by
  have hchars := congrArg String.toList h
  rw [toList_qualified, toList_qualified] at hchars
  -- the longer name has the separator after the shorter one
  have hlonger : ∀ a b c d : String, ∀ cs, c.toList = a.toList ++ cs → '_' :: b.toList = cs ++ '_' :: d.toList →
      a = c ∨ ∃ rest, c = qualified a rest ∧ b = qualified rest d := by
    intro a b c d cs hc hb
    cases cs with
    | nil => exact .inl (String.toList_inj.mp (by simpa using hc.symm))
    | cons x cs =>
      obtain ⟨hx, htail⟩ := List.cons.inj hb
      subst hx
      refine .inr ⟨String.ofList cs, String.toList_inj.mp ?_, String.toList_inj.mp ?_⟩
      · rw [hc, toList_qualified, String.toList_ofList]
      · rw [htail, toList_qualified, String.toList_ofList]
        rfl
  rcases List.append_eq_append_iff.mp hchars with ⟨cs, hc, hb⟩ | ⟨cs, ha, hd⟩
  · exact (hlonger a b c d cs hc hb).imp_right .inr
  · exact (hlonger c d a b cs ha hd).elim (fun he => .inl he.symm) fun h => .inr (.inl h)

/-! ## The declared names -/

theorem not_isBlank_qualified (server tool : String) : isBlank (qualified server tool) = false := by
  rw [isBlank, toList_qualified, List.all_append, List.all_cons]
  simp [isSpace]

/-- A tool that is offered with an acceptable schema is declared under the name of its server and its own. -/
theorem chosenTool_ok {py : Host F} {infos : List (McpToolInfo F)} {name location : String} {info : McpToolInfo F}
    (settings : McpServerSettings) (h : available infos name = some info)
    (hschema : checkSchema location py info.parameters = .ok ()) :
    ∃ tool, chosenTool py settings infos name = .ok tool ∧ tool.spec.name = qualified settings.name name ∧
      tool.server = settings ∧ tool.remote = Str.ofString name := by
  have hname : info.name = Str.ofString name := by simpa using List.find?_some h
  refine ⟨⟨⟨qualified settings.name name, describeTool info.description, info.parameters⟩, settings, info.name⟩, ?_, rfl, rfl,
    hname⟩
  rw [chosenTool, h]
  show (do checkServerSchema py settings.name info; project py settings info) = _
  rw [checkServerSchema, checkSchema_location hschema, project, ToolSpec.declare, hname, textOf_ofString,
    not_isBlank_qualified, checkSchema_location hschema]
  rfl

/-- The tools of one client whose server serves it. -/
theorem toolsOf_ok {w : World F} {client : ToolClient} (h : Serves w client) :
    ∃ tools, toolsOf w client = .ok tools ∧
      List.Forall₂ (fun tool (made : Tool F) => made.spec.name = qualified client.settings.name tool ∧
        made.server = client.settings ∧ made.remote = Str.ofString tool) client.tools tools := by
  obtain ⟨started, infos, hinit, hlist, hchosen⟩ := h
  have hmade : ∀ tools : List String, (∀ name ∈ tools, name ∈ client.tools) →
      ∃ made, tools.mapM (chosenTool w.host client.settings infos) = .ok made ∧
        List.Forall₂ (fun tool (made : Tool F) => made.spec.name = qualified client.settings.name tool ∧
          made.server = client.settings ∧ made.remote = Str.ofString tool) tools made := by
    intro tools
    induction tools with
    | nil => exact fun _ => ⟨[], rfl, .nil⟩
    | cons name tools ih =>
      intro hsub
      obtain ⟨info, hinfo, hschema⟩ := hchosen name (hsub name (List.mem_cons_self ..))
      obtain ⟨tool, htool, hnames⟩ := chosenTool_ok client.settings hinfo hschema
      obtain ⟨made, hmade, hall⟩ := ih fun x hx => hsub x (List.mem_cons_of_mem _ hx)
      refine ⟨tool :: made, ?_, .cons hnames hall⟩
      rw [List.mapM_cons, htool]
      show (do let made ← tools.mapM (chosenTool w.host client.settings infos); pure (tool :: made)) = _
      rw [hmade]
      rfl
  obtain ⟨made, hmade, hall⟩ := hmade client.tools fun _ h => h
  refine ⟨made, ?_, hall⟩
  rw [toolsOf, hinit]
  show (do let infos ← w.listTools started; client.tools.mapM (chosenTool w.host client.settings infos)) = _
  rw [hlist]
  exact hmade

/-- The names under which the chosen tools are declared. -/
def declaredNames (clients : List ToolClient) : List String :=
  clients.flatMap fun client => client.tools.map (qualified client.settings.name)

/-- There is one tool for each pair, in order. -/
theorem toolsFor_ok {w : World F} {clients : List ToolClient} (h : ∀ client ∈ clients, Serves w client) :
    ∃ tools, toolsFor w clients = .ok tools ∧ tools.map (fun tool => (tool.server, tool.remote)) = pairs clients ∧
      tools.map (fun tool => tool.spec.name) = declaredNames clients := by
  induction clients with
  | nil => exact ⟨[], rfl, rfl, rfl⟩
  | cons client clients ih =>
    obtain ⟨own, hown, hall⟩ := toolsOf_ok (h client (List.mem_cons_self ..))
    obtain ⟨rest, hrest, hpairs, hnames⟩ := ih fun x hx => h x (List.mem_cons_of_mem _ hx)
    obtain ⟨lists, hlists, hflat⟩ := bind_eq_ok.mp hrest
    have hflat : lists.flatten = rest := Except.ok.inj hflat
    have hboth : own.map (fun tool => (tool.server, tool.remote)) =
          client.tools.map (fun tool => (client.settings, Str.ofString tool)) ∧
        own.map (fun tool => tool.spec.name) = client.tools.map (qualified client.settings.name) := by
      clear hown
      generalize client.tools = tools at hall
      induction hall with
      | nil => exact ⟨rfl, rfl⟩
      | cons hx _ ih =>
        obtain ⟨hname, hserver, hremote⟩ := hx
        rw [List.map_cons, List.map_cons, List.map_cons, List.map_cons, hname, hserver, hremote, ih.1, ih.2]
        exact ⟨rfl, rfl⟩
    refine ⟨own ++ rest, ?_, ?_, ?_⟩
    · rw [toolsFor, List.mapM_cons, hown]
      show (do let lists ← clients.mapM (toolsOf w); pure (own :: lists) : Except Exc _).bind _ = _
      rw [hlists]
      show Except.ok (own :: lists).flatten = _
      rw [List.flatten_cons, hflat]
    · rw [List.map_append, hboth.1, hpairs]
      rfl
    · rw [List.map_append, hboth.2, hnames]
      rfl

/-- The names are distinct exactly when no server's name continues another's to a chosen tool. -/
theorem nodup_declaredNames_iff {clients : List ToolClient} (hn : (clients.map fun client => client.settings.name).Nodup) :
    (declaredNames clients).Nodup ↔ ¬ Overlap clients := by
  have hown : ∀ client : ToolClient, (client.tools.map (qualified client.settings.name)).Nodup := fun client =>
    client.nodup.map fun _ _ h => qualified_left_inj h
  have hdistinct : clients.Pairwise fun a b => a.settings.name ≠ b.settings.name := List.pairwise_map.mp hn
  rw [declaredNames, List.nodup_flatMap]
  constructor
  · rintro ⟨-, hdisjoint⟩ ⟨client, hc, longer, hl, rest, hname, tool, htool, hmet⟩
    have hne : longer ≠ client := by
      rintro rfl
      exact qualified_ne_self _ _ hname.symm
    have hsymm : Std.Symm (Function.onFun List.Disjoint fun client : ToolClient =>
        client.tools.map (qualified client.settings.name)) := ⟨fun _ _ h => List.disjoint_symm h⟩
    have hleft : qualified longer.settings.name tool ∈ longer.tools.map (qualified longer.settings.name) :=
      List.mem_map_of_mem htool
    have hright : qualified longer.settings.name tool ∈ client.tools.map (qualified client.settings.name) := by
      rw [hname, qualified_assoc]
      exact List.mem_map_of_mem hmet
    exact hdisjoint.forall hl hc hne hleft hright
  · intro hno
    refine ⟨fun client _ => hown client, hdistinct.imp_of_mem fun {a b} ha hb hne => ?_⟩
    show List.Disjoint (a.tools.map (qualified a.settings.name)) (b.tools.map (qualified b.settings.name))
    intro name hina hinb
    obtain ⟨tool, htool, rfl⟩ := List.mem_map.mp hina
    obtain ⟨tool', htool', he⟩ := List.mem_map.mp hinb
    rcases qualified_eq he with he | ⟨rest, hname, hmet⟩ | ⟨rest, hname, hmet⟩
    · exact hne he.symm
    · exact hno ⟨a, ha, b, hb, rest, hname, tool', htool', hmet ▸ htool⟩
    · exact hno ⟨b, hb, a, ha, rest, hname, tool, htool, hmet ▸ htool'⟩

/-- Every tool that is chosen of servers with distinct names is declared apart from the others, exactly when no name of a
server continues another's to a tool chosen there. -/
theorem apart_iff (w : World F) (clients : List ToolClient)
    (hn : (clients.map fun client => client.settings.name).Nodup) (hs : ∀ client ∈ clients, Serves w client) :
    Apart w clients ↔ ¬ Overlap clients := by
  obtain ⟨tools, htools, hpairs, hnames⟩ := toolsFor_ok hs
  rw [← nodup_declaredNames_iff hn, ← hnames]
  constructor
  · rintro ⟨tools', htools', -, hnodup, -⟩
    rw [htools] at htools'
    rwa [Except.ok.inj htools']
  · intro hnodup
    refine ⟨tools, htools, hpairs, hnodup, fun sink => ?_⟩
    have hspecs : ((tools.map Tool.spec).map ToolSpec.name).Nodup := by rwa [List.map_map]
    obtain ⟨set, hset, hget⟩ := ToolSet.of_nodup hspecs sink
    refine ⟨set, hset, fun tool ht => ⟨hget _ (List.mem_map_of_mem ht), fun other ho he => ?_⟩⟩
    exact List.inj_on_of_nodup_map hnodup ho ht he

/-! ### Two servers -/

/-- Servers that list one tool each. -/
def offering (tools : List (String × String)) : World Empty :=
  let answer := fun (client : McpClient) (method : String) =>
    if method = "initialize" then s!"\x7b\"id\": {client.requestId}, \"result\": \x7b\"serverInfo\": \x7b\x7d\x7d\x7d"
    else
      let tool := (tools.lookup client.settings.name).getD ""
      s!"\x7b\"id\": {client.requestId}, \"result\": \x7b\"tools\": [\x7b\"name\": \"" ++ tool ++ "\"\x7d]\x7d\x7d"
  { sends "" with
    send := fun client payload => .ok ⟨bytesOf (answer client payload.method), "application/json", none⟩ }

def toolClient (name tool : String) (hi : isIdentifier name = true) (ht : isBlank tool = false) : ToolClient where
  settings := ⟨name, "http://127.0.0.1:8931/mcp"⟩
  sessionId := none
  requestId := 0
  tools := [tool]
  identifier := hi
  tools_ne_nil := List.cons_ne_nil _ _
  not_blank := by simpa using ht
  nodup := List.nodup_singleton _

theorem serves_of {w : World F} {client : ToolClient} (infos : List (McpToolInfo F))
    (hstart : (w.initializeClient client.toMcpClient client.protocolVersion).2 = .ok ())
    (hlist : w.listTools (w.initializeClient client.toMcpClient client.protocolVersion).1 = .ok infos)
    (hchosen : ∀ name ∈ client.tools, (available infos name).map (fun info =>
      checkSchema s!"the schema of tool {reprStr name}" w.host info.parameters) = some (.ok ())) : Serves w client := by
  refine ⟨_, infos, Prod.ext rfl hstart, hlist, fun name hname => ?_⟩
  obtain ⟨info, hinfo, hschema⟩ := Option.map_eq_some_iff.mp (hchosen name hname)
  exact ⟨info, hinfo, hschema⟩

def plainInfo (name : String) : McpToolInfo Empty := ⟨Str.ofString name, [], objectOf [("type", word "object")]⟩

/-- A `search` of two servers. -/
theorem apart_search :
    let clients := [toolClient "kb" "search" (by decide +kernel) (by decide +kernel),
      toolClient "web" "search" (by decide +kernel) (by decide +kernel)]
    Apart (offering [("kb", "search"), ("web", "search")]) clients := by
  refine (apart_iff _ _ (by decide +kernel) ?_).mpr ?_
  · intro client hc
    rcases List.mem_pair.mp hc with rfl | rfl
    · exact serves_of [plainInfo "search"] (by decide +kernel) (by decide +kernel) (by decide +kernel)
    · exact serves_of [plainInfo "search"] (by decide +kernel) (by decide +kernel) (by decide +kernel)
  · rintro ⟨client, hc, longer, hl, rest, hname, -⟩
    have hchars := congrArg String.toList hname
    rw [toList_qualified] at hchars
    have hsep : '_' ∈ longer.settings.name.toList := by simp [hchars]
    rcases List.mem_pair.mp hl with rfl | rfl
    · exact absurd hsep (by decide +kernel)
    · exact absurd hsep (by decide +kernel)

/-- `docs_search` of `kb`, and `search` of `kb_docs`. -/
theorem not_apart_docs :
    let clients := [toolClient "kb" "docs_search" (by decide +kernel) (by decide +kernel),
      toolClient "kb_docs" "search" (by decide +kernel) (by decide +kernel)]
    let w := offering [("kb", "docs_search"), ("kb_docs", "search")]
    (clients.map fun client => client.settings.name).Nodup ∧ (∀ client ∈ clients, Serves w client) ∧
      ¬ Apart w clients := by
  refine ⟨by decide +kernel, ?_, ?_⟩
  · intro client hc
    rcases List.mem_pair.mp hc with rfl | rfl
    · exact serves_of [plainInfo "docs_search"] (by decide +kernel) (by decide +kernel) (by decide +kernel)
    · exact serves_of [plainInfo "search"] (by decide +kernel) (by decide +kernel) (by decide +kernel)
  · rintro ⟨tools, htools, -, hnodup, -⟩
    have hnames : (toolsFor (offering [("kb", "docs_search"), ("kb_docs", "search")])
        [toolClient "kb" "docs_search" (by decide +kernel) (by decide +kernel),
          toolClient "kb_docs" "search" (by decide +kernel) (by decide +kernel)]).map
        (fun tools => tools.map fun tool => tool.spec.name) = .ok ["kb_docs_search", "kb_docs_search"] := by
      decide +kernel
    rw [htools] at hnames
    have hnames : (tools.map fun tool => tool.spec.name) = ["kb_docs_search", "kb_docs_search"] := Except.ok.inj hnames
    rw [hnames] at hnodup
    exact absurd hnodup (by decide)

end Xyberos.Mcp
