import Xyberos.Ai.Facade

/-!
# Xyberos.Ai.ToolLoop — what a model-tool loop promises

The transcript of `chat_with_tools` (`Loops`): how often the provider is asked and with which messages, which handlers run,
what the audit sink is told, and how the loop may end.  It holds of every transcript in which the texts of results and of
exceptions can be written, and validation tells the arguments that do not satisfy a schema (`loops_of_tame`).
-/

set_option autoImplicit false

namespace Xyberos.Ai

open Json Proc

variable {F V : Type}

/-! ## What a transcript shows -/

/-- The requests to the provider, and its answers. -/
def provided (l : Transcript F V) : List (ChatRequest F × Completion F) :=
  l.filterMap fun
    | ⟨.complete request, completion⟩ => some (request, completion)
    | _ => none

/-- The responses of the provider. -/
def responses (l : Transcript F V) : List (ChatResponse F) :=
  (provided l).filterMap fun
    | (_, .response response) => some response
    | _ => none

/-- The audit events. -/
def events (l : Transcript F V) : List ToolEvent :=
  l.filterMap fun
    | ⟨.emit event, _⟩ => some event
    | _ => none

@[simp] theorem provided_nil : provided ([] : Transcript F V) = [] := rfl

@[simp] theorem provided_append (l l' : Transcript F V) : provided (l ++ l') = provided l ++ provided l' :=
  List.filterMap_append

@[simp] theorem responses_append (l l' : Transcript F V) : responses (l ++ l') = responses l ++ responses l' := by
  rw [responses, provided_append, List.filterMap_append]
  rfl

@[simp] theorem events_nil : events ([] : Transcript F V) = [] := rfl

@[simp] theorem events_append (l l' : Transcript F V) : events (l ++ l') = events l ++ events l' :=
  List.filterMap_append

/-- Each request event is followed by one outcome for the same tool, and the numbers go up by one. -/
structure Trail (sequence : ℕ) (told : List ToolEvent) : Prop where
  paired : ∃ pairs : List (ToolEvent × ToolEvent), told = pairs.flatMap (fun p => [p.1, p.2]) ∧
    ∀ p ∈ pairs, p.1.type = .requested ∧ p.2.type ≠ .requested ∧ p.2.tool = p.1.tool
  numbered : told.map ToolEvent.sequence = List.range' (sequence + 1) told.length

theorem Trail.nil (sequence : ℕ) : Trail sequence [] := ⟨⟨[], rfl, List.forall_mem_nil _⟩, rfl⟩

theorem Trail.append {sequence : ℕ} {told told' : List ToolEvent} (h : Trail sequence told)
    (h' : Trail (sequence + told.length) told') : Trail sequence (told ++ told') := by
  obtain ⟨⟨pairs, rfl, hpairs⟩, hnumbers⟩ := h
  obtain ⟨⟨pairs', rfl, hpairs'⟩, hnumbers'⟩ := h'
  refine ⟨⟨pairs ++ pairs', List.flatMap_append.symm, ?_⟩, ?_⟩
  · intro p hp
    rcases List.mem_append.mp hp with hp | hp
    · exact hpairs p hp
    · exact hpairs' p hp
  · rw [List.map_append, hnumbers, hnumbers', List.length_append, ← List.range'_append_1]
    congr 2
    omega

/-- The handler of the tool that was called ran, with this outcome. -/
def Ran (l : Transcript F V) (call : ToolCall F) (outcome : Outcome V) : Prop :=
  (⟨.run call.name call.arguments call.callId, outcome⟩ : Exchange Ask.Reply) ∈ l

/-- The location that validation names. -/
def argumentsOf (name : String) : String := s!"arguments of tool {reprStr name}"

/-- A text tells the model what became of a call: the value the handler returned, the exception it raised, or what is
wrong with the arguments. -/
inductive Told (py : Host F) (tools : ToolSet F) (l : Transcript F V) (call : ToolCall F) (text : String) : Prop
  | returned (value : V) (ran : Ran l call (.returned value))
      (written : (⟨.dumps value, .ok text⟩ : Exchange Ask.Reply) ∈ l)
  | raised (error : Exc) (message : String) (ran : Ran l call (.raised error))
      (written : (⟨.str error, .ok message⟩ : Exchange Ask.Reply) ∈ l)
      (shown : text = ToolResult.errorText error.cls.name message)
  | invalid (spec : ToolSpec F) (message : String) (found : tools.get call.name = some spec)
      (refused : validatePayload (argumentsOf call.name) py call.payload spec.parameters = .error (aiSchemaError message))
      (shown : text = ToolResult.errorText "AISchemaError" message)

/-- The messages after a round: those of its request, the model's message, and one answer a call. -/
def Continues (py : Host F) (tools : ToolSet F) (l : Transcript F V) (x : ChatRequest F × Completion F)
    (messages : List (Message F)) : Prop :=
  ∃ response answers, x.2 = .response response ∧ messages = x.1.messages ++ response.message :: answers ∧
    List.Forall₂ (fun call message => ∃ text, message = Message.toolResult call.name text ∧ Told py tools l call text)
      response.message.toolCalls answers

/-- The next request of a round. -/
def Follows (py : Host F) (tools : ToolSet F) (l : Transcript F V) (x y : ChatRequest F × Completion F) : Prop :=
  Continues py tools l x y.1.messages

/-- The messages that the next round sends: the first ones, or those after the last round. -/
def Leads (py : Host F) (tools : ToolSet F) (first : List (Message F)) (l : Transcript F V)
    (messages : List (Message F)) : Prop :=
  provided l = [] ∧ messages = first ∨ ∃ front x, provided l = front ++ [x] ∧ Continues py tools l x messages

/-- How the loop over a request may raise: before it begins, from the facade or the provider in the round that is sent
next, for a tool that is not in the set, or at the limit of rounds. -/
inductive Raises (facade : AIFacade) (py : Host F) (tools : ToolSet F) (request : ChatRequest F) (limit : ℕ)
    (l : Transcript F V) (e : Exc) : Prop
  | early (nothing : l = [])
  | chat (messages : List (Message F)) (before after : Transcript F V) (split : l = before ++ after)
      (leads : Leads py tools request.messages before messages)
      (raised : Traced (fun _ _ => True) (facade.chat py { request with messages, tools := tools.specs }) after (.error e))
  | denied (response : ChatResponse F) (call : ToolCall F) (given : response ∈ responses l)
      (called : call ∈ response.message.toolCalls) (unknown : tools.get call.name = none)
      (error : e = tools.deniedError call.name)
  | limit (message : String) (rounds : (provided l).length = limit) (error : e = aiToolError message)

/-- What is exchanged in at most so many rounds, from these messages, this usage and this number of the last event on. -/
structure Course (py : Host F) (tools : ToolSet F) (rounds : ℕ) (messages : List (Message F)) (start : Usage)
    (sequence : ℕ) (l : Transcript F V) (r : Except Exc (ChatResponse F × ℕ)) : Prop where
  bounded : (provided l).length ≤ rounds
  allowed : ∀ tool arguments callId outcome, (⟨.run tool arguments callId, outcome⟩ : Exchange Ask.Reply) ∈ l →
    ∃ response ∈ responses l, ∃ call ∈ response.message.toolCalls, call.name = tool ∧ call.arguments = arguments ∧
      call.callId = callId ∧ ∃ spec ∈ tools.get call.name, Satisfies py.toFloats call.payload spec.parameters
  opens : ∀ x ∈ (provided l).head?, x.1.messages = messages
  follows : (provided l).IsChain (Follows py tools l)
  trail : Trail sequence (events l)
  usage : ∀ response last, r = .ok (response, last) → last = sequence + (events l).length ∧
    (responses l).length = (provided l).length ∧
    response.usage = ((responses l).map ChatResponse.usage).foldl (· + ·) start

/-- The promise of `chat_with_tools`, of its transcript and its end. -/
structure Loops (facade : AIFacade) (py : Host F) (tools : ToolSet F) (maxRounds : ℕ) (request : ChatRequest F)
    (sequence : ℕ) (l : Transcript F V) (r : Except Exc (ChatResponse F × ℕ)) : Prop
    extends Course py tools maxRounds request.messages {} sequence l r where
  ends : ∀ e, r = .error e → Raises facade py tools request maxRounds l e

/-! ## When it is kept -/

/-- Validation sees that arguments do not satisfy the schema, and can say what it sees first. -/
structure Discerned (py : Host F) (call : ToolCall F) (spec : ToolSpec F) : Prop where
  seen : ¬ Satisfies py.toFloats call.payload spec.parameters →
    ∃ d ∈ allDemands (argumentsOf spec.name) py call.payload spec.parameters, d.Found
  told : ∀ before d after, allDemands (argumentsOf spec.name) py call.payload spec.parameters = before ++ d :: after →
    (∀ b ∈ before, ¬ b.Found) → d.Found → ∃ text, d.message = .ok text

/-- The handlers raise nothing but an `Exception`, every text is written, and the arguments are discerned. -/
def Tame (py : Host F) (tools : ToolSet F) : (q : Ask F V) → q.Reply → Prop
  | .complete _, .response response =>
    ∀ call ∈ response.message.toolCalls, ∀ spec ∈ tools.get call.name, Discerned py call spec
  | .run _ _ _, .raised error => error.isInstance "Exception" = true
  | .str _, text => ∃ s, text = .ok s
  | .dumps _, text => ∃ s, text = .ok s
  | _, _ => True

/-- What validation says of arguments that are discerned. -/
theorem Discerned.cases {py : Host F} {call : ToolCall F} {spec : ToolSpec F} (h : Discerned py call spec)
    (hchecked : checkSchema (argumentsOf spec.name) py spec.parameters = .ok ()) :
    (validatePayload (argumentsOf spec.name) py call.payload spec.parameters = .ok call.payload ∧
      Satisfies py.toFloats call.payload spec.parameters) ∨
    ∃ message, validatePayload (argumentsOf spec.name) py call.payload spec.parameters =
      .error (aiSchemaError message) := by
  rcases found_cases (allDemands (argumentsOf spec.name) py call.payload spec.parameters) with
    hnone | ⟨before, d, after, hds, hbefore, hfound⟩
  · refine .inl ⟨(validatePayload_ok_iff hchecked).mpr hnone, ?_⟩
    by_contra hnot
    obtain ⟨d, hd, hfound⟩ := h.seen hnot
    exact hnone d hd hfound
  · obtain ⟨text, htext⟩ := h.told before d after hds hbefore hfound
    exact .inr ((validatePayload_error_iff _ hchecked).mpr ⟨before, d, after, text, hds, hbefore, hfound, htext⟩)

/-! ### One call -/

/-- What a result says of the call. -/
def Resulted (py : Host F) (tools : ToolSet F) (l : Transcript F V) (call : ToolCall F) : ToolResult V → Prop
  | .returned tool value => tool = call.name ∧ Ran l call (.returned value)
  | .failed tool errorType error => tool = call.name ∧
    ((∃ e, Ran l call (.raised e) ∧ (⟨.str e, .ok error⟩ : Exchange Ask.Reply) ∈ l ∧ errorType = e.cls.name) ∨
      ∃ spec, tools.get call.name = some spec ∧ errorType = "AISchemaError" ∧
        validatePayload (argumentsOf call.name) py call.payload spec.parameters = .error (aiSchemaError error))

theorem Resulted.mono {py : Host F} {tools : ToolSet F} {l l' : Transcript F V} {call : ToolCall F}
    {result : ToolResult V} (hl : l ⊆ l') (h : Resulted py tools l call result) : Resulted py tools l' call result := by
  cases result with
  | returned tool value => exact ⟨h.1, hl h.2⟩
  | failed tool errorType error =>
    refine ⟨h.1, h.2.imp_left ?_⟩
    rintro ⟨e, hran, hstr, htype⟩
    exact ⟨e, hl hran, hl hstr, htype⟩

theorem Resulted.tool_eq {py : Host F} {tools : ToolSet F} {l : Transcript F V} {call : ToolCall F}
    {result : ToolResult V} (h : Resulted py tools l call result) : result.tool = call.name := by
  cases result with
  | returned tool value => exact h.1
  | failed tool errorType error => exact h.1

/-- A handler runs for one of the calls, whose arguments satisfy the schema of its tool. -/
def RunsFor (py : Host F) (tools : ToolSet F) (calls : List (ToolCall F)) (l : Transcript F V) : Prop :=
  ∀ tool arguments callId outcome, (⟨.run tool arguments callId, outcome⟩ : Exchange Ask.Reply) ∈ l →
    ∃ call ∈ calls, call.name = tool ∧ call.arguments = arguments ∧ call.callId = callId ∧
      ∃ spec ∈ tools.get call.name, Satisfies py.toFloats call.payload spec.parameters

/-- The transcript and the end of calls that are invoked one after another. -/
structure Invoked (py : Host F) (tools : ToolSet F) (sequence : ℕ) (calls : List (ToolCall F)) (l : Transcript F V)
    (r : Except Exc (List (ToolResult V) × ℕ)) : Prop where
  provided : provided l = []
  trail : Trail sequence (events l)
  runs : RunsFor py tools calls l
  ok : ∀ results last, r = .ok (results, last) →
    last = sequence + (events l).length ∧ List.Forall₂ (Resulted py tools l) calls results
  error : ∀ e, r = .error e → ∃ call ∈ calls, tools.get call.name = none ∧ e = tools.deniedError call.name

section Loop

variable {py : Host F} {tools : ToolSet F}

/-- The transcript of `_emit`. -/
def emitted (tools : ToolSet F) (sequence : ℕ) (type : ToolEventType) (tool : String) (keys : List Str)
    (errorType : Option String) : Transcript F V :=
  if tools.sink then [⟨.emit ⟨type, tool, sequence + 1, keys, errorType⟩, ()⟩] else []

/-- The number of the last event after one more. -/
def nextOf (tools : ToolSet F) (sequence : ℕ) : ℕ := if tools.sink then sequence + 1 else sequence

theorem yields_emit {A : (q : Ask F V) → q.Reply → Prop} (hA : ∀ event, A (.emit event) ()) {sequence : ℕ}
    {type : ToolEventType} {tool : String} {keys : List Str} {errorType : Option String}
    {C : Transcript F V → Except Exc ℕ → Prop} :
    Yields A (tools.emit sequence type tool keys errorType) C ↔
      C (emitted tools sequence type tool keys errorType) (.ok (nextOf tools sequence)) := by
  unfold ToolSet.emit emitted nextOf
  by_cases hsink : tools.sink = true
  · simp only [hsink, if_true]
    refine Iff.trans yields_bind_request ⟨fun h => yields_pure.mp (h () (hA _)), fun h _ _ => yields_pure.mpr h⟩
  · simp only [hsink, if_false, Bool.false_eq_true]
    exact yields_pure

theorem provided_emitted (sequence : ℕ) (type : ToolEventType) (tool : String) (keys : List Str)
    (errorType : Option String) :
    provided (emitted tools sequence type tool keys errorType : Transcript F V) = [] := by
  unfold emitted
  split_ifs <;> rfl

theorem not_run_emitted {sequence : ℕ} {type : ToolEventType} {tool : String} {keys : List Str}
    {errorType : Option String} {x : Exchange (Ask.Reply (F := F) (V := V))}
    (hx : x ∈ emitted tools sequence type tool keys errorType) : ∃ event, x.1 = .emit event := by
  unfold emitted at hx
  split_ifs at hx
  · obtain rfl := List.mem_singleton.mp hx
    exact ⟨_, rfl⟩
  · cases hx

/-- The events of one call: the request, and the outcome of another type. -/
theorem trail_emitted {sequence : ℕ} {tool : String} {keys : List Str} {type : ToolEventType}
    {errorType : Option String} (htype : type ≠ .requested) {middle after l : Transcript F V}
    (hl : l = emitted tools sequence .requested tool keys none ++ (middle ++
      (emitted tools (nextOf tools sequence) type tool keys errorType ++ after)))
    (hmiddle : events middle = []) (hafter : events after = []) :
    Trail sequence (events l) ∧ nextOf tools (nextOf tools sequence) = sequence + (events l).length := by
  rw [hl, events_append, events_append, events_append, hmiddle, hafter]
  by_cases hsink : tools.sink = true
  · have hnext : nextOf tools sequence = sequence + 1 := if_pos hsink
    have hnext' : nextOf tools (sequence + 1) = sequence + 2 := if_pos hsink
    have hemitted : ∀ n type errorType, events (emitted tools n type tool keys errorType : Transcript F V) =
        [⟨type, tool, n + 1, keys, errorType⟩] := by
      intro n type errorType
      rw [emitted, if_pos hsink]
      rfl
    rw [hnext, hnext', hemitted, hemitted]
    refine ⟨⟨⟨[(_, _)], rfl, ?_⟩, rfl⟩, rfl⟩
    intro p hp
    obtain rfl := List.mem_singleton.mp hp
    exact ⟨rfl, htype, rfl⟩
  · have hnext : nextOf tools sequence = sequence := if_neg hsink
    have hemitted : ∀ n type errorType, events (emitted tools n type tool keys errorType : Transcript F V) = [] := by
      intro n type errorType
      rw [emitted, if_neg hsink]
      rfl
    rw [hnext, hnext, hemitted, hemitted]
    exact ⟨.nil sequence, rfl⟩

/-- A set whose tools were declared under their own names. -/
structure Declared (py : Host F) (tools : ToolSet F) : Prop where
  named : ∀ name spec, tools.get name = some spec → spec.name = name
  checked : ∀ name spec, tools.get name = some spec →
    checkSchema (argumentsOf spec.name) py spec.parameters = .ok ()

/-- A transcript of one call in its parts: the request event, the handler, the outcome event, and the text of an exception. -/
theorem invoked_of_parts {sequence : ℕ} {call : ToolCall F} {keys : List Str} {type : ToolEventType}
    {errorType : Option String} (htype : type ≠ .requested) (middle after : Transcript F V) {l : Transcript F V}
    {r : Except Exc (List (ToolResult V) × ℕ)}
    (hl : l = emitted tools sequence .requested call.name keys none ++ (middle ++
      (emitted tools (nextOf tools sequence) type call.name keys errorType ++ after)))
    (hmiddle : provided middle = [] ∧ events middle = []) (hruns : RunsFor py tools [call] middle)
    (hafter : ∀ x ∈ after, ∃ e, x.1 = .str e)
    (hok : ∀ results last, r = .ok (results, last) →
      last = nextOf tools (nextOf tools sequence) ∧ List.Forall₂ (Resulted py tools l) [call] results)
    (herror : ∀ e, r = .error e → tools.get call.name = none ∧ e = tools.deniedError call.name) :
    Invoked py tools sequence [call] l r := by
  have hquiet : provided after = [] ∧ events after = [] := by
    constructor
    · refine List.filterMap_eq_nil_iff.mpr fun x hx => ?_
      obtain ⟨q, a⟩ := x
      obtain ⟨e, rfl⟩ := hafter _ hx
      rfl
    · refine List.filterMap_eq_nil_iff.mpr fun x hx => ?_
      obtain ⟨q, a⟩ := x
      obtain ⟨e, rfl⟩ := hafter _ hx
      rfl
  obtain ⟨htrail, hlast⟩ := trail_emitted htype hl hmiddle.2 hquiet.2
  refine ⟨?_, htrail, ?_, ?_, ?_⟩
  · rw [hl, provided_append, provided_append, provided_append, provided_emitted, provided_emitted, hmiddle.1, hquiet.1]
    rfl
  · intro tool arguments callId outcome hx
    rw [hl, List.mem_append, List.mem_append, List.mem_append] at hx
    rcases hx with hx | hx | hx | hx
    · obtain ⟨event, h⟩ := not_run_emitted hx
      cases h
    · exact hruns tool arguments callId outcome hx
    · obtain ⟨event, h⟩ := not_run_emitted hx
      cases h
    · obtain ⟨e, h⟩ := hafter _ hx
      cases h
  · intro results last hr
    obtain ⟨rfl, hresults⟩ := hok results last hr
    exact ⟨hlast, hresults⟩
  · intro e hr
    exact ⟨call, List.mem_singleton_self call, herror e hr⟩

/-- One result as the results of one call. -/
def single (x : ToolResult V × ℕ) : List (ToolResult V) × ℕ := ([x.1], x.2)

theorem yields_invoke (hdeclared : Declared py tools) (sequence : ℕ) (call : ToolCall F)
    (hdiscerned : ∀ spec ∈ tools.get call.name, Discerned py call spec) :
    Yields (Tame (V := V) py tools) (tools.invoke py sequence call) fun l r =>
      Invoked py tools sequence [call] l (r.map single) := by
  have hemit : ∀ event, Tame (V := V) py tools (.emit event) () := fun _ => trivial
  have hnoruns : RunsFor py tools [call] ([] : Transcript F V) := by
    intro _ _ _ _ hx
    cases hx
  unfold ToolSet.invoke
  refine yields_bind.mpr ((yields_emit hemit).mpr ?_)
  rw [ends_ok]
  cases hget : tools.get call.name with
  | none =>
    refine yields_bind.mpr ((yields_emit hemit).mpr ?_)
    rw [ends_ok]
    refine yields_raise.mpr ?_
    refine invoked_of_parts (by decide) [] [] rfl ⟨rfl, rfl⟩ hnoruns (List.forall_mem_nil _) nofun ?_
    rintro e ⟨⟩
    exact ⟨hget, rfl⟩
  | some tool =>
    have hname := hdeclared.named call.name tool hget
    dsimp only
    rcases (hdiscerned tool hget).cases (hdeclared.checked call.name tool hget) with ⟨hvalid, hsat⟩ | ⟨message, hinvalid⟩
    · -- the arguments satisfy the schema, and the handler runs
      have hvalid' : validatePayload s!"arguments of tool {reprStr tool.name}" py call.payload tool.parameters =
          .ok call.payload := hvalid
      rw [hvalid', hname]
      dsimp only
      refine yields_bind_request.mpr fun outcome htame => ?_
      have hruns : RunsFor py tools [call] [⟨.run call.name call.arguments call.callId, outcome⟩] := by
        intro _ _ _ _ hx
        cases List.mem_singleton.mp hx
        exact ⟨call, List.mem_singleton_self call, rfl, rfl, rfl, tool, hget, hsat⟩
      cases outcome with
      | returned value =>
        refine yields_bind.mpr ((yields_emit hemit).mpr ?_)
        rw [ends_ok]
        refine yields_pure.mpr ?_
        refine invoked_of_parts (by decide) [_] [] rfl ⟨rfl, rfl⟩ hruns (List.forall_mem_nil _) ?_ nofun
        rintro results last ⟨⟩
        refine ⟨rfl, .cons ⟨rfl, ?_⟩ .nil⟩
        exact List.mem_append_right _ (List.mem_append_left _ (List.mem_singleton_self _))
      | raised error =>
        have hexception : error.isInstance "Exception" = true := htame
        dsimp only
        rw [if_pos hexception]
        refine yields_bind.mpr ((yields_emit hemit).mpr ?_)
        rw [ends_ok]
        refine yields_bind_request.mpr fun text htext => ?_
        obtain ⟨message, rfl⟩ := htext
        refine yields_pure.mpr ?_
        refine invoked_of_parts (by decide) [_] [⟨.str error, .ok message⟩] rfl ⟨rfl, rfl⟩ hruns ?_ ?_ nofun
        · intro x hx
          obtain rfl := List.mem_singleton.mp hx
          exact ⟨error, rfl⟩
        · rintro results last ⟨⟩
          refine ⟨rfl, .cons ⟨rfl, .inl ⟨error, ?_, ?_, rfl⟩⟩ .nil⟩
          · exact List.mem_append_right _ (List.mem_append_left _ (List.mem_singleton_self _))
          · exact List.mem_append_right _ (List.mem_cons_of_mem _ (List.mem_append_right _ (List.mem_singleton_self _)))
    · have hinvalid' : validatePayload s!"arguments of tool {reprStr tool.name}" py call.payload tool.parameters =
          .error (aiSchemaError message) := hinvalid
      have hschema : (aiSchemaError message).isInstance "AISchemaError" = true := rfl
      rw [hinvalid', hname]
      dsimp only
      rw [if_pos hschema]
      refine yields_bind.mpr ((yields_emit hemit).mpr ?_)
      rw [ends_ok]
      refine yields_pure.mpr ?_
      refine invoked_of_parts (by decide) [] [] rfl ⟨rfl, rfl⟩ hnoruns (List.forall_mem_nil _) ?_ nofun
      rintro results last ⟨⟩
      exact ⟨rfl, .cons ⟨rfl, .inr ⟨tool, hget, rfl, hname ▸ hinvalid⟩⟩ .nil⟩

/-! ### All calls of a round -/

theorem RunsFor.mono {calls calls' : List (ToolCall F)} {l : Transcript F V} (h : RunsFor py tools calls l)
    (hcalls : calls ⊆ calls') : RunsFor py tools calls' l := by
  intro tool arguments callId outcome hx
  obtain ⟨call, hcall, hrest⟩ := h tool arguments callId outcome hx
  exact ⟨call, hcalls hcall, hrest⟩

theorem RunsFor.append {calls : List (ToolCall F)} {l l' : Transcript F V} (h : RunsFor py tools calls l)
    (h' : RunsFor py tools calls l') : RunsFor py tools calls (l ++ l') := by
  intro tool arguments callId outcome hx
  rcases List.mem_append.mp hx with hx | hx
  · exact h tool arguments callId outcome hx
  · exact h' tool arguments callId outcome hx

theorem yields_invokeAll (hdeclared : Declared py tools) {calls : List (ToolCall F)}
    (hdiscerned : ∀ call ∈ calls, ∀ spec ∈ tools.get call.name, Discerned py call spec) (sequence : ℕ) :
    Yields (Tame (V := V) py tools) (tools.invokeAll py sequence calls) (Invoked py tools sequence calls) := by
  induction calls generalizing sequence with
  | nil =>
    refine yields_pure.mpr ⟨rfl, .nil sequence, ?_, ?_, nofun⟩
    · intro _ _ _ _ hx
      cases hx
    · rintro results last ⟨⟩
      exact ⟨rfl, .nil⟩
  | cons call calls ih =>
    obtain ⟨hcall, hcalls⟩ := List.forall_mem_cons.mp hdiscerned
    refine yields_bind.mpr ((yields_invoke hdeclared sequence call hcall).mono fun l r hfirst => ?_)
    cases r with
    | error e =>
      -- the first call is unknown, and the others are not made
      refine ⟨hfirst.provided, hfirst.trail, hfirst.runs.mono (by simp), nofun, ?_⟩
      rintro e' ⟨⟩
      obtain ⟨other, hother, hunknown, he⟩ := hfirst.error e rfl
      obtain rfl := List.mem_singleton.mp hother
      exact ⟨other, List.mem_cons_self .., hunknown, he⟩
    | ok x =>
      obtain ⟨result, next⟩ := x
      obtain ⟨hnext, hresult⟩ := hfirst.ok [result] next rfl
      rw [ends_ok]
      refine yields_bind.mpr ((ih hcalls next).mono fun l' r' hrest => ?_)
      have hprovided : provided (l ++ l') = [] := by rw [provided_append, hfirst.provided, hrest.provided]; rfl
      have htrail : Trail sequence (events (l ++ l')) := by
        rw [events_append]
        exact hfirst.trail.append (hnext ▸ hrest.trail)
      have hruns : RunsFor py tools (call :: calls) (l ++ l') :=
        (hfirst.runs.mono (by simp)).append (hrest.runs.mono (by simp))
      cases r' with
      | error e =>
        -- a later call is unknown
        refine ⟨hprovided, htrail, hruns, nofun, ?_⟩
        rintro e' ⟨⟩
        obtain ⟨other, hother, hunknown, he⟩ := hrest.error e rfl
        exact ⟨other, List.mem_cons_of_mem _ hother, hunknown, he⟩
      | ok y =>
        obtain ⟨results, last⟩ := y
        obtain ⟨hlast, hresults⟩ := hrest.ok results last rfl
        rw [ends_ok]
        refine yields_pure.mpr ?_
        rw [List.append_nil]
        refine ⟨hprovided, htrail, hruns, ?_, nofun⟩
        rintro results' last' ⟨⟩
        refine ⟨?_, .cons ?_ ?_⟩
        · rw [hlast, hnext, events_append, List.length_append, Nat.add_assoc]
        · cases hresult with
          | cons h _ => exact h.mono (List.subset_append_left ..)
        · exact hresults.imp fun _ _ h => h.mono (List.subset_append_right ..)

/-! ### The answers of a round -/

/-- The text of a result. -/
def Shows (l : Transcript F V) (text : String) : ToolResult V → Prop
  | .returned _ value => (⟨.dumps value, .ok text⟩ : Exchange Ask.Reply) ∈ l
  | .failed _ errorType error => text = ToolResult.errorText errorType error

theorem Shows.mono {l l' : Transcript F V} (hl : l ⊆ l') {text : String} {result : ToolResult V}
    (h : Shows l text result) : Shows l' text result := by
  cases result with
  | returned tool value => exact hl h
  | failed tool errorType error => exact h

/-- The transcript that renders results, and the messages. -/
structure Rendered (results : List (ToolResult V)) (l : Transcript F V) (r : Except Exc (List (Message F))) : Prop where
  asks : ∀ x ∈ l, ∃ value, x.1 = .dumps value
  ok : ∃ answers, r = .ok answers ∧ List.Forall₂
    (fun result message => ∃ text, message = Message.toolResult result.tool text ∧ Shows l text result) results answers

theorem Rendered.quiet {results : List (ToolResult V)} {l : Transcript F V} {r : Except Exc (List (Message F))}
    (h : Rendered results l r) : provided l = [] ∧ events l = [] := by
  constructor
  · refine List.filterMap_eq_nil_iff.mpr fun x hx => ?_
    obtain ⟨q, a⟩ := x
    obtain ⟨value, rfl⟩ := h.asks _ hx
    rfl
  · refine List.filterMap_eq_nil_iff.mpr fun x hx => ?_
    obtain ⟨q, a⟩ := x
    obtain ⟨value, rfl⟩ := h.asks _ hx
    rfl

theorem Rendered.runs {results : List (ToolResult V)} {l : Transcript F V} {r : Except Exc (List (Message F))}
    (h : Rendered results l r) {calls : List (ToolCall F)} : RunsFor py tools calls l := by
  intro _ _ _ _ hx
  obtain ⟨value, hvalue⟩ := h.asks _ hx
  cases hvalue

theorem yields_render (results : List (ToolResult V)) :
    Yields (Tame py tools) (results.mapM fun result => do
      let text ← result.render
      return Message.toolResult result.tool text : Chat F V (List (Message F))) (Rendered results) := by
  induction results with
  | nil => exact yields_pure.mpr ⟨List.forall_mem_nil _, [], rfl, .nil⟩
  | cons result results ih =>
    refine yields_mapM_cons.mpr (yields_bind.mpr ?_)
    cases result with
    | returned tool value =>
      refine yields_bind_request.mpr fun text htext => ?_
      obtain ⟨shown, rfl⟩ := htext
      refine yields_pure.mpr ?_
      rw [ends_ok]
      refine yields_pure.mpr ?_
      rw [ends_ok]
      refine ih.mono fun l r hrest => ?_
      obtain ⟨answers, rfl, hall⟩ := hrest.ok
      refine ⟨?_, _, rfl, .cons ⟨shown, rfl, List.mem_cons_self ..⟩ ?_⟩
      · intro x hx
        rcases List.mem_cons.mp hx with rfl | hx
        · exact ⟨value, rfl⟩
        · exact hrest.asks x hx
      · refine hall.imp ?_
        rintro other message ⟨text, hmessage, hshows⟩
        exact ⟨text, hmessage, hshows.mono (List.subset_cons_self ..)⟩
    | failed tool errorType error =>
      refine yields_pure.mpr ?_
      rw [ends_ok]
      refine yields_pure.mpr ?_
      rw [ends_ok]
      refine ih.mono fun l r hrest => ?_
      obtain ⟨answers, rfl, hall⟩ := hrest.ok
      exact ⟨hrest.asks, _, rfl, .cons ⟨_, rfl, rfl⟩ hall⟩

theorem told_of_shows {l : Transcript F V} {call : ToolCall F} {result : ToolResult V} {text : String}
    (h : Resulted py tools l call result) (hshows : Shows l text result) : Told py tools l call text := by
  cases result with
  | returned tool value => exact .returned value h.2 hshows
  | failed tool errorType error =>
    rcases h.2 with ⟨e, hran, hstr, rfl⟩ | ⟨spec, hget, rfl, hrefused⟩
    · exact .raised e error hran hstr hshows
    · exact .invalid spec error hget hrefused hshows

/-- The answers tell the model what became of each call. -/
theorem told_answers {l : Transcript F V} {calls : List (ToolCall F)} {results : List (ToolResult V)}
    {answers : List (Message F)} (h : List.Forall₂ (Resulted py tools l) calls results)
    (hanswers : List.Forall₂
      (fun result message => ∃ text, message = Message.toolResult result.tool text ∧ Shows l text result)
      results answers) :
    List.Forall₂ (fun call message => ∃ text, message = Message.toolResult call.name text ∧ Told py tools l call text)
      calls answers := by
  induction h generalizing answers with
  | nil =>
    cases hanswers
    exact .nil
  | cons hresult _ ih =>
    cases hanswers with
    | cons hanswer hrest =>
      obtain ⟨text, rfl, hshows⟩ := hanswer
      exact .cons ⟨text, by rw [hresult.tool_eq], told_of_shows hresult hshows⟩ (ih hrest)

theorem Told.mono {l l' : Transcript F V} (hl : l ⊆ l') {call : ToolCall F} {text : String}
    (h : Told py tools l call text) : Told py tools l' call text := by
  cases h with
  | returned value ran written => exact .returned value (hl ran) (hl written)
  | raised error message ran written shown => exact .raised error message (hl ran) (hl written) shown
  | invalid spec message found refused shown => exact .invalid spec message found refused shown

theorem Follows.mono {l l' : Transcript F V} (hl : l ⊆ l') {x y : ChatRequest F × Completion F}
    (h : Follows py tools l x y) : Follows py tools l' x y := by
  obtain ⟨response, answers, hx, hy, htold⟩ := h
  refine ⟨response, answers, hx, hy, htold.imp ?_⟩
  rintro call message ⟨text, hmessage, h⟩
  exact ⟨text, hmessage, h.mono hl⟩

/-! ### The call of the provider -/

/-- The transcript and the end of one call of `chat`. -/
structure Round (facade : AIFacade) (py : Host F) (tools : ToolSet F) (request : ChatRequest F) (l : Transcript F V)
    (r : Except Exc (ChatResponse F)) : Prop where
  events : events l = []
  runs : ∀ tool arguments callId outcome, (⟨.run tool arguments callId, outcome⟩ : Exchange Ask.Reply) ∉ l
  requests : provided l = [] ∨ ∃ completion, provided l = [(request, completion)]
  ok : ∀ response, r = .ok response → ∃ given, provided l = [(request, .response given)] ∧
    given.message = response.message ∧ given.usage = response.usage ∧
    ∀ call ∈ given.message.toolCalls, ∀ spec ∈ tools.get call.name, Discerned py call spec
  error : ∀ e, r = .error e → Traced (fun _ _ => True) (facade.chat py request) l (.error e)

/-- `chat` changes nothing of a response but its payload. -/
theorem accepted_eq {facade : AIFacade} {request : ChatRequest F} {given response : ChatResponse F}
    (h : facade.accepted py request given = .ok response) :
    given.message = response.message ∧ given.usage = response.usage := by
  unfold AIFacade.accepted at h
  split_ifs at h
  cases hpayload : AIFacade.validatedPayload py request given with
  | error e =>
    rw [hpayload] at h
    cases h
  | ok payload =>
    rw [hpayload] at h
    obtain rfl := Except.ok.inj h
    cases payload <;> exact ⟨rfl, rfl⟩

theorem yields_round {facade : AIFacade} (request : ChatRequest F) :
    Yields (Tame (V := V) py tools) (facade.chat py request) (Round facade py tools request) := by
  intro l r htraced
  have herror : ∀ e, r = .error e → Traced (fun _ _ => True) (facade.chat py request) l (.error e) := by
    rintro e rfl
    exact htraced.weaken fun _ _ _ => trivial
  cases yields_chat request l r htraced with
  | refused e => exact ⟨rfl, by simp, .inl rfl, nofun, herror⟩
  | late left e => exact ⟨rfl, by simp, .inl rfl, nofun, herror⟩
  | failed left unlike allowed e => exact ⟨rfl, by simp, .inr ⟨_, rfl⟩, nofun, herror⟩
  | answered left given allowed =>
    refine ⟨rfl, by simp, .inr ⟨_, rfl⟩, ?_, herror⟩
    intro response hr
    obtain ⟨hmessage, husage⟩ := accepted_eq hr
    exact ⟨given, rfl, hmessage, husage, allowed⟩

/-! ### The rounds -/

section Rounds

variable {request : ChatRequest F} {given : ChatResponse F} {messages : List (Message F)} {start : Usage}
  {rounds sequence : ℕ} {l rest : Transcript F V} {r : Except Exc (ChatResponse F × ℕ)}

theorem responses_of_given (h : provided l = [(request, .response given)]) : responses l = [given] := by
  rw [responses, h]
  rfl

/-- A last round. -/
theorem Course.last (hmessages : request.messages = messages)
    (hprovided : provided l = [] ∨ ∃ completion, provided l = [(request, completion)])
    (hruns : RunsFor py tools [] l ∨ ∃ given, provided l = [(request, .response given)] ∧
      RunsFor py tools given.message.toolCalls l)
    (htrail : Trail sequence (events l))
    (husage : ∀ response last, r = .ok (response, last) → last = sequence + (events l).length ∧
      ∃ given, provided l = [(request, .response given)] ∧ response.usage = start + given.usage) :
    Course py tools (rounds + 1) messages start sequence l r := by
  refine ⟨?_, ?_, ?_, ?_, htrail, ?_⟩
  · rcases hprovided with h | ⟨completion, h⟩ <;> rw [h] <;> simp
  · intro tool arguments callId outcome hx
    rcases hruns with h | ⟨given, hgiven, h⟩
    · obtain ⟨call, hcall, -⟩ := h tool arguments callId outcome hx
      cases hcall
    · refine ⟨given, ?_, h tool arguments callId outcome hx⟩
      rw [responses_of_given hgiven]
      exact List.mem_singleton_self given
  · intro x hx
    rcases hprovided with h | ⟨completion, h⟩
    · rw [h] at hx
      cases hx
    · rw [h] at hx
      obtain rfl := Option.some.inj hx
      exact hmessages
  · rcases hprovided with h | ⟨completion, h⟩ <;> rw [h] <;> simp
  · intro response last hr
    obtain ⟨hlast, given, hgiven, hsum⟩ := husage response last hr
    refine ⟨hlast, ?_, ?_⟩
    · rw [responses_of_given hgiven, hgiven]
      rfl
    · rw [responses_of_given hgiven, hsum]
      rfl

/-- A round, and those after it. -/
theorem Course.cons {answers : List (Message F)} (hmessages : request.messages = messages)
    (hprovided : provided l = [(request, .response given)]) (hcalls : RunsFor py tools given.message.toolCalls l)
    (htrail : Trail sequence (events l))
    (hanswers : List.Forall₂
      (fun call message => ∃ text, message = Message.toolResult call.name text ∧ Told py tools l call text)
      given.message.toolCalls answers)
    (hrest : Course py tools rounds (messages ++ given.message :: answers) (start + given.usage)
      (sequence + (events l).length) rest r) :
    Course py tools (rounds + 1) messages start sequence (l ++ rest) r := by
  have hresponses := responses_of_given hprovided
  have hprovided' : provided (l ++ rest) = (request, .response given) :: provided rest := by
    rw [provided_append, hprovided]
    rfl
  have hresponses' : responses (l ++ rest) = given :: responses rest := by
    rw [responses_append, hresponses]
    rfl
  refine ⟨?_, ?_, ?_, ?_, ?_, ?_⟩
  · rw [hprovided', List.length_cons]
    exact Nat.succ_le_succ hrest.bounded
  · intro tool arguments callId outcome hx
    rw [hresponses']
    rcases List.mem_append.mp hx with hx | hx
    · exact ⟨given, List.mem_cons_self .., hcalls tool arguments callId outcome hx⟩
    · obtain ⟨response, hresponse, hcall⟩ := hrest.allowed tool arguments callId outcome hx
      exact ⟨response, List.mem_cons_of_mem _ hresponse, hcall⟩
  · intro x hx
    rw [hprovided'] at hx
    obtain rfl := Option.some.inj hx
    exact hmessages
  · -- the first request is followed by one with the answers behind it
    rw [hprovided', List.isChain_cons]
    refine ⟨?_, hrest.follows.imp fun _ _ h => h.mono (List.subset_append_right ..)⟩
    intro y hy
    refine ⟨given, answers, rfl, ?_, hanswers.imp ?_⟩
    · rw [hrest.opens y hy, hmessages]
    · rintro call message ⟨text, hmessage, htold⟩
      exact ⟨text, hmessage, htold.mono (List.subset_append_left ..)⟩
  · rw [events_append]
    exact htrail.append hrest.trail
  · intro response last hr
    obtain ⟨hlast, hlength, hsum⟩ := hrest.usage response last hr
    refine ⟨?_, ?_, ?_⟩
    · rw [hlast, events_append, List.length_append, Nat.add_assoc]
    · rw [hresponses', hprovided', List.length_cons, List.length_cons, hlength]
    · rw [hresponses', hsum]
      rfl

end Rounds

/-- How the rest of the loop may raise, whatever came before and led to its messages. -/
def RaisesAfter (facade : AIFacade) (py : Host F) (tools : ToolSet F) (request : ChatRequest F) (rounds : ℕ)
    (messages : List (Message F)) (l : Transcript F V) (e : Exc) : Prop :=
  ∀ before, Leads py tools request.messages before messages →
    Raises facade py tools request ((provided before).length + rounds) (before ++ l) e

theorem RaisesAfter.cons {facade : AIFacade} {request asked : ChatRequest F} {given : ChatResponse F} {rounds : ℕ}
    {messages answers : List (Message F)} {l rest : Transcript F V} {e : Exc} (hmessages : asked.messages = messages)
    (hprovided : provided l = [(asked, .response given)])
    (hanswers : List.Forall₂
      (fun call message => ∃ text, message = Message.toolResult call.name text ∧ Told py tools l call text)
      given.message.toolCalls answers)
    (h : RaisesAfter facade py tools request rounds (messages ++ given.message :: answers) rest e) :
    RaisesAfter facade py tools request (rounds + 1) messages (l ++ rest) e := by
  intro before _
  have hleads : Leads py tools request.messages (before ++ l) (messages ++ given.message :: answers) := by
    refine .inr ⟨provided before, (asked, .response given), by rw [provided_append, hprovided], given, answers, rfl,
      by rw [hmessages], hanswers.imp ?_⟩
    rintro call message ⟨text, hmessage, htold⟩
    exact ⟨text, hmessage, htold.mono (List.subset_append_right ..)⟩
  have hmore := h (before ++ l) hleads
  rw [provided_append, hprovided, List.length_append, List.length_singleton, List.append_assoc, Nat.add_assoc,
    Nat.add_comm 1] at hmore
  exact hmore

/-- What the rounds that are left exchange, and how they end. -/
def Rounded (facade : AIFacade) (py : Host F) (tools : ToolSet F) (request : ChatRequest F) (rounds : ℕ)
    (messages : List (Message F)) (start : Usage) (sequence : ℕ) (l : Transcript F V)
    (r : Except Exc (ChatResponse F × ℕ)) : Prop :=
  Course py tools rounds messages start sequence l r ∧
    ∀ e, r = .error e → RaisesAfter facade py tools request rounds messages l e

/-- One round: the last one, or one that others follow. -/
theorem yields_turn {facade : AIFacade} (hdeclared : Declared py tools) (request : ChatRequest F)
    {maxRounds left round : ℕ} {messages : List (Message F)} {usage : Usage} {sequence : ℕ}
    (hleft : (round = maxRounds ∧ left = 0) ∨ (round ≠ maxRounds ∧ ∀ messages usage sequence,
      Yields (Tame (V := V) py tools)
        (facade.toolRounds py request tools maxRounds left (round + 1) messages usage sequence)
        (Rounded facade py tools request left messages usage sequence))) :
    Yields (Tame (V := V) py tools) (facade.toolRounds py request tools maxRounds (left + 1) round messages usage sequence)
      (Rounded facade py tools request (left + 1) messages usage sequence) := by
  unfold AIFacade.toolRounds
  obtain ⟨asked, hasked⟩ : ∃ asked : ChatRequest F, asked = { request with messages, tools := tools.specs } := ⟨_, rfl⟩
  have hmessages : asked.messages = messages := by rw [hasked]
  rw [← hasked]
  refine yields_bind.mpr ((yields_round asked).mono fun l r hround => ?_)
  have hnoruns : ∀ calls : List (ToolCall F), RunsFor py tools calls l := fun _ _ _ _ _ hx =>
    (hround.runs _ _ _ _ hx).elim
  have htrail : Trail sequence (events l) := hround.events ▸ .nil sequence
  cases r with
  | error e =>
    -- the chat raises, and so does the loop
    refine ⟨.last hmessages hround.requests (.inl (hnoruns _)) htrail nofun, ?_⟩
    rintro e' ⟨⟩ before hleads
    exact .chat messages before l rfl hleads (hasked ▸ hround.error e rfl)
  | ok response =>
    obtain ⟨given, hgiven, hmessage, husage, hdiscerned⟩ := hround.ok response rfl
    rw [ends_ok]
    dsimp only
    rw [← hmessage, ← husage]
    cases hcalls : given.message.toolCalls with
    | nil =>
      -- no tool is asked for: the loop returns
      refine yields_pure.mpr ⟨?_, nofun⟩
      rw [List.append_nil]
      refine .last hmessages hround.requests (.inl (hnoruns _)) htrail ?_
      rintro response' last ⟨⟩
      rw [hround.events]
      exact ⟨rfl, given, hgiven, rfl⟩
    | cons call calls =>
      dsimp only
      rcases hleft with ⟨rfl, rfl⟩ | ⟨hround', hrest⟩
      · -- this was the last round
        rw [if_pos rfl]
        refine yields_raise.mpr ⟨?_, ?_⟩
        · rw [List.append_nil]
          exact .last hmessages hround.requests (.inl (hnoruns _)) htrail nofun
        · rintro e ⟨⟩ before -
          refine .limit _ ?_ rfl
          rw [provided_append, provided_append, hgiven, List.length_append]
          rfl
      · rw [if_neg hround', ← hcalls]
        refine yields_bind.mpr ((yields_invokeAll hdeclared hdiscerned sequence).mono fun l' r' hinvoked => ?_)
        have hprovided : provided (l ++ l') = [(asked, .response given)] := by
          rw [provided_append, hgiven, hinvoked.provided]
          rfl
        have hevents : events (l ++ l') = events l' := by
          rw [events_append, hround.events]
          rfl
        have hruns : RunsFor py tools given.message.toolCalls (l ++ l') := (hnoruns _).append hinvoked.runs
        cases r' with
        | error e =>
          -- a tool is unknown
          refine ⟨?_, ?_⟩
          · exact .last hmessages (.inr ⟨_, hprovided⟩) (.inr ⟨given, hprovided, hruns⟩) (hevents ▸ hinvoked.trail) nofun
          · rintro e' ⟨⟩ before -
            obtain ⟨other, hother, hunknown, he⟩ := hinvoked.error e rfl
            refine .denied given other ?_ hother hunknown he
            rw [responses_append, responses_of_given hprovided]
            exact List.mem_append_right _ (List.mem_singleton_self given)
        | ok x =>
          -- the results are rendered, which neither asks the provider nor runs a tool
          obtain ⟨results, last⟩ := x
          obtain ⟨hlast, hresults⟩ := hinvoked.ok results last rfl
          rw [ends_ok]
          refine yields_bind.mpr ((yields_render results).mono fun l'' r'' hrendered => ?_)
          obtain ⟨answers, rfl, hanswers⟩ := hrendered.ok
          have hquiet : provided l'' = [] ∧ events l'' = [] := hrendered.quiet
          rw [ends_ok]
          refine (hrest _ _ _).mono fun rest r hrested => ?_
          have hall : l ++ (l' ++ (l'' ++ rest)) = (l ++ (l' ++ l'')) ++ rest := by simp only [List.append_assoc]
          have hprovided' : provided (l ++ (l' ++ l'')) = [(asked, .response given)] := by
            rw [← List.append_assoc, provided_append, hprovided, hquiet.1]
            rfl
          have hevents' : events (l ++ (l' ++ l'')) = events l' := by
            rw [← List.append_assoc, events_append, hevents, hquiet.2, List.append_nil]
          have hruns' : RunsFor py tools given.message.toolCalls (l ++ (l' ++ l'')) := by
            rw [← List.append_assoc]
            exact hruns.append hrendered.runs
          have htold : List.Forall₂ (fun call message => ∃ text, message = Message.toolResult call.name text ∧
              Told py tools (l ++ (l' ++ l'')) call text) given.message.toolCalls answers := by
            refine told_answers (hresults.imp fun _ _ h => ?_) (hanswers.imp ?_)
            · exact (h.mono (List.subset_append_left l' l'')).mono (List.subset_append_right l _)
            · rintro _ _ ⟨text, hmessage, h⟩
              exact ⟨text, hmessage, (h.mono (List.subset_append_right l' l'')).mono (List.subset_append_right l _)⟩
          have hcourse := hrested.1
          rw [hlast, ← hevents'] at hcourse
          rw [hall]
          refine ⟨.cons hmessages hprovided' hruns' (hevents' ▸ hinvoked.trail) htold hcourse, fun e he => ?_⟩
          exact .cons hmessages hprovided' htold (hrested.2 e he)

theorem yields_toolRounds {facade : AIFacade} (hdeclared : Declared py tools) (request : ChatRequest F) (maxRounds : ℕ) :
    ∀ (left round : ℕ) (messages : List (Message F)) (usage : Usage) (sequence : ℕ), left + round = maxRounds →
      Yields (Tame (V := V) py tools)
        (facade.toolRounds py request tools maxRounds (left + 1) round messages usage sequence)
        (Rounded facade py tools request (left + 1) messages usage sequence) := by
  intro left
  induction left with
  | zero =>
    intro round messages usage sequence hround
    exact yields_turn hdeclared request (.inl ⟨by omega, rfl⟩)
  | succ left ih =>
    intro round messages usage sequence hround
    refine yields_turn hdeclared request (.inr ⟨by omega, fun messages usage sequence => ?_⟩)
    exact ih (round + 1) messages usage sequence (by omega)

end Loop

/-! ## The promise -/

/-- A set holds the tools it was made of. -/
theorem ToolSet.mem_of_get {specs : List (ToolSpec F)} {sink : Bool} {tools : ToolSet F}
    (hof : ToolSet.of specs sink = .ok tools) {name : String} {spec : ToolSpec F} (hget : tools.get name = some spec) :
    spec ∈ specs ∧ spec.name = name := by
  -- a tool that is found was in the set before the loop, or has been added
  have hfold : ∀ (specs : List (ToolSpec F)) (set : ToolSet F), specs.foldlM ToolSet.add set = .ok tools →
      set.get name = some spec ∨ (spec ∈ specs ∧ spec.name = name) := by
    intro specs
    induction specs with
    | nil =>
      rintro set ⟨⟩
      exact .inl hget
    | cons tool specs ih =>
      intro set h
      rw [List.foldlM_cons] at h
      cases hadd : set.add tool with
      | error e =>
        rw [hadd] at h
        cases h
      | ok next =>
        rw [hadd] at h
        refine (ih next h).elim (fun hnext => ?_) fun hmem => .inr ⟨List.mem_cons_of_mem _ hmem.1, hmem.2⟩
        have hfree : set.get tool.name = none := by
          by_contra hused
          have hsome : (set.tools.get? tool.name).isSome = true := Option.isSome_iff_ne_none.mpr hused
          rw [ToolSet.add, Table.insert?_eq_none_iff.mpr hsome] at hadd
          cases hadd
        obtain ⟨next', hnext', hgets⟩ := set.add_of_none hfree
        obtain rfl : next' = next := Except.ok.inj (hnext'.symm.trans hadd)
        rw [hgets] at hnext
        split_ifs at hnext with hname
        · obtain rfl := Option.some.inj hnext
          exact .inr ⟨List.mem_cons_self .., hname.symm⟩
        · exact .inl hnext
  refine (hfold specs ⟨.empty, sink⟩ hof).resolve_left fun hempty => ?_
  cases hempty

/-- Tools that were declared make a set whose schemas are checked. -/
theorem declared_of {py : Host F} {specs : List (ToolSpec F)} {sink : Bool} {tools : ToolSet F}
    (hof : ToolSet.of specs sink = .ok tools)
    (hspecs : ∀ spec ∈ specs, ToolSpec.declare py spec.name spec.description spec.parameters = .ok spec) :
    Declared py tools := by
  refine ⟨fun name spec hget => (ToolSet.mem_of_get hof hget).2, fun name spec hget => ?_⟩
  have hdeclare := hspecs spec (ToolSet.mem_of_get hof hget).1
  unfold ToolSpec.declare at hdeclare
  split_ifs at hdeclare
  cases hcheck : checkSchema s!"parameters of tool {reprStr spec.name}" py spec.parameters with
  | error e =>
    rw [hcheck] at hdeclare
    cases hdeclare
  | ok _ => exact checkSchema_location hcheck _

/-- **The tool loop keeps its promise** in every run in which the value of each handler can be written as JSON, the text of
each exception can be had, and validation tells the arguments that do not satisfy a schema. -/
theorem loops_of_tame {facade : AIFacade} {py : Host F} {specs : List (ToolSpec F)} {sink : Bool} {tools : ToolSet F}
    (hof : ToolSet.of specs sink = .ok tools)
    (hspecs : ∀ spec ∈ specs, ToolSpec.declare py spec.name spec.description spec.parameters = .ok spec)
    {request : ChatRequest F} {maxRounds sequence : ℕ} {l : Transcript F V} {r : Except Exc (ChatResponse F × ℕ)}
    (h : Traced (Tame py tools) (facade.chatWithTools py request tools maxRounds sequence) l r) :
    Loops facade py tools maxRounds request sequence l r := by
  have hdeclared := declared_of hof hspecs
  have hearly : ∀ e, Loops facade py tools maxRounds request sequence ([] : Transcript F V) (.error e) :=
    fun e => ⟨⟨Nat.zero_le _, nofun, nofun, .nil, .nil sequence, nofun⟩, fun _ _ => .early rfl⟩
  have hyields : Yields (Tame py tools) (facade.chatWithTools py request tools maxRounds sequence)
      (Loops (V := V) facade py tools maxRounds request sequence) := by
    unfold AIFacade.chatWithTools
    by_cases hrounds : maxRounds < 1
    · rw [if_pos hrounds]
      exact yields_raise.mpr (hearly _)
    · rw [if_neg hrounds]
      refine yields_bind.mpr (yields_ofExcept.mpr ?_)
      cases facade.declared with
      | error e => exact hearly e
      | ok capabilities =>
        rw [ends_ok]
        by_cases htools : (!capabilities.tools) = true
        · rw [if_pos htools]
          exact yields_raise.mpr (hearly _)
        · rw [if_neg htools]
          obtain ⟨left, rfl⟩ : ∃ left, maxRounds = left + 1 := ⟨maxRounds - 1, by omega⟩
          refine (yields_toolRounds hdeclared request (left + 1) left 1 _ _ _ rfl).mono fun l r ⟨hcourse, hends⟩ => ?_
          refine ⟨hcourse, fun e he => ?_⟩
          have hraises := hends e he [] (.inl ⟨rfl, rfl⟩)
          rw [provided_nil, List.length_nil, Nat.zero_add] at hraises
          exact hraises
  exact hyields l r h

/-! ### Runs to compute with -/

/-- A tool without parameters. -/
def countSpec : ToolSpec Empty := { name := "count", parameters := objectOf [("type", word "object")] }

def countTools : ToolSet Empty := ⟨⟨[("count", countSpec)], List.nodup_singleton _⟩, true⟩

theorem countTools_of : ToolSet.of [countSpec] true = .ok countTools := rfl

theorem countSpec_declare : ∀ spec ∈ [countSpec],
    ToolSpec.declare wholeNumbers spec.name spec.description spec.parameters = .ok spec := by
  intro spec hspec
  obtain rfl := List.mem_singleton.mp hspec
  have hchecked : checkSchema s!"parameters of tool {reprStr countSpec.name}" wholeNumbers countSpec.parameters = .ok () := by
    decide +kernel
  rw [ToolSpec.declare, if_neg (by decide +kernel), hchecked]
  rfl

def countCall : ToolCall Empty := ⟨"count", [], none⟩

/-- The model calls the tool once, and then answers; the tool returns this value, which `dumps` writes. -/
def counting (value : V) (dumps : V → Except Exc String) : (q : Ask Empty V) → q.Reply
  | .remaining => none
  | .complete asked =>
    if asked.messages.any fun m => m.role = .tool then .response (responseOf "done")
    else .response { message := { role := .assistant, toolCalls := [countCall] } }
  | .emit _ => ()
  | .run _ _ _ => .returned value
  | .str error => .ok error.message
  | .dumps value => dumps value

/-- `{1: 0, "a": 0}` -/
def mixed : Value Empty := .dict [(.int 1, .scalar (.int 0)), (.str (Str.ofString "a"), .scalar (.int 0))]

def countRequest : ChatRequest Empty := { messages := [{ role := .user, content := "?" }] }

/-- The loop, over such a model and such a tool. -/
def countingRun (value : V) (dumps : V → Except Exc String) :
    Transcript Empty V × Except Exc (ChatResponse Empty × ℕ) :=
  (plainFacade.chatWithTools wholeNumbers countRequest countTools 3 0).replay (counting value dumps)

theorem satisfies_count : Satisfies wholeNumbers.toFloats countCall.payload countSpec.parameters := by
  have htype : matchesDeclaredTypes countCall.payload (getKeyword "type" countSpec.parameters) = true := by decide +kernel
  refine .intro (hasType_iff.mp htype) (.inl rfl) nofun nofun nofun nofun (fun _ => nofun) (fun _ => nofun) (fun _ => nofun)
    nofun

theorem discerned_count : Discerned wholeNumbers countCall countSpec where
  seen hnot := (hnot satisfies_count).elim
  told := by
    intro before d after hds _ hfound
    have hvalid : validatePayload (argumentsOf "count") wholeNumbers countCall.payload countSpec.parameters =
      .ok countCall.payload := by decide +kernel
    exact ((validatePayload_ok_iff (by decide +kernel)).mp hvalid d (hds ▸ by simp) hfound).elim

/-- The tool returns `None`, and the model is told `null`. -/
theorem loops_counting : Loops plainFacade wholeNumbers countTools 3 countRequest 0
    (countingRun () fun _ => .ok "null").1 (countingRun () fun _ => .ok "null").2 := by
  have htame : ∀ q, Tame wholeNumbers countTools q (counting () (fun _ => .ok "null") q) := by
    intro q
    cases q with
    | remaining => trivial
    | complete asked =>
      show Tame _ _ (.complete asked) (if _ then _ else _)
      split_ifs
      · exact nofun
      · intro call hcall spec hspec
        obtain rfl := List.mem_singleton.mp hcall
        obtain rfl : spec = countSpec := (Option.some.inj hspec).symm
        exact discerned_count
    | emit event => trivial
    | run tool arguments callId => trivial
    | str error => exact ⟨_, rfl⟩
    | dumps value => exact ⟨_, rfl⟩
  have hrun : Traced (Tame wholeNumbers countTools)
      (plainFacade.chatWithTools wholeNumbers countRequest countTools 3 0)
      (countingRun () fun _ => .ok "null").1 (countingRun () fun _ => .ok "null").2 := traced_replay htame _
  exact loops_of_tame countTools_of countSpec_declare hrun

/-- The run of a tool that returns a dictionary which `json.dumps` cannot sort. -/
def mixedRun : Transcript Empty (Value Empty) × Except Exc (ChatResponse Empty × ℕ) :=
  countingRun mixed fun value => (wholeNumbers.dumps value).map String.ofList

/-- Whether an exchange is one of a conversation with the provider. -/
def ofChat : Exchange (Ask.Reply (F := F) (V := V)) → Bool
  | ⟨.remaining, _⟩ => true
  | ⟨.complete _, _⟩ => true
  | _ => false

/-- A call of `chat` through the plain facade exchanges something, and nothing but with the provider. -/
theorem ofChat_of_traced {py : Host F} {request : ChatRequest F} {l : Transcript F V} {r : Except Exc (ChatResponse F)}
    (h : Traced (fun _ _ => True) (plainFacade.chat py request) l r) : ∃ x ∈ l.getLast?, ofChat x = true := by
  have hchecked : plainFacade.checkRequest request = .ok () := by
    obtain ⟨messages, responseSchema, tools, timeout⟩ := request
    cases responseSchema <;> cases tools <;> rfl
  cases yields_chat request l r h with
  | late left e => exact ⟨_, rfl, rfl⟩
  | failed left unlike allowed e => exact ⟨_, rfl, rfl⟩
  | answered left response allowed => exact ⟨_, rfl, rfl⟩
  | refused e =>
    unfold AIFacade.chat at h
    rw [hchecked] at h
    cases h

/-- The exception of `json.dumps` escapes from the loop. -/
theorem not_loops_mixed : mixedRun.2.map (fun _ => ()) = .error (typeError "'<' not supported between instances of the keys") ∧
    ¬ Loops plainFacade wholeNumbers countTools 3 countRequest 0 mixedRun.1 mixedRun.2 := by
  have hend : mixedRun.2.map (fun _ => ()) = .error (typeError "'<' not supported between instances of the keys") := by
    decide +kernel
  have hlast : mixedRun.1.getLast?.map ofChat = some false := by decide +kernel
  have hunlike : "TypeError" ≠ "AIToolError" := by decide
  refine ⟨hend, fun h => ?_⟩
  cases hr : mixedRun.2 with
  | ok x =>
    rw [hr] at hend
    cases hend
  | error e =>
    rw [hr] at hend
    obtain rfl : e = typeError _ := Except.error.inj hend
    cases h.ends _ hr with
    | early nothing =>
      rw [nothing] at hlast
      cases hlast
    | chat messages before after split leads raised =>
      obtain ⟨x, hx, hchat⟩ := ofChat_of_traced raised
      rw [split, List.getLast?_append, Option.mem_def.mp hx] at hlast
      rw [Option.some_or, Option.map_some, hchat] at hlast
      cases hlast
    | denied response call given called unknown error => exact hunlike (congrArg (fun e => e.cls.name) error)
    | limit message rounds error => exact hunlike (congrArg (fun e => e.cls.name) error)

end Xyberos.Ai
