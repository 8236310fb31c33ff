import Xyberos.Ai.Schema
import Xyberos.Base.Table
import Xyberos.Base.Traces

/-!
# Xyberos.Ai.Tools — conversations, and the tools of a call

The contracts of a chat call, and `ToolSet`: the tools that a call may use, how one is invoked and what is told of it.
The code asks its surroundings for what a provider answers, for what a handler does, for the text of a value and of an
exception, and tells an audit sink what happens.  The durations, the correlation id and the deadline of a tool are left
out.
-/

set_option autoImplicit false

namespace Xyberos.Ai

open Json Proc

variable {F V : Type}

/-! ## Contracts -/

/-- `ToolCall` -/
structure ToolCall (F : Type) where
  name : String
  arguments : List (Str × Value F)
  callId : Option String := none

/-- The arguments as a dictionary. -/
def ToolCall.payload (call : ToolCall F) : Value F := .dict (call.arguments.map fun m => (.str m.1, m.2))

inductive Role
  | system | user | assistant | tool
deriving DecidableEq, Repr

structure Message (F : Type) where
  role : Role
  content : String := ""
  toolCalls : List (ToolCall F) := []
  toolName : Option String := none

/-- `Message.tool_result`, for a tool whose name is not empty. -/
def Message.toolResult (toolName content : String) : Message F := { role := .tool, content, toolName := some toolName }

structure Usage where
  inputTokens : ℕ := 0
  outputTokens : ℕ := 0
deriving DecidableEq, Repr

instance : Add Usage := ⟨fun a b => ⟨a.inputTokens + b.inputTokens, a.outputTokens + b.outputTokens⟩⟩

structure ModelCapabilities where
  tools : Bool := false
  structuredOutput : Bool := false
  streaming : Bool := true
  embeddings : Bool := false

/-- `ToolSpec` -/
structure ToolSpec (F : Type) where
  name : String
  description : String := ""
  parameters : Value F

/-- `ToolSpec(name, description, parameters)`, with a mapping of parameters. -/
def ToolSpec.declare (py : Host F) (name description : String) (parameters : Value F) : Except Exc (ToolSpec F) :=
  if isBlank name then .error (aiRequestError "a tool specification needs a non-empty name")
  else do
    checkSchema s!"parameters of tool {reprStr name}" py parameters
    return ⟨name, description, parameters⟩

structure ChatRequest (F : Type) where
  messages : List (Message F)
  responseSchema : Option (Value F) := none
  tools : List (ToolSpec F) := []
  timeout : Option ℚ := none

inductive FinishReason
  | stop | length | toolCalls | refusal | other
deriving DecidableEq, Repr

/-- `ChatResponse`; `structured` is `None` where there is nothing structured. -/
structure ChatResponse (F : Type) where
  message : Message F
  usage : Usage := {}
  finishReason : Option FinishReason := none
  structured : Value F := .scalar .none
  rounds : ℕ := 1

/-! ## What is asked of the surroundings -/

inductive ToolEventType
  | requested | denied | invalid | succeeded | failed
deriving DecidableEq, Repr

structure ToolEvent where
  type : ToolEventType
  tool : String
  sequence : ℕ
  argumentKeys : List Str
  errorType : Option String

/-- What a provider answers: a response, a value of another type (its name), or an exception. -/
inductive Completion (F : Type)
  | response (response : ChatResponse F)
  | other (typeName : String)
  | raised (error : Exc)

/-- What a handler does. -/
inductive Outcome (V : Type)
  | returned (value : V)
  | raised (error : Exc)

inductive Ask (F V : Type)
  /-- the seconds that are left before the deadline of the context, if it has one -/
  | remaining
  /-- `provider.chat(request)` -/
  | complete (request : ChatRequest F)
  /-- the sink -/
  | emit (event : ToolEvent)
  /-- the handler of a tool, with its arguments and the id of the call -/
  | run (tool : String) (arguments : List (Str × Value F)) (callId : Option String)
  /-- `str(error)` -/
  | str (error : Exc)
  /-- `json.dumps(value, default=str, sort_keys=True)` -/
  | dumps (value : V)

abbrev Ask.Reply : Ask F V → Type
  | .remaining => Option ℚ
  | .complete _ => Completion F
  | .emit _ => Unit
  | .run _ _ _ => Outcome V
  | .str _ => Except Exc String
  | .dumps _ => Except Exc String

/-- The code of a call. -/
abbrev Chat (F V α : Type) := Proc (Ask F V) Ask.Reply Exc α

def ask (q : Ask F V) : Chat F V q.Reply := request q

/-! ## Results -/

/-- `ToolResult`: `ok` with a value, or the type and the text of an error. -/
inductive ToolResult (V : Type)
  | returned (tool : String) (value : V)
  | failed (tool errorType error : String)

namespace ToolResult

def tool : ToolResult V → String
  | .returned tool _ => tool
  | .failed tool _ _ => tool

/-- `json.dumps({"error_type": .., "error": ..}, sort_keys=True)`. -/
def errorText (errorType error : String) : String :=
  "\x7b\"error\": " ++ String.ofList (stringText (.ofString error)) ++ ", \"error_type\": " ++
    String.ofList (stringText (.ofString errorType)) ++ "\x7d"

def render : ToolResult V → Chat F V String
  | .returned _ value => do ofExcept (← ask (.dumps value))
  | .failed _ errorType error => pure (errorText errorType error)

end ToolResult

/-! ## `ToolSet` -/

def aiToolError (message : String) : Exc := xyberosError "AIToolError" ["AIError"] message

/-- `ToolSet`: the declarations of the tools by name, and whether there is a sink. -/
structure ToolSet (F : Type) where
  tools : Table String (ToolSpec F)
  sink : Bool

namespace ToolSet

variable (set : ToolSet F)

def names : List String := set.tools.rows.map Prod.fst

def specs : List (ToolSpec F) := set.tools.rows.map Prod.snd

def get (name : String) : Option (ToolSpec F) := set.tools.get? name

/-- `add`, of a `Tool`. -/
def add (tool : ToolSpec F) : Except Exc (ToolSet F) :=
  match set.tools.insert? tool.name tool with
  | none => .error (aiToolError s!"tool {reprStr tool.name} is already registered")
  | some tools => .ok { set with tools }

/-- `ToolSet(tools)`. -/
def of (tools : List (ToolSpec F)) (sink : Bool) : Except Exc (ToolSet F) :=
  tools.foldlM add ⟨.empty, sink⟩

theorem add_of_none {tool : ToolSpec F} (h : set.get tool.name = none) :
    ∃ set', set.add tool = .ok set' ∧ ∀ name, set'.get name = if name = tool.name then some tool else set.get name := by
  have hfree : set.tools.insert? tool.name tool ≠ none := fun hn => by
    have := Table.insert?_eq_none_iff.mp hn
    rw [show set.tools.get? tool.name = none from h] at this
    exact nomatch this
  obtain ⟨tools, htools⟩ := Option.ne_none_iff_exists'.mp hfree
  refine ⟨{ set with tools }, by rw [add, htools], fun name => ?_⟩
  exact Table.get?_insert? htools name

/-- Tools of distinct names can be put together in a set. -/
theorem of_nodup {tools : List (ToolSpec F)} (h : (tools.map ToolSpec.name).Nodup) (sink : Bool) :
    ∃ set, ToolSet.of tools sink = .ok set ∧ ∀ tool ∈ tools, set.get tool.name = some tool := by
  have hfold : ∀ (tools : List (ToolSpec F)) (set : ToolSet F), (tools.map ToolSpec.name).Nodup →
      (∀ tool ∈ tools, set.get tool.name = none) → ∃ set', tools.foldlM add set = .ok set' ∧
        (∀ tool ∈ tools, set'.get tool.name = some tool) ∧
        ∀ name, name ∉ tools.map ToolSpec.name → set'.get name = set.get name := by
    intro tools
    induction tools with
    | nil => exact fun set _ _ => ⟨set, rfl, by simp, fun _ _ => rfl⟩
    | cons tool tools ih =>
      intro set hn hfree
      rw [List.map_cons, List.nodup_cons] at hn
      obtain ⟨next, hnext, hget⟩ := set.add_of_none (hfree tool (List.mem_cons_self ..))
      have hrest : ∀ other ∈ tools, next.get other.name = none := by
        intro other ho
        have hne : other.name ≠ tool.name := fun he => hn.1 (he ▸ List.mem_map_of_mem ho)
        rw [hget, if_neg hne]
        exact hfree other (List.mem_cons_of_mem _ ho)
      obtain ⟨last, hlast, hin, hout⟩ := ih next hn.2 hrest
      refine ⟨last, by rw [List.foldlM_cons, hnext]; exact hlast, ?_, ?_⟩
      · intro other ho
        rcases List.mem_cons.mp ho with rfl | ho
        · rw [hout _ hn.1, hget, if_pos rfl]
        · exact hin other ho
      · intro name hname
        rw [List.map_cons, List.mem_cons, not_or] at hname
        rw [hout name hname.2, hget, if_neg hname.1]
  obtain ⟨set, hset, hin, -⟩ := hfold tools ⟨.empty, sink⟩ h fun _ _ => rfl
  exact ⟨set, hset, hin⟩

/-- `_emit`, which returns the number of the last event. -/
def emit (sequence : ℕ) (type : ToolEventType) (tool : String) (argumentKeys : List Str) (errorType : Option String) :
    Chat F V ℕ :=
  if set.sink then do
    (ask (.emit ⟨type, tool, sequence + 1, argumentKeys, errorType⟩) : Chat F V Unit)
    return sequence + 1
  else pure sequence

def deniedError (name : String) : Exc :=
  let allowed := textOr "none" (", ".intercalate set.names)
  aiToolError (s!"the model asked for tool {reprStr name}, which is not allowed for this call; " ++
    s!"allowed tools: {allowed}")

/-- `invoke`, with the number of the last event before and after. -/
def invoke (py : Host F) (sequence : ℕ) (call : ToolCall F) : Chat F V (ToolResult V × ℕ) := do
  let keys := (call.arguments.map Prod.fst).insertionSort fun a b => ¬ b < a
  let sequence ← set.emit sequence .requested call.name keys none
  match set.get call.name with
  | none =>
    let _ ← set.emit sequence .denied call.name keys none
    .raise (set.deniedError call.name)
  | some tool =>
    match validatePayload s!"arguments of tool {reprStr tool.name}" py call.payload tool.parameters with
    | .error error =>
      if error.isInstance "AISchemaError" then
        let sequence ← set.emit sequence .invalid tool.name keys (some "AISchemaError")
        return (.failed tool.name "AISchemaError" error.message, sequence)
      else .raise error
    | .ok _ =>
      let outcome : Outcome V ← ask (.run tool.name call.arguments call.callId)
      match outcome with
      | .returned value =>
        let sequence ← set.emit sequence .succeeded tool.name keys none
        return (.returned tool.name value, sequence)
      | .raised error =>
        if error.isInstance "Exception" then
          let sequence ← set.emit sequence .failed tool.name keys (some error.cls.name)
          let text ← ofExcept (← ask (.str error))
          return (.failed tool.name error.cls.name text, sequence)
        else .raise error

/-- `invoke_all` -/
def invokeAll (py : Host F) : ℕ → List (ToolCall F) → Chat F V (List (ToolResult V) × ℕ)
  | sequence, [] => pure ([], sequence)
  | sequence, call :: calls => do
    let (result, sequence) ← set.invoke py sequence call
    let (results, sequence) ← invokeAll py sequence calls
    return (result :: results, sequence)

end ToolSet

end Xyberos.Ai
