import Xyberos.Base.Proc
import Xyberos.Execution.Validation

/-!
# Xyberos.Execution.Executor — `WorkflowExecutor.run`

A run is a coroutine.  It asks its surroundings for the time, for random numbers, for the state of the cancellation
token, for the end of the race of an attempt against its stop conditions, and to write an event to its log.  What a
step does and when it is stopped is a choice of the surroundings; the loop over the ready steps, the retry loop and
what is made of every end of an attempt are the executor's own.
-/

set_option autoImplicit false

namespace Xyberos.Execution

variable {V : Type}

/-! ## Events -/

inductive EventType
  | workflowStarted | workflowSucceeded | workflowFailed | workflowTimedOut | workflowCancelled
  | stepStarted | stepSucceeded | stepFailed | stepRetried | stepSkipped | stepTimedOut | stepCancelled
deriving DecidableEq, Repr

/-- The arguments of `_EventLog.emit`. -/
structure Emission where
  type : EventType
  step : Option String := none
  attempt : Option ℕ := none
  duration : Option ℚ := none
  detail : Option String := none
  errorType : Option String := none
deriving DecidableEq

/-- `WorkflowEvent`. -/
structure WorkflowEvent where
  sequence : ℕ
  workflow : String
  version : String
  timestamp : ℚ
  emission : Emission
deriving DecidableEq

/-- `_EventLog`; `sink` is what the sink has received, if there is one. -/
structure EventLog where
  workflow : String
  version : String
  sequence : ℕ := 0
  sink : Option (List WorkflowEvent)

/-- `emit`, at the time the clock shows. -/
def EventLog.emit (log : EventLog) (timestamp : ℚ) (e : Emission) : EventLog :=
  match log.sink with
  | none => log
  | some received =>
    { log with
      sequence := log.sequence + 1
      sink := some (received ++ [⟨log.sequence + 1, log.workflow, log.version, timestamp, e⟩]) }

/-! ## Outcomes and errors -/

inductive StepStatus
  | succeeded | failed | skipped | timedOut | cancelled
deriving DecidableEq, Repr

/-- `Attempt`. -/
structure Attempt where
  number : ℕ
  status : StepStatus
  duration : ℚ
  errorType : Option String := none
deriving DecidableEq

/-- `StepOutcome`. -/
structure StepOutcome (V : Type) where
  step : String
  status : StepStatus
  attempts : List Attempt := []
  output : V
  duration : ℚ := 0

/-- `WorkflowResult`. -/
structure WorkflowResult (V : Type) where
  workflow : String
  version : String
  outputs : Dict V
  steps : Dict (StepOutcome V)
  duration : ℚ

def workflowExecutionError (message : String) : Exc :=
  xyberosError "WorkflowExecutionError" ["WorkflowError"] message

def retryExhaustedError (message : String) : Exc :=
  xyberosError "RetryExhaustedError" ["WorkflowExecutionError", "WorkflowError"] message

def workflowTimeoutError (message : String) : Exc :=
  xyberosError "WorkflowTimeoutError" ["WorkflowExecutionError", "WorkflowError"] message

def workflowCancelledError (message : String) : Exc :=
  xyberosError "WorkflowCancelledError" ["WorkflowExecutionError", "WorkflowError"] message

/-- `kind` of `_Abort`. -/
inductive AbortKind
  | failed | retryExhausted | stepTimeout | timedOut | cancelled
deriving DecidableEq, Repr

/-- `_ABORT_ERRORS`. -/
def AbortKind.error : AbortKind → String → Exc
  | failed => workflowExecutionError
  | retryExhausted => retryExhaustedError
  | stepTimeout => stepTimeoutError
  | timedOut => workflowTimeoutError
  | cancelled => workflowCancelledError

/-- `_ABORT_EVENTS`. -/
def AbortKind.event : AbortKind → EventType
  | failed => .workflowFailed
  | retryExhausted => .workflowFailed
  | stepTimeout => .workflowFailed
  | timedOut => .workflowTimedOut
  | cancelled => .workflowCancelled

/-- `_Abort`. -/
structure Abort where
  kind : AbortKind
  message : String
  step : Option String := none
  attempts : List Attempt := []
  cause : Option Exc := none

/-- `_error_name`. -/
def Abort.errorName (abort : Abort) : String :=
  match abort.cause with
  | some cause => cause.cls.name
  | none => (abort.kind.error abort.message).cls.name

/-- `WorkflowExecutionError` and its subclasses: the exception, its fields and its `__cause__`. -/
structure ExecutionError (V : Type) where
  error : Exc
  workflow : String
  step : Option String := none
  attempts : List Attempt := []
  outcomes : Dict (StepOutcome V) := {}
  cause : Option Exc := none

/-- What a run raises, inside and out. -/
inductive Thrown (V : Type)
  | abort (a : Abort)
  | execution (e : ExecutionError V)
  | other (e : Exc)

/-! ## Requests -/

/-- An attempt at a step: its number, the value it is given, the deadline of its context, and how long it may take. -/
structure AttemptCall (V : Type) where
  step : String
  number : ℕ
  value : V
  deadline : Option ℚ
  budget : Option ℚ

/-- How an attempt ends.  The call of the step function raises `TypeError`, as a coroutine function does that cannot take
two positional arguments, and there is no race.  Or the race ends: the task is done, in one of three ways, or it is not
and the watch has fired; then `_stop_reason` finds the token of the attempt cancelled or not, and reads the clock. -/
inductive RaceEnd (V : Type)
  | uncalled (message : String)
  | returned (output : V)
  | raised (error : Exc)
  | cancelled
  | stopped (cancelled : Bool) (now : ℚ)

/-- What a run asks for; an event is stamped with the time the log reads. -/
inductive Request (V : Type)
  | monotonic
  | random
  | emit (e : Emission)
  /-- `token.cancelled` -/
  | cancelled
  /-- `token.reason` -/
  | reason
  | attempt (call : AttemptCall V)
  | sleep (delay : ℚ)

abbrev Request.Reply : Request V → Type
  | monotonic => ℚ
  | random => ℚ
  | emit _ => ℚ
  | cancelled => Bool
  | reason => Option String
  | attempt _ => RaceEnd V
  | sleep _ => Unit

/-- A coroutine of the executor. -/
abbrev Coroutine (V : Type) (α : Type) := Proc (Request V) Request.Reply (Thrown V) α

/-- A request, with its reply. -/
def ask (q : Request V) : Coroutine V q.Reply := Proc.request q

/-- `events.emit`. -/
def emit (e : Emission) : Coroutine V Unit := do
  let _ ← ask (.emit e)
  return ()

/-- `raise _Abort(..)`. -/
def abort {α : Type} (a : Abort) : Coroutine V α := .raise (.abort a)

/-- A computation that may raise. -/
def lift {α : Type} (x : Except Exc α) : Coroutine V α :=
  match x with
  | .ok a => return a
  | .error e => .raise (.other e)

/-! ## Attempts -/

/-- `stop` of `_AttemptResult`. -/
inductive Stop
  | cancelled | timedOut | stepTimeout
deriving DecidableEq

/-- `_AttemptResult`. -/
structure AttemptResult (V : Type) where
  output : V
  error : Option Exc := none
  stop : Option Stop := none

/-- The executor's surroundings that are the same for every run: `None`, `type(value).__name__`, and the format `g` of a
number. -/
structure WorkflowExecutor (V : Type) where
  null : V
  typeName : V → String
  formatG : ℚ → String
  reprFloat : ℚ → String

namespace WorkflowExecutor

variable (x : WorkflowExecutor V)

/-- `deadline is not None and clock.monotonic() >= deadline`. -/
def pastDeadline (deadline : Option ℚ) : Coroutine V Bool :=
  match deadline with
  | none => return false
  | some deadline => do
    let now ← ask .monotonic
    return decide (deadline ≤ now)

/-- `max(deadline - clock.monotonic(), 0.0)`. -/
def remaining (deadline : ℚ) : Coroutine V ℚ := do
  let now ← ask .monotonic
  return max (deadline - now) 0

/-- `_stop_reason`, from what it reads. -/
def stopReason (cancelled : Bool) (now : ℚ) (deadline : Option ℚ) : Stop :=
  if cancelled then .cancelled
  else if ∃ d ∈ deadline, d ≤ now then .timedOut
  else .stepTimeout

/-- What `_race` makes of the end of an attempt; without a race the error of the call is raised. -/
def raceResult (call : AttemptCall V) : RaceEnd V → Except Exc (AttemptResult V)
  | .uncalled message => .error (typeError message)
  | .returned output => .ok { output }
  | .raised error => .ok { output := x.null, error }
  | .cancelled => .ok { output := x.null, stop := some .cancelled }
  | .stopped cancelled now => .ok { output := x.null, stop := some (stopReason cancelled now call.deadline) }

/-- `_race` of `step.run(value, context)`, for an attempt. -/
def race (call : AttemptCall V) : Coroutine V (AttemptResult V) := do
  let ended ← ask (.attempt call)
  lift (x.raceResult call ended)

/-- `_attempt_budget`. -/
def attemptBudget (step : Step V) (deadline : Option ℚ) : Coroutine V (Option ℚ) :=
  match deadline with
  | none => return step.timeout
  | some deadline => do
    let remaining ← remaining deadline
    return some (step.timeout.elim remaining fun budget => min budget remaining)

/-- `token.reason or 'cancellation was requested'`. -/
def cancellationReason (reason : Option String) : String := textOr "cancellation was requested" reason

/-- `_require_live`. -/
def requireLive (deadline : Option ℚ) (workflow : Workflow V) (step : String) : Coroutine V Unit := do
  if ← ask .cancelled then
    let reason ← ask .reason
    abort {
      kind := .cancelled, step
      message := s!"workflow {reprStr workflow.name} was cancelled before step {reprStr step} could start " ++
        s!"({cancellationReason reason})" }
  else if ← pastDeadline deadline then
    abort {
      kind := .timedOut, step
      message := s!"workflow {reprStr workflow.name} exceeded its deadline before step {reprStr step} could start" }
  else return ()

/-- `budget` of `_pause`. -/
def pauseBudget (delay : ℚ) (deadline : Option ℚ) : Coroutine V ℚ :=
  match deadline with
  | none => return delay
  | some deadline => do
    let remaining ← remaining deadline
    return min delay remaining

/-- `_pause`. -/
def pause (delay : ℚ) (deadline : Option ℚ) (workflow : Workflow V) (step : String) (attempts : List Attempt) :
    Coroutine V Unit := do
  let budget ← pauseBudget delay deadline
  let _ ← ask (.sleep (max budget 0))
  if ← ask .cancelled then
    abort {
      kind := .cancelled, step, attempts
      message := s!"workflow {reprStr workflow.name} was cancelled while waiting to retry step {reprStr step}" }
  else if ← pastDeadline deadline then
    abort {
      kind := .timedOut, step, attempts
      message := s!"workflow {reprStr workflow.name} exceeded its deadline while waiting to retry " ++
        s!"step {reprStr step}" }
  else return ()

/-- `backoff.delay_for(number, random=self._random)`; without jitter the random source is not read. -/
def delayFor (backoff : Backoff) (number : ℕ) : Coroutine V ℚ := do
  let draw ← if backoff.jitter = 0 then pure 0 else ask .random
  lift (backoff.delayFor number draw)

/-- `f"{step.timeout:g}"`. -/
def formatSeconds : Option ℚ → Except Exc String
  | some timeout => .ok (x.formatG timeout)
  | none => .error (typeError "unsupported format string passed to NoneType.__format__")

/-- What a failed attempt leads to: the retry policy waits, or the run stops. -/
def afterFailure (workflow : Workflow V) (step : Step V) (deadline : Option ℚ) (number : ℕ) (attempts : List Attempt)
    (error : Exc) : Coroutine V Unit :=
  let stop (kind : AbortKind) : Coroutine V Unit := abort {
    kind, step := step.id, attempts, cause := error
    message := s!"step {reprStr step.id} failed after {attempts.length} attempt(s) with {error.cls.name}" }
  match step.retry.filter fun retry => retry.allows error with
  | some retry =>
    if number < retry.maxAttempts then do
      let delay ← delayFor retry.backoff number
      emit { type := .stepRetried, step := step.id, attempt := number, detail := s!"retrying in {x.formatG delay}s" }
      pause delay deadline workflow step.id attempts
    else stop .retryExhausted
  | none => stop (if error.isInstance "StepTimeoutError" then .stepTimeout else .failed)

/-- One attempt of `_execute_step` from its race on: the outcome of the step, or the attempts made when another one
follows. -/
def judge (workflow : Workflow V) (step : Step V) (deadline : Option ℚ) (number : ℕ) (started duration : ℚ)
    (attempts : List Attempt) (result : AttemptResult V) : Coroutine V (StepOutcome V ⊕ List Attempt) := do
  let ended (type : EventType) (detail errorType : Option String) : Coroutine V Unit :=
    emit { type, step := step.id, attempt := number, duration, detail, errorType }
  match result.stop with
  | some .cancelled =>
    ended .stepCancelled none none
    let reason ← ask .reason
    abort {
      kind := .cancelled, step := step.id, attempts
      message := s!"workflow {reprStr workflow.name} was cancelled during step {reprStr step.id} " ++
        s!"({cancellationReason reason})" }
  | some .timedOut =>
    ended .stepTimedOut (some "the workflow deadline was reached") none
    abort {
      kind := .timedOut, step := step.id, attempts := attempts ++ [⟨number, .timedOut, duration, none⟩]
      message := s!"workflow {reprStr workflow.name} exceeded its deadline during step {reprStr step.id}" }
  | some .stepTimeout =>
    let seconds ← lift (x.formatSeconds step.timeout)
    let error := stepTimeoutError s!"step {reprStr step.id} exceeded its timeout of {seconds}s"
    let attempts := attempts ++ [⟨number, .timedOut, duration, none⟩]
    ended .stepTimedOut none (some "StepTimeoutError")
    x.afterFailure workflow step deadline number attempts error
    return .inr attempts
  | none =>
    match result.error with
    | none =>
      ended .stepSucceeded none none
      let now ← ask .monotonic
      return .inl {
        step := step.id, status := .succeeded, attempts := attempts ++ [⟨number, .succeeded, duration, none⟩]
        output := result.output, duration := now - started }
    | some error =>
      if error.isInstance "WorkflowCancelledError" then
        ended .stepCancelled none (some error.cls.name)
        abort {
          kind := .cancelled, step := step.id, attempts, cause := error
          message := s!"workflow {reprStr workflow.name} was cancelled during step {reprStr step.id}: " ++
            error.message }
      else if error.isInstance "WorkflowTimeoutError" then
        let attempts := attempts ++ [⟨number, .timedOut, duration, some error.cls.name⟩]
        ended .stepTimedOut none (some error.cls.name)
        abort {
          kind := .timedOut, step := step.id, attempts, cause := error
          message := s!"workflow {reprStr workflow.name} exceeded its deadline during step {reprStr step.id}: " ++
            error.message }
      else
        let attempts := attempts ++ [⟨number, .failed, duration, some error.cls.name⟩]
        ended .stepFailed none (some error.cls.name)
        x.afterFailure workflow step deadline number attempts error
        return .inr attempts

/-- The retry loop of `_execute_step`, with the attempts that are left. -/
def attemptFrom (workflow : Workflow V) (step : Step V) (value : V) (deadline : Option ℚ) (started : ℚ) :
    ℕ → ℕ → List Attempt → Coroutine V (StepOutcome V)
  | 0, _, _ => .raise (.other (assertionError "unreachable: the retry loop always returns or raises"))
  | left + 1, number, attempts => do
    emit { type := .stepStarted, step := step.id, attempt := number }
    let attemptStarted ← ask .monotonic
    -- the clock is read for the budget after the call of the step function and before the race
    let budget ← attemptBudget step deadline
    let result ← x.race ⟨step.id, number, value, deadline, budget⟩
    let now ← ask .monotonic
    match ← x.judge workflow step deadline number started (now - attemptStarted) attempts result with
    | .inl outcome => return outcome
    | .inr attempts => attemptFrom workflow step value deadline started left (number + 1) attempts

/-- `_execute_step`. -/
def executeStep (workflow : Workflow V) (step : Step V) (value : V) (deadline : Option ℚ) :
    Coroutine V (StepOutcome V) := do
  let started ← ask .monotonic
  x.attemptFrom workflow step value deadline started (step.retry.elim 1 Retry.maxAttempts) 1 []

end WorkflowExecutor

/-! ## The loop over the ready steps -/

/-- `_select_edge`. -/
def selectEdge (output : V) : List (Edge V) → Except Exc (Option (Edge V))
  | [] => .ok none
  | edge :: edges =>
    match edge.when with
    | none => .ok (some edge)
    | some predicate => do
      if ← predicate output then return some edge
      else selectEdge output edges

/-- The local variables of `run`. -/
structure RunState (V : Type) where
  outcomes : Dict (StepOutcome V) := {}
  outputs : Dict V := {}
  produced : Dict V := {}
  taken : List (String × String) := []
  waiters : Dict ℤ := {}
  ready : List (Step V) := []

/-- `{step.id: len(workflow.incoming(step.id)) for step in workflow.steps}`. -/
def initialWaiters (workflow : Workflow V) : Dict ℤ :=
  workflow.steps.foldl (fun waiters step => waiters.set step.id (workflow.incoming step.id).length) {}

/-- The variables before the loop. -/
def RunState.initial (workflow : Workflow V) : Except Exc (RunState V) := do
  let waiters := initialWaiters workflow
  let ready ← workflow.steps.filterM fun step => do return (← waiters.getItem step.id) = 0
  return { waiters, ready }

/-- The loop over the edges that leave a step whose turn is over. -/
def relaxEdges (workflow : Workflow V) : List (Edge V) → RunState V → Except Exc (RunState V)
  | [], st => .ok st
  | edge :: edges, st => do
    let left := (← st.waiters.getItem edge.target) - 1
    let st := { st with waiters := st.waiters.set edge.target left }
    if left = 0 then
      let step ← workflow.stepById edge.target
      relaxEdges workflow edges { st with ready := st.ready ++ [step] }
    else relaxEdges workflow edges st

/-- The message for a step that more than one branch reached. -/
def conflictMessage (step sources : String) : String :=
  s!"step {reprStr step} was reached by more than one branch ({sources}); " ++
    "branches that merge into one step must be mutually exclusive"

namespace WorkflowExecutor

variable (x : WorkflowExecutor V)

/-- The turn of a step that runs: it is executed, and selects at most one of the edges that leave it. -/
def runTurn (workflow : Workflow V) (value : V) (deadline : Option ℚ) (step : Step V) (st : RunState V) :
    Coroutine V (RunState V) := do
  let outcome ← x.executeStep workflow step value deadline
  let st := { st with
    outcomes := st.outcomes.set step.id outcome
    produced := st.produced.set step.id outcome.output }
  match workflow.outgoing step.id with
  | [] => return { st with outputs := st.outputs.set step.id outcome.output }
  | edge :: edges =>
    match ← lift (selectEdge outcome.output (edge :: edges)) with
    | none => return st
    | some selected => return { st with taken := (selected.source, selected.target) :: st.taken }

/-- The turn of a ready step, up to the edges that leave it. -/
def decideTurn (workflow : Workflow V) (input : V) (deadline : Option ℚ) (step : Step V) (st : RunState V) :
    Coroutine V (RunState V) :=
  let incoming := workflow.incoming step.id
  match incoming, incoming.filter fun edge => (edge.source, edge.target) ∈ st.taken with
  | [], _ => do
    requireLive deadline workflow step.id
    x.runTurn workflow input deadline step st
  | _ :: _, [] => do
    let st := { st with
      outcomes := st.outcomes.set step.id { step := step.id, status := .skipped, output := x.null } }
    emit { type := .stepSkipped, step := step.id, detail := some "no branch reached this step" }
    return st
  | _ :: _, [edge] => do
    requireLive deadline workflow step.id
    let value ← lift (st.produced.getItem edge.source)
    x.runTurn workflow value deadline step st
  | _ :: _, reached =>
    let sources := ", ".intercalate ((reached.map Edge.source).insertionSort (· ≤ ·))
    abort {
      kind := .failed, step := step.id
      message := conflictMessage step.id sources }

/-- One turn of the loop. -/
def turn (workflow : Workflow V) (input : V) (deadline : Option ℚ) (step : Step V) (st : RunState V) :
    Coroutine V (RunState V) := do
  let st ← x.decideTurn workflow input deadline step st
  lift (relaxEdges workflow (workflow.outgoing step.id) st)

/-- `while ready: ..`, with the rounds that are left.  It ends with the variables as they are when the `try` block is
left, and with the `_Abort` that left it. -/
def loop (workflow : Workflow V) (input : V) (deadline : Option ℚ) :
    ℕ → RunState V → Coroutine V (RunState V × Option Abort)
  | 0, st => return (st, none)
  | rounds + 1, st =>
    match st.ready with
    | [] => return (st, none)
    | step :: ready => do
      let st := { st with ready }
      match ← (x.turn workflow input deadline step st).attempt with
      | .ok st => loop workflow input deadline rounds st
      | .error (.abort a) => return (st, some a)
      | .error e => .raise e

/-- `_require_positive`. -/
def requirePositive (value : Option ℚ) (label : String) : Except Exc Unit :=
  match value with
  | none => .ok ()
  | some value =>
    if value ≤ 0 then
      .error (workflowValidationError s!"{label} must be greater than zero, got {x.reprFloat value}")
    else .ok ()

/-- `_require_input`. -/
def requireInput (workflow : Workflow V) (value : V) : Except (Thrown V) Unit :=
  match workflow.inputType with
  | none => .ok ()
  | some declared =>
    if declared.isInstance value then .ok ()
    else .error (.execution {
      error := workflowExecutionError (s!"workflow {reprStr workflow.name} expects input of type {declared.name}, " ++
        s!"got {x.typeName value}")
      workflow := workflow.name })

/-- `run`. -/
def run (workflow : Workflow V) (input : V) (timeout : Option ℚ) : Coroutine V (WorkflowResult V) := do
  lift workflow.validate
  lift (x.requirePositive timeout "timeout")
  Proc.ofExcept (x.requireInput workflow input)
  let started ← ask .monotonic
  let deadline := timeout.map fun timeout => started + timeout
  let st ← lift (RunState.initial workflow)
  emit { type := .workflowStarted, detail := s!"steps={workflow.steps.length}" }
  -- a step is taken off the queue once
  match ← x.loop workflow input deadline workflow.steps.length st with
  | (st, some a) =>
    emit { type := a.kind.event, step := a.step, detail := a.message, errorType := a.errorName }
    .raise (.execution {
      error := a.kind.error a.message, workflow := workflow.name, step := a.step, attempts := a.attempts
      outcomes := st.outcomes, cause := a.cause })
  | (st, none) =>
    let now ← ask .monotonic
    let duration := now - started
    emit { type := .workflowSucceeded, duration, detail := s!"outputs={st.outputs.items.length}" }
    return {
      workflow := workflow.name, version := workflow.version, outputs := st.outputs, steps := st.outcomes, duration }

end WorkflowExecutor

/-- An executor of numbers. -/
def numbers : WorkflowExecutor ℕ where
  null := 0
  typeName _ := "int"
  formatG _ := "0"
  reprFloat _ := "0.0"

end Xyberos.Execution
