import Xyberos.Durable.Recovery

/-!
# Xyberos.Durable.Worker — `DurableWorker`

`run_once` claims one execution and advances it by one step.  While the step runs, `_watch` renews the lease in a
task of its own; it is an infinite loop, so it is given by the places where it waits (`Watch`) instead of as a tree.
-/

set_option autoImplicit false

namespace Xyberos.Durable

variable {V : Type}

/-- What a claim accomplished. -/
inductive WorkAction
  | cancelled | failed | timedOut | parked | completed | retryScheduled | ranStep
deriving DecidableEq, Repr

/-- `WorkOutcome`. -/
structure WorkOutcome where
  executionId : String
  action : WorkAction
  stepId : Option String := none
  attempt : Option ℕ := none
  detail : String := ""
deriving DecidableEq, Repr

/-- `DurableWorker`; `settingsLeaseTtl` is the lifetime its settings name, if any. -/
structure DurableWorker (V : Type) where
  store : JournalStore V
  definitions : DefinitionLookup V
  activities : String → ActivityPolicy
  owner : String
  settingsLeaseTtl : Option Duration := none

namespace DurableWorker

variable (w : DurableWorker V)

/-- `lease_ttl`. -/
def leaseTtl : Duration := w.settingsLeaseTtl.getD w.store.leaseTtl

/-! ## `_run_step` and what surrounds it -/

/-- `_deadline_passed`; without a deadline the clock is not read. -/
def deadlinePassed (claim : Claim V) : Coroutine V Bool :=
  match claim.deadlineAt with
  | none => return false
  | some deadline => do
    let now : Instant ← await .now
    return decide (deadline ≤ now)

/-- `_attempt_budget`: the seconds this attempt may take. -/
def attemptBudget (claim : Claim V) (stepTimeout : Option ℚ) : Coroutine V (Option ℚ) :=
  match claim.deadlineAt with
  | none => return stepTimeout
  | some deadline => do
    let now : Instant ← await .now
    let remaining := totalSeconds (deadline - now)
    return some (stepTimeout.elim remaining fun timeout => min timeout remaining)

/-- The draw of `Backoff.delay_for`; without jitter the random source is not read. -/
def drawFor (backoff : Backoff) : Coroutine V ℚ :=
  if backoff.jitter = 0 then return 0 else await .random

/-- `_retry_at`: when the next attempt may run, if it may. -/
def retryAt (step : Step V) (attempt : ℕ) (error : Exc) : Coroutine V (Option Instant) :=
  match step.retry with
  | none => return none
  | some policy =>
    if policy.maxAttempts ≤ attempt ∨ policy.allows error = false then return none
    else do
      let draw ← drawFor policy.backoff
      let delay ← Proc.ofExcept (policy.backoff.delayFor attempt draw)
      let now : Instant ← await .now
      return some (now + timedelta delay)

/-- `_record_failure`. -/
def recordFailure (claim : Claim V) (step : Step V) (attempt : ℕ) (error : Exc) (retryAt : Option Instant)
    (detail : String) : Coroutine V WorkOutcome := do
  let state : StepState ← call (.failStep claim step.id error.cls.name error.message retryAt (some detail))
  let view : ExecutionView V ← call (.inspect claim.executionId)
  return (
    if view.row.status = .timedOut then ⟨claim.executionId, .timedOut, step.id, attempt, ""⟩
    else if state = .pending then ⟨claim.executionId, .retryScheduled, step.id, attempt, detail⟩
    else ⟨claim.executionId, .failed, step.id, attempt, detail⟩)

/-- `_after_step`. -/
def afterStep (claim : Claim V) (workflow : Workflow V) (stepId : String) (attempt : ℕ) :
    Coroutine V WorkOutcome := do
  let states ← call (.stepStates claim.executionId)
  let outputs ← call (.completedOutputs claim.executionId)
  match ← Proc.ofExcept (planNext workflow w.store.values.null states outputs) with
  | .complete outputs reason =>
    let _ ← call (.completeExecution claim (w.store.values.ofDict outputs))
    return ⟨claim.executionId, .completed, stepId, attempt, reason⟩
  | .conflict _ _ reason =>
    let _ ← call (.failExecution claim .definitionConflict reason)
    return ⟨claim.executionId, .failed, stepId, attempt, "conflict"⟩
  | _ =>
    let _ ← call (.yieldExecution claim s!"step {reprStr stepId} recorded; ready for the next step")
    return ⟨claim.executionId, .ranStep, stepId, attempt, "yielded"⟩

/-- What `_run_step` does when the attempt raised. -/
def attemptRaised (claim : Claim V) (step : Step V) (attempt : ℕ) (budget : Option ℚ) (error : Exc) :
    Coroutine V WorkOutcome :=
  if error.isInstance "TimeoutError" then
    let seconds := budget.elim "None" w.store.values.reprFloat
    recordFailure claim step attempt (stepTimeoutError s!"step {reprStr step.id} exceeded its {seconds}s budget")
      none "step timeout"
  else if error.isInstance "WorkflowCancelledError" then do
    let _ ← call (.acknowledgeCancellation claim (some error.message))
    return ⟨claim.executionId, .cancelled, step.id, attempt, error.message⟩
  else if error.isInstance "WorkflowTimeoutError" then do
    let _ ← call (.timeOutExecution claim error.message)
    return ⟨claim.executionId, .timedOut, step.id, attempt, error.message⟩
  else if error.isInstance "Exception" then do
    let retryAt ← retryAt step attempt error
    recordFailure claim step attempt error retryAt error.cls.name
  else .raise error

/-- The `try` of `_run_step`: the output of the attempt, or the outcome its failure was recorded as. -/
def attemptStep (claim : Claim V) (workflow : Workflow V) (step : Step V) (attempt : ℕ) (budget : Option ℚ)
    (value : V) : Coroutine V (V ⊕ WorkOutcome) := do
  match ← (await (.runStep ⟨workflow.name, workflow.version, step, attempt, value, budget⟩)).attempt with
  | .ok output => return .inl output
  | .error error =>
    let outcome ← w.attemptRaised claim step attempt budget error
    return .inr outcome

/-- `_run_step` after the start of the step. -/
def startedStep (claim : Claim V) (workflow : Workflow V) (step : Step V) (attempt : ℕ) (value : V) :
    Coroutine V WorkOutcome := do
  let budget ← attemptBudget claim step.timeout
  if ∃ b ∈ budget, b ≤ 0 then
    let _ ← call (.timeOutExecution claim s!"step {reprStr step.id} started with no time left")
    return ⟨claim.executionId, .timedOut, step.id, attempt, ""⟩
  else
    let _ ← await (.startHeartbeat claim)
    match ← (w.attemptStep claim workflow step attempt budget value).finally' (await .stopHeartbeat) with
    | .inr outcome => return outcome
    | .inl output =>
      let _ ← call (.completeStep claim step.id output)
      w.afterStep claim workflow step.id attempt

/-- `_run_step`. -/
def runStep (claim : Claim V) (workflow : Workflow V) (stepId : String) (value : V) : Coroutine V WorkOutcome := do
  let step ← Proc.ofExcept (workflow.stepById stepId)
  let attempt : ℕ ← call (.startStep claim step.id (some s!"{claim.executionId}:{step.id}"))
  w.startedStep claim workflow step attempt value

/-! ## `run_once` -/

/-- The loop of `run_once`: skips are applied until something has to run. -/
def advance (claim : Claim V) (workflow : Workflow V) (outputs : String → Option V) :
    ℕ → (String → Option StepState) → Coroutine V WorkOutcome
  | 0, _ => .raise (durableStateError s!"execution {claim.executionId} made no progress")
  | n + 1, states => do
    match ← Proc.ofExcept (planNext workflow w.store.values.null states outputs) with
    | .complete outputs reason =>
      let _ ← call (.completeExecution claim (w.store.values.ofDict outputs))
      return ⟨claim.executionId, .completed, none, none, reason⟩
    | .conflict step _ reason =>
      let _ ← call (.failExecution claim .definitionConflict reason)
      return ⟨claim.executionId, .failed, step.id, none, "definition conflict"⟩
    | .needsDecision step reason =>
      let _ ← call (.markWaiting claim reason)
      return ⟨claim.executionId, .parked, step.id, none, "needs_decision"⟩
    | .skipStep step reason =>
      let _ ← call (.skipStep claim step.id reason)
      advance claim workflow outputs n fun s => if s = step.id then some .skipped else states s
    | .runStep step value sources =>
      w.runStep claim workflow step.id (if sources = [] then claim.input else value)

/-- `run_once` from the reading of the step states on. -/
def resumeWork (claim : Claim V) (workflow : Workflow V) : Coroutine V WorkOutcome := do
  let id := claim.executionId
  let states : String → Option StepState ← call (.stepStates id)
  let outputs : String → Option V ← call (.completedOutputs id)
  let interrupted : List String ← call (.runningSteps id)
  if interrupted = [] then w.advance claim workflow outputs (workflow.steps.length + 1) states
  else
    let plan ← Proc.ofExcept (planNext workflow w.store.values.null states outputs)
    let outcomes ← resolveInterrupted w.store claim w.activities plan interrupted
    if .outcomeUnknown ∈ outcomes then return ⟨id, .parked, interrupted.head?, none, "outcome_unknown"⟩
    else
      let states : String → Option StepState ← call (.stepStates id)
      w.advance claim workflow outputs (workflow.steps.length + 1) states

/-- `run_once` after the claim. -/
def work (claim : Claim V) : Coroutine V WorkOutcome :=
  if claim.cancellationRequested then do
    let _ ← call (.acknowledgeCancellation claim
      (some "cancellation was requested before this worker started the step"))
    return ⟨claim.executionId, .cancelled, none, none, "requested before the step"⟩
  else match requireDefinition w.store w.definitions claim with
  | .error error => do
    let _ ← call (.failExecution claim .incompatibleDefinition error.message)
    return ⟨claim.executionId, .failed, none, none, "incompatible definition"⟩
  | .ok workflow => do
    if ← deadlinePassed claim then
      let _ ← call (.timeOutExecution claim "the execution deadline passed before the step started")
      return ⟨claim.executionId, .timedOut, none, none, "deadline passed"⟩
    else w.resumeWork claim workflow

/-- `run_once`. -/
def runOnce : Coroutine V (Option WorkOutcome) := do
  let claim? : Option (Claim V) ← call (.claimNext w.owner (some w.leaseTtl))
  match claim? with
  | none => return none
  | some claim =>
    let outcome ← w.work claim
    return some outcome

/-- `DurableWorker.recover`. -/
def recover : Coroutine V RecoveryReport :=
  Durable.recover w.store w.definitions w.activities s!"{w.owner}:recovery" (some w.leaseTtl)

end DurableWorker

/-! ## The heartbeat -/

/-- Where the task of `_watch` stands: asleep, about to look for a request, about to renew the lease, or ended. -/
inductive Watch
  | sleeping | checking | renewing | returned
  | raised (e : Exc)
deriving DecidableEq

/-- The task of `_watch` for one claim. -/
structure Heartbeat (V : Type) where
  claim : Claim V
  watch : Watch := .sleeping

/-- Where `_watch` goes with the answer of the store, and the reason it cancels the token with, if it does. -/
def Watch.answered {α : Type} (next : α → Watch × Option String) : Except Exc α → Watch × Option String
  | .ok a => next a
  | .error e =>
    if e.isInstance "DurableLeaseError" then (.returned, some "the lease was lost while the step was running")
    else (.raised e, none)

/-- `CancellationToken.cancel`: the first reason is kept. -/
def cancelToken (token : Option String) (reason : Option String) : Option String := token.or reason

namespace Heartbeat

/-- The operation `_watch` is about to await. -/
def op? (ttl : Duration) (h : Heartbeat V) : Option (Op V) :=
  match h.watch with
  | .checking => some (.cancellationRequested h.claim.executionId)
  | .renewing => some (.renewLease h.claim (some ttl))
  | _ => none

/-- One turn of `_watch`: the journal, the task and the token afterwards. -/
def turn (store : JournalStore V) (ttl : Duration) (now : Instant) (j : Journal) (h : Heartbeat V)
    (token : Option String) : Journal × Heartbeat V × Option String :=
  match h.watch with
  | .sleeping => (j, { h with watch := .checking }, token)
  | .checking =>
    let r := ((Op.cancellationRequested h.claim.executionId).txn store now).commit j
    let next := Watch.answered (fun requested : Bool =>
      if requested then (.returned, some "cancellation was requested while the step was running")
      else (.renewing, none)) r.1
    (r.2, { h with watch := next.1 }, cancelToken token next.2)
  | .renewing =>
    let r := ((Op.renewLease h.claim (some ttl)).txn store now).commit j
    let next := Watch.answered (fun _ : Claim V => (.sleeping, none)) r.1
    (r.2, { h with watch := next.1 }, cancelToken token next.2)
  | .returned => (j, h, token)
  | .raised _ => (j, h, token)

/-- What cancelling and awaiting the task raises. -/
def joined (h : Heartbeat V) : Except Exc Unit :=
  match h.watch with
  | .raised e => .error e
  | _ => .ok ()

end Heartbeat

end Xyberos.Durable
