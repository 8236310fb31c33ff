import Xyberos.Base.Proc
import Xyberos.Durable.Scheduler
import Xyberos.Durable.Store

/-!
# Xyberos.Durable.Recovery — coroutines over the store, definitions, and the recovery pass

A worker is a coroutine: every `await` of the store is one transaction, and between two of them others may act.
What a clock, a random source, a reconciler or a step function answers is the environment's choice.
-/

set_option autoImplicit false

namespace Xyberos.Durable

variable {V : Type}

/-! ## Requests -/

/-- One attempt of a step: what `step.run` is called with, and the timeout of `asyncio.wait_for`. -/
structure StepCall (V : Type) where
  workflow : String
  version : String
  step : Step V
  attempt : ℕ
  value : V
  budget : Option ℚ

/-- What a coroutine of a worker waits for. -/
inductive Request (V : Type)
  /-- one transaction of the store -/
  | store (op : Op V)
  /-- `self._clock.now()` -/
  | now
  /-- `random.random()` -/
  | random
  /-- a call of a reconciler -/
  | reconcile (stepId : String) (stepInput : V)
  /-- create the task of `_watch` -/
  | startHeartbeat (claim : Claim V)
  /-- `asyncio.wait_for(step.run(..), timeout=..)` -/
  | runStep (call : StepCall V)
  /-- cancel the task of `_watch` and await it -/
  | stopHeartbeat

/-- What is answered. -/
abbrev Request.Reply : Request V → Type
  | store op => op.Reply
  | now => Instant
  | random => ℚ
  | reconcile .. => Reconciled V
  | startHeartbeat _ => Unit
  | runStep _ => V
  | stopHeartbeat => Unit

abbrev Coroutine (V α : Type) := Proc (Request V) Request.Reply Exc α

/-- `await`. -/
def await (q : Request V) : Coroutine V q.Reply := Proc.request q

/-- Await one operation of the store. -/
def call (op : Op V) : Coroutine V op.Reply := await (.store op)

/-! ## Definitions -/

/-- `DefinitionLookup`: the definition the caller has for a name and a version. -/
abbrev DefinitionLookup (V : Type) := String → String → Option (Workflow V)

/-- `require_definition`. -/
def requireDefinition (store : JournalStore V) (lookup : DefinitionLookup V) (claim : Claim V) :
    Except Exc (Workflow V) :=
  match lookup claim.workflow claim.version with
  | none => .error (durableVersionError
      (s!"execution {claim.executionId} needs workflow {reprStr claim.workflow} version " ++
        s!"{reprStr claim.version}, which this worker does not have registered"))
  | some workflow =>
    if store.definitionFingerprint workflow ≠ claim.fingerprint then .error (durableVersionError
      (s!"execution {claim.executionId} was submitted against a different definition of " ++
        s!"workflow {reprStr claim.workflow} version {reprStr claim.version}; resume it with the definition " ++
        "it was submitted with, or submit the change under a new version"))
    else .ok workflow

/-! ## Interrupted attempts -/

/-- `_input_for`: the input the interrupted step received. -/
def inputFor (plan : Plan V) (stepId : String) (claim : Claim V) : V :=
  match plan with
  | .runStep step value sources => if step.id = stepId ∧ sources ≠ [] then value else claim.input
  | _ => claim.input

/-- `resolve_interrupted_attempt`. -/
def resolveInterruptedAttempt (store : JournalStore V) (claim : Claim V) (activities : String → ActivityPolicy)
    (stepId : String) (stepInput : V) : Coroutine V StepState :=
  match activities stepId with
  | .idempotent => do
    let _ ← call (.resolveStep claim stepId .pending store.values.null
      (some "idempotent: the attempt is repeated"))
    return .pending
  | .reconcile => do
    let reconciled : Reconciled V ← await (.reconcile stepId stepInput)
    match reconciled with
    | .other typeName => .raise (durableStateError (s!"the reconciler for step {reprStr stepId} returned " ++
        s!"{typeName} instead of a Reconciliation"))
    | .decided decision =>
      if decision.state = .outcomeUnknown then do
        let _ ← call (.markStepOutcomeUnknown claim stepId
          (textOr "the reconciler could not decide what happened" decision.detail))
        return .outcomeUnknown
      else do
        let _ ← call (.resolveStep claim stepId decision.state decision.output
          (some (textOr "reconciled" decision.detail)))
        return decision.state
  | .undeclared => do
    let _ ← call (.markStepOutcomeUnknown claim stepId
      ("the worker stopped during this attempt and the step declares neither idempotency nor " ++
        "a reconciler, so whether its effect happened cannot be proven"))
    return .outcomeUnknown

/-- The loop over the interrupted attempts of a claim: the states they ended up in. -/
def resolveInterrupted (store : JournalStore V) (claim : Claim V) (activities : String → ActivityPolicy)
    (plan : Plan V) : List String → Coroutine V (List StepState)
  | [] => return []
  | stepId :: rest => do
    let state ← resolveInterruptedAttempt store claim activities stepId (inputFor plan stepId claim)
    let states ← resolveInterrupted store claim activities plan rest
    return state :: states

/-! ## The recovery pass -/

/-- `RecoveryReport`. -/
structure RecoveryReport where
  expired : List String := []
  resumed : List String := []
  parked : List String := []
  stopped : List String := []
  decisions : List (String × String) := []

/-- The action of a `_Decision`. -/
inductive RecoveryAction
  | resumed | parked | cancelled
deriving DecidableEq, Repr

/-- `_recover_one`: the action, and the state of the step decided last. -/
def recoverOne (store : JournalStore V) (claim : Claim V) (policies : String → ActivityPolicy)
    (definitions : DefinitionLookup V) : Coroutine V (RecoveryAction × StepState) :=
  if claim.cancellationRequested then do
    let _ ← call (.acknowledgeCancellation claim (some "cancellation requested earlier"))
    return (.cancelled, .failed)
  else do
    let running : List String ← call (.runningSteps claim.executionId)
    if running = [] then do
      let _ ← call (.yieldExecution claim "recovered after an expired lease")
      return (.resumed, .pending)
    else do
      let workflow ← Proc.ofExcept (requireDefinition store definitions claim)
      let states ← call (.stepStates claim.executionId)
      let outputs ← call (.completedOutputs claim.executionId)
      let plan ← Proc.ofExcept (planNext workflow store.values.null states outputs)
      let resolved ← resolveInterrupted store claim policies plan running
      let state := resolved.getLastD .pending
      return (if state = .outcomeUnknown then .parked else .resumed, state)

/-- A decision entered into the report. -/
def RecoveryReport.record (report : RecoveryReport) (executionId : String) :
    RecoveryAction × StepState → RecoveryReport
  | (.parked, _) => { report with
      parked := report.parked ++ [executionId]
      decisions := report.decisions ++ [(executionId, "outcome_unknown")] }
  | (.cancelled, _) => { report with
      stopped := report.stopped ++ [executionId]
      decisions := report.decisions ++ [(executionId, "cancelled")] }
  | (.resumed, state) => { report with
      resumed := report.resumed ++ [executionId]
      decisions := report.decisions ++ [(executionId, s!"resolved {state.value}")] }

/-- The loop of `recover` over the expired executions. -/
def recoverEach (store : JournalStore V) (definitions : DefinitionLookup V) (policies : String → ActivityPolicy)
    (owner : String) (ttl : Option Duration) : List String → RecoveryReport → Coroutine V RecoveryReport
  | [], report => return report
  | executionId :: rest, report => do
    let claim? : Option (Claim V) ← call (.claimNext owner ttl)
    match claim? with
    | none => return report
    | some claim =>
      if claim.executionId ≠ executionId then return report
      else
        match ← (recoverOne store claim policies definitions).attempt with
        | .ok decision => recoverEach store definitions policies owner ttl rest (report.record executionId decision)
        | .error error =>
          if error.isInstance "DurableVersionError" then do
            let _ ← call (.failExecution claim .incompatibleDefinition error.message)
            recoverEach store definitions policies owner ttl rest { report with
              stopped := report.stopped ++ [executionId]
              decisions := report.decisions ++ [(executionId, "incompatible definition")] }
          else .raise error

/-- `recover`. -/
def recover (store : JournalStore V) (definitions : DefinitionLookup V) (activities : String → ActivityPolicy)
    (owner : String) (ttl : Option Duration) (limit : ℕ := 100) : Coroutine V RecoveryReport := do
  let found : List String ← call .expiredLeases
  let expired := found.take limit
  recoverEach store definitions activities owner ttl expired { expired }

end Xyberos.Durable
