import Xyberos.Durable.Journal
import Xyberos.Execution.Validation

/-!
# Xyberos.Durable.Store — the operations of `JournalStore`

Every operation is one transaction over the journal and reads its own `now`.  A guarded write is an `UPDATE`
whose `WHERE` clause restates the lease; one that changes no row is explained, which always raises.  `submit` is
the second of the two transactions of the source's `submit`; the first is `registerDefinition`.
-/

set_option autoImplicit false

namespace Xyberos.Durable

/-- A transaction of the journal. -/
abbrev Tx (α : Type) := Txn Journal Exc α

/-! ## Fingerprints and payloads -/

/-- What `definition_fingerprint` hashes. -/
structure FingerprintPayload where
  name : String
  version : String
  /-- id, timeout and sorted sources of each step -/
  steps : List (String × Option ℚ × List String)
  /-- source, target and `conditioned` of each edge -/
  edges : List (String × String × Bool)
deriving DecidableEq

/-- The parameters of a store: the JSON of its values, the settings of its journal, and the SHA-256 hex digest of
the JSON text of a fingerprint payload. -/
structure JournalStore (V : Type) where
  values : Values V
  leaseTtl : Duration
  maxPayloadBytes : ℕ
  digest : FingerprintPayload → String

variable {V : Type}

/-- The payload of `definition_fingerprint`. -/
def fingerprintPayload (w : Workflow V) : FingerprintPayload where
  name := w.name
  version := w.version
  steps := w.steps.map fun s => (s.id, s.timeout, ((w.incoming s.id).map Edge.source).insertionSort (· ≤ ·))
  edges := w.edges.map fun e => (e.source, e.target, e.when.isSome)

/-- `definition_fingerprint`. -/
def JournalStore.definitionFingerprint (store : JournalStore V) (w : Workflow V) : String :=
  store.digest (fingerprintPayload w)

/-- `_dump`. -/
def JournalStore.dump (store : JournalStore V) (value : V) (what : String) : Except Exc String :=
  match store.values.dumps value with
  | .rejected typeName => .error (durablePayloadError
      (s!"{what} contains {typeName}, which is not JSON-serializable; " ++
        "durable execution persists inputs, outputs, and results so a run can be resumed"))
  | .raised e => .error e
  | .text text =>
    if store.maxPayloadBytes < text.utf8ByteSize then .error (durablePayloadError
      (s!"{what} is {text.utf8ByteSize} bytes, over the {store.maxPayloadBytes}-byte journal payload limit"))
    else .ok text

/-- `_load`. -/
def JournalStore.load (store : JournalStore V) : Option String → V
  | none => store.values.null
  | some text => store.values.loads text

/-! ## Rows, events and refusals -/

/-- `_append_event`. -/
def appendEvent (e : EventRow) : Tx Unit := do
  let _ ← Txn.execute fun j => .ok (j.appendEvent e, 1)
  return ()

/-- `_explain_refused_write`: raise the reason a guarded write matched no rows. -/
def explainRefusedWrite {α : Type} (claim : Claim V) (now : Instant) (expected : String)
    (allowCancelled : Bool := false) : Tx α := do
  let id := claim.executionId
  match ← Txn.select fun j => j.executions.get? id with
  | none => .raise (durableStateError s!"execution {id} is no longer in the journal")
  | some row =>
    if row.cancellationRequestedAt.isSome ∧ allowCancelled = false then
      .raise (durableStateError (s!"execution {id} was cancelled while in state {reprStr row.status.value}; " ++
        s!"{expected} cannot be recorded after a cancellation request"))
    else match ← Txn.select fun j => j.leases.get? id with
    | none => .raise (durableLeaseError s!"execution {id} has no lease; the claim is no longer valid")
    | some lease =>
      if lease.owner ≠ claim.owner ∨ lease.fence ≠ claim.fence then
        .raise (durableLeaseError (s!"execution {id} is owned by {reprStr lease.owner} at fence " ++
          s!"{lease.fence}; this worker holds fence {claim.fence}"))
      else
        .raise (durableLeaseError (s!"the lease for execution {id} expired at {toIso lease.expiresAt} " ++
          s!"(now {toIso now}); the work has been taken over"))

/-- `_release_lease`. -/
def releaseLease' (claim : Claim V) (now : Instant) : Tx Unit := do
  let _ ← Txn.execute fun j => .ok (j.updateLease claim.executionId
    (fun l => l.owner = claim.owner ∧ l.fence = claim.fence) fun l => { l with expiresAt := now })
  return ()

/-- `_execution_row`. -/
def executionRow (executionId : String) : Tx ExecutionRow := do
  match ← Txn.select fun j => j.executions.get? executionId with
  | some row => return row
  | none => .raise (durableStateError s!"execution {executionId} is not in the journal")

/-- `_step_row`. -/
def stepRow (executionId stepId : String) : Tx StepRow := do
  match ← Txn.select fun j => j.steps.get? (executionId, stepId) with
  | some row => return row
  | none => .raise (durableStateError s!"step {reprStr stepId} is not part of execution {executionId}")

/-- `_set_execution_status`: `extra` is what the statement sets besides the status and `updated_at`. -/
def setExecutionStatus (claim : Claim V) (target : ExecutionStatus) (now : Instant)
    (extra : ExecutionRow → ExecutionRow) (allowCancelled : Bool := false) : Tx Unit := do
  let row ← executionRow claim.executionId
  Txn.ofExcept (requireExecutionTransition row.status target)
  let rowcount ← Txn.execute fun j => .ok (j.updateExecution claim.executionId
    (fun r => r.status = row.status ∧ (allowCancelled = true ∨ r.cancellationRequestedAt = none) ∧
      j.LeaseGuard claim now)
    fun r => extra { r with status := target, updatedAt := now })
  if rowcount ≠ 1 then explainRefusedWrite claim now target.value allowCancelled

/-- `_set_step_state`; `allowedSources` defaults to the state that was read. -/
def setStepState (claim : Claim V) (stepId : String) (target : StepState) (now : Instant)
    (extra : StepRow → StepRow) (allowedSources : Option (List StepState) := none) : Tx Unit := do
  let row ← stepRow claim.executionId stepId
  Txn.ofExcept (requireStepTransition row.state target)
  let rowcount ← Txn.execute fun j => .ok (j.updateStep claim.executionId stepId
    (fun r => r.state ∈ allowedSources.getD [row.state] ∧ j.LeaseGuard claim now)
    fun r => extra { r with state := target })
  if rowcount ≠ 1 then explainRefusedWrite claim now s!"step {reprStr stepId} transition"

namespace JournalStore

variable (store : JournalStore V)

/-! ## Definitions and submission -/

/-- `register_definition`. -/
def registerDefinition (w : Workflow V) (now : Instant) : Tx String := do
  Txn.ofExcept w.validate
  let fingerprint := store.definitionFingerprint w
  let metadata ← Txn.ofExcept (store.dump (store.values.ofDict w.metadata)
    s!"metadata of workflow {reprStr w.name}")
  match ← Txn.select fun j => j.definitions.get? (w.name, w.version) with
  | some existing =>
    if existing.fingerprint ≠ fingerprint then
      .raise (durableVersionError (s!"workflow {reprStr w.name} version {reprStr w.version} is already " ++
        "registered with a different definition; a definition cannot be changed " ++
        "in place, because persisted executions resume against the version they saw"))
    else return fingerprint
  | none =>
    let _ ← Txn.execute fun j =>
      match j.definitions.insert? (w.name, w.version) ⟨fingerprint, metadata, now⟩ with
      | some t => .ok ({ j with definitions := t }, 1)
      | none => .error integrityError
    return fingerprint

/-- `INSERT INTO execution_steps` for one step of a submitted workflow. -/
def insertStep (executionId stepId : String) : Tx Unit := do
  let _ ← Txn.execute fun j =>
    match j.steps.insert? (executionId, stepId) { state := .pending } with
    | some t => .ok ({ j with steps := t }, 1)
    | none => .error integrityError
  return ()

/-- The second transaction of `submit`, with what `submit` computes for it after `register_definition`. -/
def submit (w : Workflow V) (input : V) (timeout : Option ℚ) (executionId : String)
    (submissionKey : Option String) (now : Instant) : Tx ExecutionHandle := do
  let fingerprint := store.definitionFingerprint w
  let payload ← Txn.ofExcept (store.dump input s!"input of execution {executionId}")
  let deadline := timeout.map fun t => now + timedelta t
  if submissionKey.any isBlank then .raise (durableStateError "submission_key must not be blank")
  else match ← Txn.select fun j => j.executions.get? executionId with
  | some existing =>
    if existing.workflow = w.name ∧ existing.version = w.version ∧ existing.fingerprint = fingerprint ∧
        existing.input = payload then
      return ⟨executionId, existing.workflow, existing.version, existing.status⟩
    else .raise (durableConflictError
      s!"execution {executionId} already exists with different work; use a new execution id")
  | none =>
    let row : ExecutionRow :=
      { workflow := w.name, version := w.version, fingerprint := fingerprint, status := .pending
        input := payload, submittedAt := now, updatedAt := now, deadlineAt := deadline }
    let _ ← Txn.execute fun j =>
      match j.executions.insert? executionId row with
      | some t => .ok ({ j with executions := t }, 1)
      | none => .error integrityError
    Txn.forEach w.steps fun step => insertStep executionId step.id
    let key := match submissionKey with
      | none => ""
      | some key => s!" key={key}"
    appendEvent { executionId, kind := .submitted, «at» := now, detail := some (s!"steps={w.steps.length}" ++ key) }
    return ⟨executionId, w.name, w.version, .pending⟩

/-! ## Claims -/

/-- What the conditional `UPDATE` of `claim_next` restates of the candidate: everything the `SELECT` checked except
the schedule and the deadline. -/
def Claimable (j : Journal) (executionId : String) (now : Instant) (r : ExecutionRow) : Prop :=
  r.status ∈ [ExecutionStatus.pending, .retrying, .running] ∧
  (r.cancellationRequestedAt = none ∨ r.status = .running) ∧
  (r.status ∈ [ExecutionStatus.pending, .retrying] ∨ j.Unleased executionId now)

instance (j : Journal) (executionId : String) (now : Instant) (r : ExecutionRow) :
    Decidable (Claimable j executionId now r) :=
  inferInstanceAs (Decidable (_ ∧ _ ∧ _))

/-- `claim_next` from its `UPDATE` on, for the candidate its `SELECT` chose. -/
def claimCandidate (owner executionId : String) (expires now : Instant) : Tx (Option (Claim V)) := do
  let claimed ← Txn.execute fun j => .ok (j.updateExecution executionId (Claimable j executionId now)
    fun r => { r with status := .running, updatedAt := now })
  if claimed ≠ 1 then return none
  else
    let _ ← Txn.execute fun j => .ok (j.upsertLease executionId ⟨owner, 1, now, now, expires⟩
      fun l => ⟨owner, l.fence + 1, now, now, expires⟩, 1)
    let lease? ← Txn.select fun j => j.leases.get? executionId
    let _ ← Txn.execute fun j => .ok (j.deleteRetry executionId, 1)
    let row ← executionRow executionId
    match lease? with
    | none => .raise (durableLeaseError s!"execution {executionId} lost its lease during the claim")
    | some lease =>
      appendEvent { executionId, kind := .claimed, «at» := now
                    detail := s!"owner={owner} fence={lease.fence}" }
      return some
        { executionId, owner, fence := lease.fence, workflow := row.workflow, version := row.version
          fingerprint := row.fingerprint, input := store.load row.input, executionStatus := row.status
          expiresAt := lease.expiresAt, deadlineAt := row.deadlineAt
          cancellationRequested := row.cancellationRequestedAt.isSome }

/-- `claim_next`. -/
def claimNext (owner : String) (ttl : Option Duration) (now : Instant) : Tx (Option (Claim V)) := do
  if isBlank owner then .raise (durableStateError "a worker claims work under a non-empty owner name")
  else match ← Txn.select fun j => j.candidate now with
  | none => return none
  | some executionId => store.claimCandidate owner executionId (now + ttl.getD store.leaseTtl) now

/-- `renew_lease`. -/
def renewLease (claim : Claim V) (ttl : Option Duration) (now : Instant) : Tx (Claim V) := do
  let expires := now + ttl.getD store.leaseTtl
  let rowcount ← Txn.execute fun j => .ok (j.updateLease claim.executionId
    (fun l => l.owner = claim.owner ∧ l.fence = claim.fence ∧ now < l.expiresAt)
    fun l => { l with expiresAt := expires, heartbeatAt := now })
  if rowcount ≠ 1 then explainRefusedWrite claim now "lease renewal"
  else
    appendEvent { executionId := claim.executionId, kind := .leaseRenewed, «at» := now }
    return { claim with expiresAt := expires }

/-- `release_lease`. -/
def releaseLease (claim : Claim V) (now : Instant) : Tx Unit := do
  let rowcount ← Txn.execute fun j => .ok (j.updateLease claim.executionId
    (fun l => l.owner = claim.owner ∧ l.fence = claim.fence ∧ now < l.expiresAt)
    fun l => { l with expiresAt := now })
  if rowcount ≠ 1 then explainRefusedWrite claim now "lease release"

/-- What `expire_deadlines` does to one overdue execution. -/
def expireDeadline (now : Instant) (executionId : String) : Tx Unit := do
  let message := "the execution deadline passed before it completed"
  let _ ← Txn.execute fun j => .ok (j.updateExecution executionId (fun r => ¬ r.status.IsTerminal)
    fun r => { r with status := .timedOut, failureKind := some .timedOut, failureMessage := message
                      currentStep := none, updatedAt := now })
  let _ ← Txn.execute fun j => .ok (j.deleteRetry executionId, 1)
  appendEvent { executionId, kind := .timedOut, «at» := now, detail := message }

/-- `expire_deadlines`. -/
def expireDeadlines (now : Instant) : Tx (List String) := do
  let ids ← Txn.select fun j => (j.executions.select
    (fun _ r => ¬ r.status.IsTerminal ∧ ∃ d ∈ r.deadlineAt, d ≤ now)).map Prod.fst
  Txn.forEach ids (expireDeadline now)
  return ids

/-! ## Step transitions -/

/-- `start_step`. -/
def startStep (claim : Claim V) (stepId : String) (idempotencyKey : Option String) (now : Instant) : Tx ℕ := do
  let row ← stepRow claim.executionId stepId
  let attempt := row.attempts + 1
  setStepState claim stepId .running now
    (fun r => { r with attempts := attempt, startedAt := now, finishedAt := none, idempotencyKey })
    (some [.pending, .running])
  let updated ← Txn.execute fun j => .ok (j.updateExecution claim.executionId (fun _ => j.LeaseGuard claim now)
    fun r => { r with currentStep := stepId, attempts := r.attempts + 1, updatedAt := now })
  if updated ≠ 1 then explainRefusedWrite claim now s!"start of step {reprStr stepId}"
  else
    appendEvent { executionId := claim.executionId, kind := .stepStarted, «at» := now, stepId, attempt }
    return attempt

/-- `complete_step`. -/
def completeStep (claim : Claim V) (stepId : String) (output : V) (now : Instant) : Tx Unit := do
  let payload ← Txn.ofExcept (store.dump output s!"output of step {reprStr stepId}")
  let row ← stepRow claim.executionId stepId
  setStepState claim stepId .succeeded now fun r =>
    { r with output := payload, finishedAt := now, errorType := none, errorMessage := none, stateDetail := none }
  let _ ← Txn.execute fun j => .ok (j.updateExecution claim.executionId (fun _ => j.LeaseGuard claim now)
    fun r => { r with currentStep := none, updatedAt := now })
  appendEvent { executionId := claim.executionId, kind := .stepSucceeded, «at» := now, stepId
                attempt := some (row.attempts + 1) }

/-- `yield_execution`. -/
def yieldExecution (claim : Claim V) (reason : String) (now : Instant) : Tx Unit := do
  setExecutionStatus claim .pending now fun r => { r with currentStep := none }
  releaseLease' claim now
  appendEvent { executionId := claim.executionId, kind := .yielded, «at» := now, detail := reason }

/-- `skip_step`. -/
def skipStep (claim : Claim V) (stepId reason : String) (now : Instant) : Tx Unit := do
  setStepState claim stepId .skipped now fun r => { r with finishedAt := now, stateDetail := reason }
  appendEvent { executionId := claim.executionId, kind := .stepSkipped, «at» := now, stepId, detail := reason }

/-- `time_out_execution`. -/
def timeOutExecution (claim : Claim V) (message : String) (now : Instant) : Tx StepState := do
  setExecutionStatus claim .timedOut now fun r =>
    { r with failureKind := some .timedOut, failureMessage := message, currentStep := none }
  appendEvent { executionId := claim.executionId, kind := .timedOut, «at» := now, detail := message }
  return .failed

/-- `passed` of `fail_step`: the deadline of the claim is reached, now or by the time of the retry. -/
def DeadlineReached (claim : Claim V) (retryAt : Option Instant) (now : Instant) : Prop :=
  ∃ d ∈ claim.deadlineAt, d ≤ now ∨ ∃ r ∈ retryAt, d ≤ r

instance (claim : Claim V) (retryAt : Option Instant) (now : Instant) :
    Decidable (DeadlineReached claim retryAt now) :=
  inferInstanceAs (Decidable (∃ d ∈ claim.deadlineAt, _ ∨ ∃ r ∈ retryAt, _))

/-- `fail_step`. -/
def failStep (claim : Claim V) (stepId errorType errorMessage : String) (retryAt : Option Instant)
    (reason : Option String) (now : Instant) : Tx StepState :=
  if DeadlineReached claim retryAt now then
    timeOutExecution claim s!"step {reprStr stepId} failed with the deadline reached" now
  else do
    let row ← stepRow claim.executionId stepId
    let attempt := row.attempts
    let failed := fun r : StepRow =>
      { r with finishedAt := now, errorType := errorType, errorMessage := errorMessage, stateDetail := reason }
    match retryAt with
    | none =>
      setStepState claim stepId .failed now failed
      setExecutionStatus claim .failed now fun r =>
        { r with failureKind := some .stepFailed, currentStep := none
                 failureMessage := s!"step {reprStr stepId} failed: {errorType}" }
      appendEvent { executionId := claim.executionId, kind := .stepFailed, «at» := now, stepId, attempt
                    detail := errorType }
      appendEvent { executionId := claim.executionId, kind := .failed, «at» := now, stepId
                    detail := s!"step_failed: {errorType}" }
      return .failed
    | some due =>
      setStepState claim stepId .pending now failed
      let retry : RetryRow := ⟨stepId, attempt + 1, due, errorType, reason⟩
      let _ ← Txn.execute fun j => .ok (j.upsertRetry claim.executionId retry, 1)
      setExecutionStatus claim .retrying now fun r => { r with currentStep := none }
      appendEvent { executionId := claim.executionId, kind := .stepFailed, «at» := now, stepId, attempt
                    detail := errorType }
      releaseLease' claim now
      appendEvent { executionId := claim.executionId, kind := .retryScheduled, «at» := now, stepId
                    attempt := some (attempt + 1), detail := s!"due={toIso due}" }
      return .pending

/-- `mark_step_outcome_unknown`. -/
def markStepOutcomeUnknown (claim : Claim V) (stepId reason : String) (now : Instant) : Tx Unit := do
  let row ← stepRow claim.executionId stepId
  setStepState claim stepId .outcomeUnknown now fun r => { r with stateDetail := reason }
  setExecutionStatus claim .waiting now fun r => { r with currentStep := none }
  appendEvent { executionId := claim.executionId, kind := .stepOutcomeUnknown, «at» := now, stepId
                attempt := row.attempts, detail := reason }
  appendEvent { executionId := claim.executionId, kind := .waiting, «at» := now, stepId
                detail := "outcome_unknown" }

/-- The detail of the event of `resolve_step`. -/
def resolvedDetail (state : StepState) (detail : Option String) : String :=
  let suffix := match detail with
    | none => ""
    | some detail => s!": {detail}"
  s!"resolved {state.value}{suffix}"

/-- `resolve_step`. -/
def resolveStep (claim : Claim V) (stepId : String) (state : StepState) (output : V) (detail : Option String)
    (now : Instant) : Tx Unit := do
  let payload ← Txn.ofExcept (if state = .succeeded then
    (store.dump output s!"output of step {reprStr stepId}").map some else .ok none)
  setStepState claim stepId state now fun r =>
    { r with output := payload, finishedAt := now, stateDetail := detail }
  setExecutionStatus claim .pending now fun r => { r with currentStep := none }
  releaseLease' claim now
  appendEvent { executionId := claim.executionId, kind := .recovered, «at» := now, stepId
                detail := resolvedDetail state detail }

/-! ## Terminal transitions -/

/-- `complete_execution`. -/
def completeExecution (claim : Claim V) (outputs : V) (now : Instant) : Tx Unit := do
  let payload ← Txn.ofExcept (store.dump outputs s!"result of execution {claim.executionId}")
  setExecutionStatus claim .completed now fun r => { r with result := payload, currentStep := none }
  appendEvent { executionId := claim.executionId, kind := .completed, «at» := now }

/-- `fail_execution`. -/
def failExecution (claim : Claim V) (kind : FailureKind) (message : String) (now : Instant) : Tx Unit := do
  setExecutionStatus claim .failed now fun r =>
    { r with failureKind := kind, failureMessage := message, currentStep := none }
  appendEvent { executionId := claim.executionId, kind := .failed, «at» := now
                detail := s!"{kind.value}: {message}" }

/-- `reason or "cancellation was requested"`. -/
def cancellationMessage : Option String → String
  | none => "cancellation was requested"
  | some "" => "cancellation was requested"
  | some reason => reason

/-- `_finish_cancelled` writes the cancellation, conditionally on the status it read. -/
def writeCancelled (executionId : String) (status : ExecutionStatus) (reason : Option String) (now : Instant) :
    Tx Unit := do
  -- the row count is not checked
  let _ ← Txn.execute fun j => .ok (j.updateExecution executionId (fun r => r.status = status)
    fun r => { r with
      status := .cancelled, failureKind := some .cancelled, failureMessage := cancellationMessage reason
      currentStep := none, updatedAt := now
      cancellationRequestedAt := some (r.cancellationRequestedAt.getD now) })
  let _ ← Txn.execute fun j => .ok (j.deleteRetry executionId, 1)
  appendEvent { executionId, kind := .cancelled, «at» := now, detail := reason }

/-- `_finish_cancelled`. -/
def finishCancelled (executionId : String) (now : Instant) (reason : Option String) : Tx Unit := do
  let row ← executionRow executionId
  if row.status.IsTerminal then return ()
  else
    Txn.ofExcept (requireExecutionTransition row.status .cancelled)
    writeCancelled executionId row.status reason now

/-- `request_cancellation` writes the request, conditionally on the status it read. -/
def writeRequest (executionId : String) (status : ExecutionStatus) (reason : Option String) (now : Instant) :
    Tx Unit := do
  -- the row count is not checked
  let _ ← Txn.execute fun j => .ok (j.updateExecution executionId (fun r => r.status = status)
    fun r => { r with cancellationRequestedAt := now, cancellationReason := reason, updatedAt := now })
  appendEvent { executionId, kind := .cancellationRequested, «at» := now, detail := reason }

/-- The end of `request_cancellation`: nobody holds a live lease, so nobody else will finish the execution. -/
def finishUnlessOwned (executionId : String) (reason : Option String) (now : Instant) : Tx Unit := do
  let lease? ← Txn.select fun j => j.leases.get? executionId
  if lease?.any fun l => now < l.expiresAt then return ()
  else finishCancelled executionId now reason

/-- The transaction of `request_cancellation`; what it returns is an `inspect` afterwards. -/
def requestCancellation (executionId : String) (reason : Option String) (now : Instant) : Tx Unit := do
  let row ← executionRow executionId
  if row.status.IsTerminal then return ()
  else
    if row.cancellationRequestedAt = none then writeRequest executionId row.status reason now
    finishUnlessOwned executionId reason now

/-- `acknowledge_cancellation`. -/
def acknowledgeCancellation (claim : Claim V) (reason : Option String) (now : Instant) : Tx Unit := do
  let id := claim.executionId
  match ← Txn.select fun j => j.executions.get? id with
  | none => .raise (durableStateError s!"execution {id} is no longer in the journal")
  | some row =>
    let _ ← (if row.cancellationRequestedAt = none then do
      -- written without the guard; the guarded write below decides whether it stays
      let _ ← Txn.execute fun j => .ok (j.updateExecution id (fun _ => True)
        fun r => { r with cancellationRequestedAt := now, cancellationReason := reason })
      appendEvent { executionId := id, kind := .cancellationRequested, «at» := now, detail := reason }
      else return ())
    setExecutionStatus claim .cancelled now
      (fun r => { r with failureKind := some .cancelled, failureMessage := cancellationMessage reason
                         currentStep := none })
      true
    let _ ← Txn.execute fun j => .ok (j.deleteRetry id, 1)
    appendEvent { executionId := id, kind := .cancelled, «at» := now, detail := reason }

/-- `mark_waiting`. -/
def markWaiting (claim : Claim V) (reason : String) (now : Instant) : Tx Unit := do
  setExecutionStatus claim .waiting now fun r => { r with currentStep := none }
  appendEvent { executionId := claim.executionId, kind := .waiting, «at» := now, detail := reason }

/-- The detail of the event of `resume_waiting`. -/
def resumedDetail : Option String → String
  | none => "resumed"
  | some "" => "resumed"
  | some reason => s!"resumed: {reason}"

/-- `resume_waiting`. -/
def resumeWaiting (executionId : String) (reason : Option String) (now : Instant) : Tx Unit := do
  let row ← executionRow executionId
  if row.status ≠ .waiting then
    .raise (durableStateError (s!"execution {executionId} is {reprStr row.status.value}, not waiting; " ++
      "only a parked execution can be resumed"))
  else
    let _ ← Txn.execute fun j => .ok (j.updateExecution executionId (fun r => r.status = .waiting)
      fun r => { r with status := .pending, updatedAt := now })
    appendEvent { executionId, kind := .recovered, «at» := now, detail := resumedDetail reason }

/-! ## Inspection -/

/-- `step_states`. -/
def stepStates (executionId : String) : Tx (String → Option StepState) :=
  Txn.select fun j stepId => (j.steps.get? (executionId, stepId)).map StepRow.state

/-- `running_steps`, in the order of the rows. -/
def runningSteps (executionId : String) : Tx (List String) :=
  Txn.select fun j => (j.steps.select fun k r => k.1 = executionId ∧ r.state = .running).map fun x => x.1.2

/-- `completed_outputs`: the output of every succeeded step. -/
def completedOutputs (executionId : String) : Tx (String → Option V) :=
  Txn.select fun j stepId => (j.steps.get? (executionId, stepId)).bind fun r =>
    if r.state = .succeeded then some (store.load r.output) else none

/-- `cancellation_requested`. -/
def cancellationRequested (executionId : String) : Tx Bool := do
  match ← Txn.select fun j => j.executions.get? executionId with
  | none => .raise (durableStateError s!"execution {executionId} is no longer in the journal")
  | some row => return row.cancellationRequestedAt.isSome

/-- `inspect`. -/
def inspect (executionId : String) : Tx (ExecutionView V) := do
  let row ← executionRow executionId
  let steps ← Txn.select fun j => j.steps.select fun k _ => k.1 = executionId
  let events ← Txn.select fun j => j.events.zipIdx.filter fun x => x.1.executionId = executionId
  let retry ← Txn.select fun j => j.retries.get? executionId
  return {
    executionId, row, input := store.load row.input, result := store.load row.result
    steps := steps.map fun x => ⟨x.1.2, x.2, store.load x.2.output⟩
    events := events.map fun x => ⟨x.2 + 1, x.1⟩
    retryDueAt := retry.map RetryRow.dueAt }

/-- `expired_leases`: the running executions whose lease has expired, by expiry. -/
def expiredLeases (now : Instant) : Tx (List String) :=
  Txn.select fun j =>
    ((j.leases.select fun id l => l.expiresAt ≤ now ∧
      ∃ r ∈ j.executions.get? id, r.status = .running).insertionSort
        fun a b => a.2.expiresAt ≤ b.2.expiresAt).map Prod.fst

end JournalStore

/-! ## Operations as data -/

/-- A call of a `JournalStore` method with its arguments. -/
inductive Op (V : Type)
  | registerDefinition (workflow : Workflow V)
  | submit (workflow : Workflow V) (input : V) (timeout : Option ℚ) (executionId : String)
      (submissionKey : Option String)
  | claimNext (owner : String) (ttl : Option Duration)
  | renewLease (claim : Claim V) (ttl : Option Duration)
  | releaseLease (claim : Claim V)
  | expireDeadlines
  | startStep (claim : Claim V) (stepId : String) (idempotencyKey : Option String)
  | completeStep (claim : Claim V) (stepId : String) (output : V)
  | yieldExecution (claim : Claim V) (reason : String)
  | skipStep (claim : Claim V) (stepId reason : String)
  | failStep (claim : Claim V) (stepId errorType errorMessage : String) (retryAt : Option Instant)
      (reason : Option String)
  | markStepOutcomeUnknown (claim : Claim V) (stepId reason : String)
  | resolveStep (claim : Claim V) (stepId : String) (state : StepState) (output : V) (detail : Option String)
  | completeExecution (claim : Claim V) (outputs : V)
  | failExecution (claim : Claim V) (kind : FailureKind) (message : String)
  | timeOutExecution (claim : Claim V) (message : String)
  | requestCancellation (executionId : String) (reason : Option String)
  | acknowledgeCancellation (claim : Claim V) (reason : Option String)
  | markWaiting (claim : Claim V) (reason : String)
  | resumeWaiting (executionId : String) (reason : Option String)
  | stepStates (executionId : String)
  | runningSteps (executionId : String)
  | completedOutputs (executionId : String)
  | cancellationRequested (executionId : String)
  | inspect (executionId : String)
  | expiredLeases

namespace Op

/-- What a call returns. -/
abbrev Reply : Op V → Type
  | registerDefinition _ => String
  | submit .. => ExecutionHandle
  | claimNext .. => Option (Claim V)
  | renewLease .. => Claim V
  | expireDeadlines => List String
  | startStep .. => ℕ
  | failStep .. => StepState
  | timeOutExecution .. => StepState
  | stepStates _ => String → Option StepState
  | runningSteps _ => List String
  | completedOutputs _ => String → Option V
  | cancellationRequested _ => Bool
  | inspect _ => ExecutionView V
  | expiredLeases => List String
  | _ => Unit

/-- The claim a guarded call is made under. -/
def claim? : Op V → Option (Claim V)
  | renewLease c _ => some c
  | releaseLease c => some c
  | startStep c _ _ => some c
  | completeStep c _ _ => some c
  | yieldExecution c _ => some c
  | skipStep c _ _ => some c
  | failStep c _ _ _ _ _ => some c
  | markStepOutcomeUnknown c _ _ => some c
  | resolveStep c _ _ _ _ => some c
  | completeExecution c _ => some c
  | failExecution c _ _ => some c
  | timeOutExecution c _ => some c
  | acknowledgeCancellation c _ => some c
  | markWaiting c _ => some c
  | _ => none

/-- The transaction of a call that reads `now` off its clock. -/
def txn (store : JournalStore V) (now : Instant) : (op : Op V) → Tx op.Reply
  | registerDefinition w => store.registerDefinition w now
  | submit w input timeout id key => store.submit w input timeout id key now
  | claimNext owner ttl => store.claimNext owner ttl now
  | renewLease c ttl => store.renewLease c ttl now
  | releaseLease c => JournalStore.releaseLease c now
  | expireDeadlines => JournalStore.expireDeadlines now
  | startStep c s key => JournalStore.startStep c s key now
  | completeStep c s output => store.completeStep c s output now
  | yieldExecution c reason => JournalStore.yieldExecution c reason now
  | skipStep c s reason => JournalStore.skipStep c s reason now
  | failStep c s type message retryAt reason => JournalStore.failStep c s type message retryAt reason now
  | markStepOutcomeUnknown c s reason => JournalStore.markStepOutcomeUnknown c s reason now
  | resolveStep c s state output detail => store.resolveStep c s state output detail now
  | completeExecution c outputs => store.completeExecution c outputs now
  | failExecution c kind message => JournalStore.failExecution c kind message now
  | timeOutExecution c message => JournalStore.timeOutExecution c message now
  | requestCancellation id reason => JournalStore.requestCancellation id reason now
  | acknowledgeCancellation c reason => JournalStore.acknowledgeCancellation c reason now
  | markWaiting c reason => JournalStore.markWaiting c reason now
  | resumeWaiting id reason => JournalStore.resumeWaiting id reason now
  | stepStates id => JournalStore.stepStates id
  | runningSteps id => JournalStore.runningSteps id
  | completedOutputs id => store.completedOutputs id
  | cancellationRequested id => JournalStore.cancellationRequested id
  | inspect id => store.inspect id
  | expiredLeases => JournalStore.expiredLeases now

end Op

end Xyberos.Durable
