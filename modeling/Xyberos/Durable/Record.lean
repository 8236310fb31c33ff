import Xyberos.Durable.Store
import Mathlib.Tactic.Simps.Basic

/-!
# Xyberos.Durable.Record — one execution as a state machine

`Record` is what the journal holds about one execution: its row, its steps, its lease, its scheduled retry and its
events.  `Step store now id op r r'` says what an accepted call of `op` at time `now` does to the record of `id`;
there is one constructor for each way an operation can be accepted, with everything it checked.
`Refine.lean` proves that the transactions of the store do nothing else, so an invariant of an execution is proved
by cases on `Step`.
-/

set_option autoImplicit false

namespace Xyberos.Durable

/-- What the journal holds about one execution. -/
@[ext] structure Record where
  row : Option ExecutionRow
  steps : String → Option StepRow
  lease : Option LeaseRow
  retry : Option RetryRow
  events : List EventRow

/-- The record of an execution. -/
@[simps] def Journal.record (j : Journal) (id : String) : Record where
  row := j.executions.get? id
  steps s := j.steps.get? (id, s)
  lease := j.leases.get? id
  retry := j.retries.get? id
  events := j.events.filter fun e => e.executionId = id

namespace Record

/-! ## Updates of a record -/

@[simps] def modifyRow (r : Record) (f : ExecutionRow → ExecutionRow) : Record := { r with row := r.row.map f }

@[simps] def modifyStep (r : Record) (s : String) (f : StepRow → StepRow) : Record :=
  { r with steps := fun s' => if s' = s then (r.steps s).map f else r.steps s' }

@[simps] def modifyLease (r : Record) (f : LeaseRow → LeaseRow) : Record := { r with lease := r.lease.map f }

@[simps] def setRetry (r : Record) (retry : Option RetryRow) : Record := { r with retry := retry }

@[simps] def log (r : Record) (e : EventRow) : Record := { r with events := r.events ++ [e] }

/-! ## What an operation checks -/

variable {V : Type}

/-- The lease guard: the claim names the lease, and the lease has not expired. -/
def Guard (r : Record) (c : Claim V) (now : Instant) : Prop :=
  ∃ l ∈ r.lease, l.owner = c.owner ∧ l.fence = c.fence ∧ now < l.expiresAt

/-- No lease, or an expired one. -/
def Unleased (r : Record) (now : Instant) : Prop := ∀ l ∈ r.lease, l.expiresAt ≤ now

/-- What a guarded write of the status `target` checks. -/
structure Accepts (r : Record) (c : Claim V) (now : Instant) (row : ExecutionRow) (target : ExecutionStatus) :
    Prop where
  row_eq : r.row = some row
  legal : target ∈ executionTransitions row.status
  uncancelled : row.cancellationRequestedAt = none
  guard : r.Guard c now

/-- What a guarded write of the step state `target` checks. -/
structure AcceptsStep (r : Record) (c : Claim V) (now : Instant) (s : String) (st : StepRow)
    (target : StepState) : Prop where
  step_eq : r.steps s = some st
  legal : target ∈ stepTransitions st.state
  guard : r.Guard c now

/-- What `claim_next` checks of the execution it takes. -/
def Eligible (r : Record) (now : Instant) (row : ExecutionRow) : Prop :=
  (row.cancellationRequestedAt = none ∨ row.status = .running) ∧
  (∀ d ∈ row.deadlineAt, now < d) ∧
  ((row.status ∈ [ExecutionStatus.pending, .retrying] ∧ ∀ t ∈ r.retry, t.dueAt ≤ now) ∨
    (row.status = .running ∧ r.Unleased now))

/-- The lease `claim_next` leaves: a first one at fence 1, or the next fence. -/
def claimLease (owner : String) (now expires : Instant) (old : Option LeaseRow) : LeaseRow where
  owner := owner
  fence := (old.map fun l => l.fence).getD 0 + 1
  acquiredAt := now
  heartbeatAt := now
  expiresAt := expires

/-! ## The moves -/

/-- A cancellation request, recorded by `request_cancellation` if there is none. -/
def recordRequest (id : String) (now : Instant) (reason : Option String) (r : Record) (row : ExecutionRow) :
    Record :=
  if row.cancellationRequestedAt = none then
    (r.modifyRow fun row => { row with
      cancellationRequestedAt := now, cancellationReason := reason, updatedAt := now }).log
      { executionId := id, kind := .cancellationRequested, «at» := now, detail := reason }
  else r

/-- A cancellation request, recorded by `acknowledge_cancellation` if there is none. -/
def recordOwnRequest (id : String) (now : Instant) (reason : Option String) (r : Record) (row : ExecutionRow) :
    Record :=
  if row.cancellationRequestedAt = none then
    (r.modifyRow fun row => { row with cancellationRequestedAt := now, cancellationReason := reason }).log
      { executionId := id, kind := .cancellationRequested, «at» := now, detail := reason }
  else r

/-- `_finish_cancelled` on a record. -/
def finish (id : String) (now : Instant) (reason : Option String) (r : Record) : Record :=
  ((r.modifyRow fun row => { row with
    status := .cancelled, failureKind := some .cancelled, failureMessage := JournalStore.cancellationMessage reason
    currentStep := none, updatedAt := now
    cancellationRequestedAt := some (row.cancellationRequestedAt.getD now) }).setRetry none).log
    { executionId := id, kind := .cancelled, «at» := now, detail := reason }

/-- The row of a step attempt that failed. -/
def failedAttempt (now : Instant) (errorType errorMessage : String) (reason : Option String) (state : StepState)
    (st : StepRow) : StepRow :=
  { st with state := state, finishedAt := now, errorType := errorType, errorMessage := errorMessage
            stateDetail := reason }

section Requests

variable {id : String} {now : Instant} {reason : Option String} {r : Record} {row : ExecutionRow}

@[simp] theorem recordRequest_steps : (recordRequest id now reason r row).steps = r.steps := by
  unfold recordRequest
  split_ifs <;> rfl

@[simp] theorem recordRequest_lease : (recordRequest id now reason r row).lease = r.lease := by
  unfold recordRequest
  split_ifs <;> rfl

@[simp] theorem recordRequest_retry : (recordRequest id now reason r row).retry = r.retry := by
  unfold recordRequest
  split_ifs <;> rfl

theorem recordRequest_row (h : r.row = some row) :
    (recordRequest id now reason r row).row = some (if row.cancellationRequestedAt = none then
      { row with cancellationRequestedAt := now, cancellationReason := reason, updatedAt := now } else row) := by
  unfold recordRequest
  split_ifs
  · simp [h]
  · exact h

@[simp] theorem recordOwnRequest_steps : (recordOwnRequest id now reason r row).steps = r.steps := by
  unfold recordOwnRequest
  split_ifs <;> rfl

@[simp] theorem recordOwnRequest_lease : (recordOwnRequest id now reason r row).lease = r.lease := by
  unfold recordOwnRequest
  split_ifs <;> rfl

@[simp] theorem recordOwnRequest_retry : (recordOwnRequest id now reason r row).retry = r.retry := by
  unfold recordOwnRequest
  split_ifs <;> rfl

theorem recordOwnRequest_row (h : r.row = some row) :
    (recordOwnRequest id now reason r row).row = some (if row.cancellationRequestedAt = none then
      { row with cancellationRequestedAt := now, cancellationReason := reason } else row) := by
  unfold recordOwnRequest
  split_ifs
  · simp [h]
  · exact h

end Requests

/-- One accepted operation, seen from the record of the execution `id`. -/
inductive Step (store : JournalStore V) (now : Instant) (id : String) : Op V → Record → Record → Prop
  | submit {w : Workflow V} {input : V} {timeout : Option ℚ} {key : Option String} {r : Record}
      {payload : String} {detail : Option String} (absent : r.row = none)
      (fresh : ∀ s ∈ w.stepIds, r.steps s = none)
      (hp : store.dump input s!"input of execution {id}" = .ok payload) :
      Step store now id (.submit w input timeout id key) r
        (({ r with
          row := some
            { workflow := w.name, version := w.version, fingerprint := store.definitionFingerprint w
              status := .pending, input := payload, submittedAt := now, updatedAt := now
              deadlineAt := timeout.map fun t => now + timedelta t }
          steps := fun s => if s ∈ w.stepIds then some { state := .pending } else r.steps s } : Record).log
          { executionId := id, kind := .submitted, «at» := now, detail := detail })
  | claim {owner : String} {ttl : Option Duration} {r : Record} {row : ExecutionRow} {detail : Option String}
      (hrow : r.row = some row) (elig : r.Eligible now row) :
      Step store now id (.claimNext owner ttl) r
        (({ r with
          row := some { row with status := .running, updatedAt := now }
          lease := some (claimLease owner now (now + ttl.getD store.leaseTtl) r.lease)
          retry := none } : Record).log { executionId := id, kind := .claimed, «at» := now, detail := detail })
  | renew {c : Claim V} {ttl : Option Duration} {r : Record} (hc : c.executionId = id) (guard : r.Guard c now) :
      Step store now id (.renewLease c ttl) r
        ((r.modifyLease fun l => { l with expiresAt := now + ttl.getD store.leaseTtl, heartbeatAt := now }).log
          { executionId := id, kind := .leaseRenewed, «at» := now })
  | release {c : Claim V} {r : Record} (hc : c.executionId = id) (guard : r.Guard c now) :
      Step store now id (.releaseLease c) r (r.modifyLease fun l => { l with expiresAt := now })
  | expire {r : Record} {row : ExecutionRow} {d : Instant} (hrow : r.row = some row)
      (live : ¬ row.status.IsTerminal) (hd : row.deadlineAt = some d) (due : d ≤ now) :
      Step store now id .expireDeadlines r
        (((r.modifyRow fun row => { row with
          status := .timedOut, failureKind := some .timedOut
          failureMessage := "the execution deadline passed before it completed"
          currentStep := none, updatedAt := now }).setRetry none).log
          { executionId := id, kind := .timedOut, «at» := now
            detail := "the execution deadline passed before it completed" })
  | startStep {c : Claim V} {s : String} {key : Option String} {r : Record} {row : ExecutionRow} {st : StepRow}
      (hc : c.executionId = id) (hrow : r.row = some row) (h : r.AcceptsStep c now s st .running)
      (source : st.state ∈ [StepState.pending, .running]) :
      Step store now id (.startStep c s key) r
        (((r.modifyStep s fun st' => { st' with
          state := .running, attempts := st.attempts + 1, startedAt := now, finishedAt := none
          idempotencyKey := key }).modifyRow fun row => { row with
            currentStep := s, attempts := row.attempts + 1, updatedAt := now }).log
          { executionId := id, kind := .stepStarted, «at» := now, stepId := s
            attempt := some (st.attempts + 1) })
  | completeStep {c : Claim V} {s : String} {output : V} {payload : String} {r : Record} {st : StepRow}
      (hc : c.executionId = id) (hp : store.dump output s!"output of step {reprStr s}" = .ok payload)
      (h : r.AcceptsStep c now s st .succeeded) :
      Step store now id (.completeStep c s output) r
        (((r.modifyStep s fun st => { st with
          state := .succeeded, output := payload, finishedAt := now, errorType := none, errorMessage := none
          stateDetail := none }).modifyRow fun row => { row with currentStep := none, updatedAt := now }).log
          { executionId := id, kind := .stepSucceeded, «at» := now, stepId := s
            attempt := some (st.attempts + 1) })
  | yieldExecution {c : Claim V} {reason : String} {r : Record} {row : ExecutionRow} (hc : c.executionId = id)
      (h : r.Accepts c now row .pending) :
      Step store now id (.yieldExecution c reason) r
        (((r.modifyRow fun row => { row with status := .pending, updatedAt := now, currentStep := none }).modifyLease
          fun l => { l with expiresAt := now }).log
          { executionId := id, kind := .yielded, «at» := now, detail := reason })
  | skipStep {c : Claim V} {s reason : String} {r : Record} {st : StepRow} (hc : c.executionId = id)
      (h : r.AcceptsStep c now s st .skipped) :
      Step store now id (.skipStep c s reason) r
        ((r.modifyStep s fun st => { st with state := .skipped, finishedAt := now, stateDetail := reason }).log
          { executionId := id, kind := .stepSkipped, «at» := now, stepId := s, detail := reason })
  | failStepDeadline {c : Claim V} {s errorType errorMessage : String} {retryAt : Option Instant}
      {reason : Option String} {r : Record} {row : ExecutionRow} {message : String} (hc : c.executionId = id)
      (passed : JournalStore.DeadlineReached c retryAt now) (h : r.Accepts c now row .timedOut) :
      Step store now id (.failStep c s errorType errorMessage retryAt reason) r
        ((r.modifyRow fun row => { row with
          status := .timedOut, updatedAt := now, failureKind := some .timedOut, failureMessage := message
          currentStep := none }).log
          { executionId := id, kind := .timedOut, «at» := now, detail := message })
  | failStep {c : Claim V} {s errorType errorMessage : String} {reason : Option String} {r : Record}
      {row : ExecutionRow} {st : StepRow} {message : String} (hc : c.executionId = id)
      (notPassed : ¬ JournalStore.DeadlineReached c none now) (hs : r.AcceptsStep c now s st .failed)
      (h : r.Accepts c now row .failed) :
      Step store now id (.failStep c s errorType errorMessage none reason) r
        ((((r.modifyStep s (failedAttempt now errorType errorMessage reason .failed)).modifyRow fun row =>
          { row with status := .failed, updatedAt := now, failureKind := some .stepFailed
                     failureMessage := message, currentStep := none }).log
          { executionId := id, kind := .stepFailed, «at» := now, stepId := s, attempt := some st.attempts
            detail := errorType }).log
          { executionId := id, kind := .failed, «at» := now, stepId := s
            detail := s!"step_failed: {errorType}" })
  | retryStep {c : Claim V} {s errorType errorMessage : String} {due : Instant} {reason : Option String}
      {r : Record} {row : ExecutionRow} {st : StepRow} (hc : c.executionId = id)
      (notPassed : ¬ JournalStore.DeadlineReached c (some due) now) (hs : r.AcceptsStep c now s st .pending)
      (h : r.Accepts c now row .retrying) :
      Step store now id (.failStep c s errorType errorMessage (some due) reason) r
        ((((((r.modifyStep s (failedAttempt now errorType errorMessage reason .pending)).setRetry
          (some ⟨s, st.attempts + 1, due, errorType, reason⟩)).modifyRow fun row =>
          { row with status := .retrying, updatedAt := now, currentStep := none }).log
          { executionId := id, kind := .stepFailed, «at» := now, stepId := s, attempt := some st.attempts
            detail := errorType }).modifyLease fun l => { l with expiresAt := now }).log
          { executionId := id, kind := .retryScheduled, «at» := now, stepId := s
            attempt := some (st.attempts + 1), detail := s!"due={toIso due}" })
  | markUnknown {c : Claim V} {s reason : String} {r : Record} {row : ExecutionRow} {st : StepRow}
      (hc : c.executionId = id) (hs : r.AcceptsStep c now s st .outcomeUnknown)
      (h : r.Accepts c now row .waiting) :
      Step store now id (.markStepOutcomeUnknown c s reason) r
        ((((r.modifyStep s fun st => { st with state := .outcomeUnknown, stateDetail := reason }).modifyRow
          fun row => { row with status := .waiting, updatedAt := now, currentStep := none }).log
          { executionId := id, kind := .stepOutcomeUnknown, «at» := now, stepId := s
            attempt := some st.attempts, detail := reason }).log
          { executionId := id, kind := .waiting, «at» := now, stepId := s, detail := "outcome_unknown" })
  | resolveStep {c : Claim V} {s : String} {state : StepState} {output : V} {detail : Option String}
      {payload : Option String} {r : Record} {row : ExecutionRow} {st : StepRow} (hc : c.executionId = id)
      (hs : r.AcceptsStep c now s st state) (h : r.Accepts c now row .pending) :
      Step store now id (.resolveStep c s state output detail) r
        ((((r.modifyStep s fun st => { st with
          state := state, output := payload, finishedAt := now, stateDetail := detail }).modifyRow fun row =>
          { row with status := .pending, updatedAt := now, currentStep := none }).modifyLease
          fun l => { l with expiresAt := now }).log
          { executionId := id, kind := .recovered, «at» := now, stepId := s
            detail := JournalStore.resolvedDetail state detail })
  | completeExecution {c : Claim V} {outputs : V} {payload : String} {r : Record} {row : ExecutionRow}
      (hc : c.executionId = id) (hp : store.dump outputs s!"result of execution {id}" = .ok payload)
      (h : r.Accepts c now row .completed) :
      Step store now id (.completeExecution c outputs) r
        ((r.modifyRow fun row => { row with
          status := .completed, updatedAt := now, result := payload, currentStep := none }).log
          { executionId := id, kind := .completed, «at» := now })
  | failExecution {c : Claim V} {kind : FailureKind} {message : String} {r : Record} {row : ExecutionRow}
      (hc : c.executionId = id) (h : r.Accepts c now row .failed) :
      Step store now id (.failExecution c kind message) r
        ((r.modifyRow fun row => { row with
          status := .failed, updatedAt := now, failureKind := kind, failureMessage := message
          currentStep := none }).log
          { executionId := id, kind := .failed, «at» := now, detail := s!"{kind.value}: {message}" })
  | timeOutExecution {c : Claim V} {message : String} {r : Record} {row : ExecutionRow}
      (hc : c.executionId = id) (h : r.Accepts c now row .timedOut) :
      Step store now id (.timeOutExecution c message) r
        ((r.modifyRow fun row => { row with
          status := .timedOut, updatedAt := now, failureKind := some .timedOut, failureMessage := message
          currentStep := none }).log
          { executionId := id, kind := .timedOut, «at» := now, detail := message })
  | requestLive {reason : Option String} {r : Record} {row : ExecutionRow} (hrow : r.row = some row)
      (live : ¬ row.status.IsTerminal) (leased : ¬ r.Unleased now) :
      Step store now id (.requestCancellation id reason) r (recordRequest id now reason r row)
  | requestFinish {reason : Option String} {r : Record} {row : ExecutionRow} (hrow : r.row = some row)
      (live : ¬ row.status.IsTerminal) (unleased : r.Unleased now) :
      Step store now id (.requestCancellation id reason) r
        (finish id now reason (recordRequest id now reason r row))
  | acknowledge {c : Claim V} {reason : Option String} {r : Record} {row : ExecutionRow}
      (hc : c.executionId = id) (hrow : r.row = some row) (legal : .cancelled ∈ executionTransitions row.status)
      (guard : r.Guard c now) :
      Step store now id (.acknowledgeCancellation c reason) r
        ((((recordOwnRequest id now reason r row).modifyRow fun row => { row with
          status := .cancelled, updatedAt := now, failureKind := some .cancelled
          failureMessage := JournalStore.cancellationMessage reason, currentStep := none }).setRetry none).log
          { executionId := id, kind := .cancelled, «at» := now, detail := reason })
  | markWaiting {c : Claim V} {reason : String} {r : Record} {row : ExecutionRow} (hc : c.executionId = id)
      (h : r.Accepts c now row .waiting) :
      Step store now id (.markWaiting c reason) r
        ((r.modifyRow fun row => { row with status := .waiting, updatedAt := now, currentStep := none }).log
          { executionId := id, kind := .waiting, «at» := now, detail := reason })
  | resume {reason : Option String} {r : Record} {row : ExecutionRow}
      (hrow : r.row = some row) (waiting : row.status = .waiting) :
      Step store now id (.resumeWaiting id reason) r
        ((r.modifyRow fun row => { row with status := .pending, updatedAt := now }).log
          { executionId := id, kind := .recovered, «at» := now, detail := JournalStore.resumedDetail reason })

end Record

end Xyberos.Durable
