import Xyberos.Execution.Models

/-!
# Xyberos.Durable.Models — statuses, the transition tables, claims and inspection records

The tables are the contract of the journal: which status of an execution, and which state of a step, may follow
which.  A JSON payload is stored as its text; `Values` is how a value becomes a text and back.
-/

set_option autoImplicit false

namespace Xyberos.Durable

/-! ## Statuses -/

/-- Where a durable execution stands. -/
inductive ExecutionStatus
  | pending | running | retrying | waiting | completed | failed | cancelled | timedOut
deriving DecidableEq, Repr

/-- Where one step of a durable execution stands. -/
inductive StepState
  | pending | running | succeeded | skipped | failed | outcomeUnknown
deriving DecidableEq, Repr

/-- Why an execution stopped. -/
inductive FailureKind
  | stepFailed | incompatibleDefinition | definitionConflict | outcomeUnknown | timedOut | cancelled | internal
deriving DecidableEq, Repr

/-- The kinds of journal events. -/
inductive EventKind
  | submitted | claimed | leaseRenewed | recovered | stepStarted | stepSucceeded | stepSkipped | stepFailed
  | stepOutcomeUnknown | retryScheduled | yielded | cancellationRequested | waiting | completed | failed
  | cancelled | timedOut
deriving DecidableEq, Repr

/-- The stored text of a status. -/
def ExecutionStatus.value : ExecutionStatus → String
  | pending => "pending"
  | running => "running"
  | retrying => "retrying"
  | waiting => "waiting"
  | completed => "completed"
  | failed => "failed"
  | cancelled => "cancelled"
  | timedOut => "timed_out"

/-- The stored text of a step state. -/
def StepState.value : StepState → String
  | pending => "pending"
  | running => "running"
  | succeeded => "succeeded"
  | skipped => "skipped"
  | failed => "failed"
  | outcomeUnknown => "outcome_unknown"

/-- The stored text of a failure kind. -/
def FailureKind.value : FailureKind → String
  | stepFailed => "step_failed"
  | incompatibleDefinition => "incompatible_definition"
  | definitionConflict => "definition_conflict"
  | outcomeUnknown => "outcome_unknown"
  | timedOut => "timed_out"
  | cancelled => "cancelled"
  | internal => "internal"

/-! ## Transitions -/

/-- `EXECUTION_TRANSITIONS`. -/
def executionTransitions : ExecutionStatus → List ExecutionStatus
  | .pending => [.running, .cancelled, .timedOut, .failed]
  | .running => [.running, .pending, .retrying, .waiting, .completed, .failed, .cancelled, .timedOut]
  | .retrying => [.running, .waiting, .failed, .cancelled, .timedOut]
  | .waiting => [.running, .failed, .cancelled, .timedOut]
  | .completed => []
  | .failed => []
  | .cancelled => []
  | .timedOut => []

/-- `STEP_TRANSITIONS`. -/
def stepTransitions : StepState → List StepState
  | .pending => [.running, .skipped, .failed, .outcomeUnknown]
  | .running => [.running, .pending, .succeeded, .failed, .outcomeUnknown]
  | .outcomeUnknown => [.pending, .succeeded, .failed]
  | .succeeded => []
  | .skipped => []
  | .failed => []

/-- `execution_is_terminal`. -/
def ExecutionStatus.IsTerminal (s : ExecutionStatus) : Prop :=
  s ∈ [ExecutionStatus.completed, .failed, .cancelled, .timedOut]

instance (s : ExecutionStatus) : Decidable s.IsTerminal := inferInstanceAs (Decidable (_ ∈ _))

theorem isTerminal_cancelled : ExecutionStatus.cancelled.IsTerminal := by decide

theorem isTerminal_timedOut : ExecutionStatus.timedOut.IsTerminal := by decide

/-- `step_is_terminal`. -/
def StepState.IsTerminal (s : StepState) : Prop := s ∈ [StepState.succeeded, .skipped, .failed]

instance (s : StepState) : Decidable s.IsTerminal := inferInstanceAs (Decidable (_ ∈ _))

/-- `require_execution_transition`. -/
def requireExecutionTransition (current target : ExecutionStatus) : Except Exc Unit :=
  if target ∈ executionTransitions current then .ok ()
  else .error (durableStateError
    s!"an execution cannot move from {reprStr current.value} to {reprStr target.value}")

/-- `require_step_transition`. -/
def requireStepTransition (current target : StepState) : Except Exc Unit :=
  if target ∈ stepTransitions current then .ok ()
  else .error (durableStateError s!"a step cannot move from {reprStr current.value} to {reprStr target.value}")

/-- A terminal status is left by no transition. -/
theorem executionTransitions_eq_nil_iff (s : ExecutionStatus) : executionTransitions s = [] ↔ s.IsTerminal := by
  cases s <;> decide

theorem stepTransitions_eq_nil_iff (s : StepState) : stepTransitions s = [] ↔ s.IsTerminal := by
  cases s <;> decide

theorem not_isTerminal_of_mem {s t : ExecutionStatus} (h : t ∈ executionTransitions s) : ¬ s.IsTerminal := by
  intro hs
  rw [← executionTransitions_eq_nil_iff] at hs
  rw [hs] at h
  cases h

/-- Every non-terminal status may be cancelled. -/
theorem cancelled_mem_iff (s : ExecutionStatus) : .cancelled ∈ executionTransitions s ↔ ¬ s.IsTerminal := by
  cases s <;> decide

/-- Every non-terminal status may time out. -/
theorem timedOut_mem_iff (s : ExecutionStatus) : .timedOut ∈ executionTransitions s ↔ ¬ s.IsTerminal := by
  cases s <;> decide

/-! ## Payloads -/

/-- What `json.dumps(value, sort_keys=True, separators=(",", ":"), default=reject)` does with a value: its text,
the type `reject` was called with, or another exception. -/
inductive Dumped
  | text (s : String)
  | rejected (typeName : String)
  | raised (e : Exc)

/-- JSON values and their texts. -/
structure Values (V : Type) where
  null : V
  dumps : V → Dumped
  loads : String → V
  ofDict : List (String × V) → V
  /-- `repr` of a `float`. -/
  reprFloat : ℚ → String

/-! ## Policies and records -/

/-- What a reconciler decided about an interrupted attempt. -/
structure Reconciliation (V : Type) where
  state : StepState
  output : V
  detail : Option String
  decides : state ∈ [StepState.succeeded, .pending, .failed, .outcomeUnknown]

/-- What a reconciler returns: a decision, or some other value (its type). -/
inductive Reconciled (V : Type)
  | decided (r : Reconciliation V)
  | other (typeName : String)

/-- `ActivityPolicy`: a step is idempotent, or has a reconciler, or neither; never both.  What a reconciler answers
when it is called is a choice of the environment, like what a step does. -/
inductive ActivityPolicy
  | undeclared | idempotent | reconcile
deriving DecidableEq, Repr

/-- A submitted execution, as returned to the caller. -/
structure ExecutionHandle where
  executionId : String
  workflow : String
  version : String
  status : ExecutionStatus
deriving DecidableEq, Repr

/-- A worker's authority to advance one execution; `fence` is the fencing token. -/
structure Claim (V : Type) where
  executionId : String
  owner : String
  fence : ℕ
  workflow : String
  version : String
  fingerprint : String
  input : V
  executionStatus : ExecutionStatus
  expiresAt : Instant
  deadlineAt : Option Instant := none
  cancellationRequested : Bool := false
deriving DecidableEq

end Xyberos.Durable
