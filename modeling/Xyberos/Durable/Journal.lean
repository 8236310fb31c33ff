import Xyberos.Base.Table
import Xyberos.Base.Txn
import Xyberos.Durable.Models

/-!
# Xyberos.Durable.Journal — the tables of the journal

The schema of `durable/journal.py`, one record a table, and the statements the store runs on it.  Timestamps are
instants; `toIso` is the text of one, which only the texts of events and errors need.  Payload columns hold JSON
texts.  `execution_events` is append-only, so `event_id` is the position in the list.
-/

set_option autoImplicit false

namespace Xyberos.Durable

/-! ## `to_iso` -/

/-- Year, month and day of a day counted from 1970-01-01. -/
def civil (day : ℤ) : ℤ × ℤ × ℤ :=
  let z := day + 719468
  let era := z / 146097
  let doe := z - era * 146097
  let yoe := (doe - doe / 1460 + doe / 36524 - doe / 146096) / 365
  let doy := doe - (365 * yoe + yoe / 4 - yoe / 100)
  let mp := (5 * doy + 2) / 153
  let month := if mp < 10 then mp + 3 else mp - 9
  (yoe + era * 400 + (if month ≤ 2 then 1 else 0), month, doy - (153 * mp + 2) / 5 + 1)

/-- A natural number in at least `width` digits. -/
def padded (width : ℕ) (n : ℤ) : String :=
  let digits := toString n.toNat
  "".pushn '0' (width - digits.length) ++ digits

/-- `moment.astimezone(timezone.utc).isoformat(timespec="microseconds")`. -/
def toIso (moment : Instant) : String :=
  let second := moment / 1000000
  let (year, month, day) := civil (second / 86400)
  padded 4 year ++ "-" ++ padded 2 month ++ "-" ++ padded 2 day ++ "T" ++ padded 2 (second % 86400 / 3600) ++
    ":" ++ padded 2 (second % 3600 / 60) ++ ":" ++ padded 2 (second % 60) ++ "." ++
    padded 6 (moment % 1000000) ++ "+00:00"

/-! ## Rows -/

/-- `workflow_definitions`, under `(workflow, version)`. -/
structure DefinitionRow where
  fingerprint : String
  metadata : String
  registeredAt : Instant

/-- `executions`, under `execution_id`. -/
structure ExecutionRow where
  workflow : String
  version : String
  fingerprint : String
  status : ExecutionStatus
  input : String
  result : Option String := none
  failureKind : Option FailureKind := none
  failureMessage : Option String := none
  currentStep : Option String := none
  attempts : ℕ := 0
  submittedAt : Instant
  updatedAt : Instant
  deadlineAt : Option Instant := none
  cancellationRequestedAt : Option Instant := none
  cancellationReason : Option String := none
deriving DecidableEq

/-- `execution_steps`, under `(execution_id, step_id)`. -/
structure StepRow where
  state : StepState
  stateDetail : Option String := none
  attempts : ℕ := 0
  output : Option String := none
  errorType : Option String := none
  errorMessage : Option String := none
  startedAt : Option Instant := none
  finishedAt : Option Instant := none
  idempotencyKey : Option String := none
deriving DecidableEq

/-- `execution_events`. -/
structure EventRow where
  executionId : String
  kind : EventKind
  stepId : Option String := none
  attempt : Option ℕ := none
  detail : Option String := none
  «at» : Instant
deriving DecidableEq

/-- `worker_leases`, under `execution_id`. -/
structure LeaseRow where
  owner : String
  fence : ℕ
  acquiredAt : Instant
  heartbeatAt : Instant
  expiresAt : Instant
deriving DecidableEq

/-- `scheduled_retries`, under `execution_id`. -/
structure RetryRow where
  stepId : String
  attempt : ℕ
  dueAt : Instant
  errorType : Option String
  reason : Option String
deriving DecidableEq

/-- The journal. -/
structure Journal where
  definitions : Table (String × String) DefinitionRow := .empty
  executions : Table String ExecutionRow := .empty
  steps : Table (String × String) StepRow := .empty
  events : List EventRow := []
  leases : Table String LeaseRow := .empty
  retries : Table String RetryRow := .empty

/-! ## Views -/

/-- `StepView`: the persisted row, with its output loaded. -/
structure StepView (V : Type) where
  stepId : String
  row : StepRow
  output : V

/-- `EventView`. -/
structure EventView where
  sequence : ℕ
  event : EventRow

/-- `ExecutionView`: the persisted row, with its input and result loaded. -/
structure ExecutionView (V : Type) where
  executionId : String
  row : ExecutionRow
  input : V
  result : V
  steps : List (StepView V)
  events : List EventView
  retryDueAt : Option Instant

namespace Journal

/-! ## Conditions -/

variable {V : Type}

/-- `_LEASE_GUARD`: the claim names the lease in the table, and that lease has not expired. -/
def LeaseGuard (j : Journal) (claim : Claim V) (now : Instant) : Prop :=
  ∃ l ∈ j.leases.get? claim.executionId, l.owner = claim.owner ∧ l.fence = claim.fence ∧ now < l.expiresAt

instance (j : Journal) (claim : Claim V) (now : Instant) : Decidable (j.LeaseGuard claim now) :=
  inferInstanceAs (Decidable (∃ l ∈ j.leases.get? claim.executionId, _ ∧ _ ∧ _))

/-- No lease on the execution, or an expired one. -/
def Unleased (j : Journal) (executionId : String) (now : Instant) : Prop :=
  ∀ l ∈ j.leases.get? executionId, l.expiresAt ≤ now

instance (j : Journal) (executionId : String) (now : Instant) : Decidable (j.Unleased executionId now) :=
  inferInstanceAs (Decidable (∀ l ∈ j.leases.get? executionId, _))

/-- The `WHERE` clause of the candidate `SELECT` of `claim_next`. -/
def Eligible (j : Journal) (now : Instant) (executionId : String) (row : ExecutionRow) : Prop :=
  (row.cancellationRequestedAt = none ∨ row.status = .running) ∧
  (∀ d ∈ row.deadlineAt, now < d) ∧
  ((row.status ∈ [ExecutionStatus.pending, .retrying] ∧ ∀ r ∈ j.retries.get? executionId, r.dueAt ≤ now) ∨
    (row.status = .running ∧ j.Unleased executionId now))

instance (j : Journal) (now : Instant) (executionId : String) (row : ExecutionRow) :
    Decidable (j.Eligible now executionId row) :=
  inferInstanceAs (Decidable (_ ∧ _ ∧ _))

/-- `ORDER BY submitted_at LIMIT 1`, the first inserted among equals. -/
def oldest : List (String × ExecutionRow) → Option (String × ExecutionRow)
  | [] => none
  | x :: xs =>
    match oldest xs with
    | none => some x
    | some y => if y.2.submittedAt < x.2.submittedAt then some y else some x

theorem oldest_mem {l : List (String × ExecutionRow)} {x : String × ExecutionRow} (h : oldest l = some x) : x ∈ l := by
  induction l generalizing x with
  | nil => cases h
  | cons y l ih =>
    unfold oldest at h
    cases hl : oldest l with
    | none =>
      rw [hl] at h
      cases h
      exact List.mem_cons_self
    | some z =>
      rw [hl] at h
      dsimp only at h
      split_ifs at h <;> cases h
      · exact List.mem_cons_of_mem _ (ih hl)
      · exact List.mem_cons_self

theorem oldest_eq_none {l : List (String × ExecutionRow)} : oldest l = none ↔ l = [] := by
  constructor
  · intro h
    cases l with
    | nil => rfl
    | cons x xs =>
      unfold oldest at h
      cases hl : oldest xs with
      | none =>
        rw [hl] at h
        cases h
      | some y =>
        rw [hl] at h
        dsimp only at h
        split_ifs at h
  · rintro rfl
    rfl

/-- The candidate `SELECT` of `claim_next`: the oldest eligible execution. -/
def candidate (j : Journal) (now : Instant) : Option String :=
  (oldest (j.executions.select (j.Eligible now))).map Prod.fst

/-! ## Statements -/

/-- `UPDATE executions SET .. WHERE execution_id = .. AND p`. -/
def updateExecution (j : Journal) (executionId : String) (p : ExecutionRow → Prop) [DecidablePred p]
    (f : ExecutionRow → ExecutionRow) : Journal × ℕ :=
  let r := j.executions.update executionId p f
  ({ j with executions := r.1 }, r.2)

/-- `UPDATE execution_steps SET .. WHERE execution_id = .. AND step_id = .. AND p`. -/
def updateStep (j : Journal) (executionId stepId : String) (p : StepRow → Prop) [DecidablePred p]
    (f : StepRow → StepRow) : Journal × ℕ :=
  let r := j.steps.update (executionId, stepId) p f
  ({ j with steps := r.1 }, r.2)

/-- `UPDATE worker_leases SET .. WHERE execution_id = .. AND p`. -/
def updateLease (j : Journal) (executionId : String) (p : LeaseRow → Prop) [DecidablePred p]
    (f : LeaseRow → LeaseRow) : Journal × ℕ :=
  let r := j.leases.update executionId p f
  ({ j with leases := r.1 }, r.2)

/-- The journal with the row of one execution changed. -/
def modifyExecution (j : Journal) (executionId : String) (f : ExecutionRow → ExecutionRow) : Journal :=
  { j with executions := j.executions.modify executionId f }

/-- The journal with the row of one step changed. -/
def modifyStep (j : Journal) (executionId stepId : String) (f : StepRow → StepRow) : Journal :=
  { j with steps := j.steps.modify (executionId, stepId) f }

/-- The journal with the lease of one execution changed. -/
def modifyLease (j : Journal) (executionId : String) (f : LeaseRow → LeaseRow) : Journal :=
  { j with leases := j.leases.modify executionId f }

/-- `INSERT INTO worker_leases .. ON CONFLICT (execution_id) DO UPDATE ..`. -/
def upsertLease (j : Journal) (executionId : String) (l : LeaseRow) (f : LeaseRow → LeaseRow) : Journal :=
  { j with leases := j.leases.upsert executionId l f }

/-- `INSERT INTO scheduled_retries .. ON CONFLICT (execution_id) DO UPDATE ..`. -/
def upsertRetry (j : Journal) (executionId : String) (r : RetryRow) : Journal :=
  { j with retries := j.retries.upsert executionId r fun _ => r }

/-- `DELETE FROM scheduled_retries WHERE execution_id = ..`. -/
def deleteRetry (j : Journal) (executionId : String) : Journal :=
  { j with retries := j.retries.delete executionId }

/-- `INSERT INTO execution_events ..`. -/
def appendEvent (j : Journal) (e : EventRow) : Journal := { j with events := j.events ++ [e] }

/-! ## An `UPDATE` changes one row or none -/

section Update

variable {j : Journal} {id s : String}

theorem updateExecution_of_pos {p : ExecutionRow → Prop} [DecidablePred p] {f : ExecutionRow → ExecutionRow}
    {r : ExecutionRow} (h : j.executions.get? id = some r) (hp : p r) :
    j.updateExecution id p f = (j.modifyExecution id f, 1) := by
  rw [updateExecution, Table.update_of_pos h hp]
  rfl

theorem updateExecution_of_neg {p : ExecutionRow → Prop} [DecidablePred p] {f : ExecutionRow → ExecutionRow}
    (h : ∀ r, j.executions.get? id = some r → ¬ p r) : j.updateExecution id p f = (j, 0) := by
  rw [updateExecution, Table.update_of_neg h]

theorem updateExecution_const {q : Prop} [Decidable q] {f : ExecutionRow → ExecutionRow} (hq : q) :
    (j.updateExecution id (fun _ => q) f).1 = j.modifyExecution id f := by
  rw [updateExecution, modifyExecution, Table.update_const hq]

theorem updateStep_of_pos {p : StepRow → Prop} [DecidablePred p] {f : StepRow → StepRow} {r : StepRow}
    (h : j.steps.get? (id, s) = some r) (hp : p r) : j.updateStep id s p f = (j.modifyStep id s f, 1) := by
  rw [updateStep, Table.update_of_pos h hp]
  rfl

theorem updateLease_of_pos {p : LeaseRow → Prop} [DecidablePred p] {f : LeaseRow → LeaseRow} {r : LeaseRow}
    (h : j.leases.get? id = some r) (hp : p r) : j.updateLease id p f = (j.modifyLease id f, 1) := by
  rw [updateLease, Table.update_of_pos h hp]
  rfl

theorem updateLease_of_neg {p : LeaseRow → Prop} [DecidablePred p] {f : LeaseRow → LeaseRow}
    (h : ∀ r, j.leases.get? id = some r → ¬ p r) : j.updateLease id p f = (j, 0) := by
  rw [updateLease, Table.update_of_neg h]

theorem updateExecution_snd_iff {p : ExecutionRow → Prop} [DecidablePred p]
    {f : ExecutionRow → ExecutionRow} :
    (j.updateExecution id p f).2 = 1 ↔ ∃ r, j.executions.get? id = some r ∧ p r :=
  Table.update_snd_eq_one_iff

theorem updateStep_snd_iff {p : StepRow → Prop} [DecidablePred p] {f : StepRow → StepRow} :
    (j.updateStep id s p f).2 = 1 ↔ ∃ r, j.steps.get? (id, s) = some r ∧ p r :=
  Table.update_snd_eq_one_iff

theorem updateLease_snd_iff {p : LeaseRow → Prop} [DecidablePred p] {f : LeaseRow → LeaseRow} :
    (j.updateLease id p f).2 = 1 ↔ ∃ r, j.leases.get? id = some r ∧ p r :=
  Table.update_snd_eq_one_iff

end Update

end Journal

end Xyberos.Durable
