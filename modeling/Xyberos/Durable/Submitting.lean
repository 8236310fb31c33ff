import Xyberos.Durable.Stale
import Xyberos.Execution.Graph
import Mathlib.Logic.Basic

/-!
# Xyberos.Durable.Submitting — `submit` as the call that a client makes

`submit` checks its arguments on the way through two transactions: the timeout before the first, the payload, the
deadline and the key between them.  A refusal in between leaves the definition registered (`all_or_nothing_iff`).
Both transactions read before they insert; what they do is stated for reads that may be stale.
-/

set_option autoImplicit false

namespace Xyberos.Durable

open Txn

variable {V : Type}

/-! ## The call -/

/-- `None if timeout is None else now + timedelta(seconds=timeout)`. -/
def deadlineAfter (now : Instant) : Option Seconds → Except Exc (Option Instant)
  | none => .ok none
  | some s => do
    let delta ← s.toDelta
    let deadline ← addDelta now delta
    return some deadline

namespace JournalStore

variable (store : JournalStore V)

/-- `submit` up to its first transaction, with it. -/
def submitFirst (w : Workflow V) (timeout : Option Seconds) (now : Instant) : Tx String :=
  if timeout.any Seconds.notPositive then .raise (durableStateError "timeout must be greater than zero")
  else store.registerDefinition w now

/-- `submit` from its first transaction on. -/
def submitSecond (w : Workflow V) (input : V) (timeout : Option Seconds) (identifier : String)
    (submissionKey : Option String) (now : Instant) : Tx ExecutionHandle := do
  let _ ← Txn.ofExcept (store.dump input s!"input of execution {identifier}")
  let _ ← Txn.ofExcept (deadlineAfter now timeout)
  store.submit w input (timeout.map Seconds.toRat) identifier submissionKey now

/-- `submit` by a caller alone: what it returns or raises, and the journal afterwards.  `drawn` is the identifier that
`uuid4` would give; each half reads the clock. -/
def submitCall (w : Workflow V) (input : V) (timeout : Option Seconds) (executionId submissionKey : Option String)
    (drawn : String) (now now' : Instant) (j : Journal) : Except Exc ExecutionHandle × Journal :=
  match (store.submitFirst w timeout now).commit j with
  | (.error e, j') => (.error e, j')
  | (.ok _, j') => (store.submitSecond w input timeout (textOr drawn executionId) submissionKey now').commit j'

end JournalStore

/-! ## What the arguments are checked for -/

/-- `register_definition` gets to its `SELECT`. -/
structure Registrable (store : JournalStore V) (w : Workflow V) : Prop where
  validated : w.validate = .ok ()
  metadata : ∃ text, store.dump (store.values.ofDict w.metadata) s!"metadata of workflow {reprStr w.name}" = .ok text

/-- The second half of `submit` gets to its `SELECT`. -/
structure Submittable (store : JournalStore V) (input : V) (timeout : Option Seconds) (id : String)
    (key : Option String) (now : Instant) : Prop where
  payload : ∃ text, store.dump input s!"input of execution {id}" = .ok text
  deadline : ∃ deadline, deadlineAfter now timeout = .ok deadline
  key : key.any isBlank = false

/-- The row is of the same work: name, version, fingerprint and serialized input. -/
structure ExecutionRow.Matches (store : JournalStore V) (row : ExecutionRow) (w : Workflow V) (input : V)
    (id : String) : Prop where
  workflow : row.workflow = w.name
  version : row.version = w.version
  fingerprint : row.fingerprint = store.definitionFingerprint w
  input : store.dump input s!"input of execution {id}" = .ok row.input

/-- The row that `submit` inserts. -/
def pendingRow (store : JournalStore V) (w : Workflow V) (payload : String) (timeout : Option Seconds)
    (now : Instant) : ExecutionRow where
  workflow := w.name
  version := w.version
  fingerprint := store.definitionFingerprint w
  status := .pending
  input := payload
  submittedAt := now
  updatedAt := now
  deadlineAt := (timeout.map Seconds.toRat).map fun t => now + timedelta t

/-- The detail of the event of `submit`. -/
def submittedDetail (w : Workflow V) (key : Option String) : String :=
  s!"steps={w.steps.length}" ++ match key with
    | none => ""
    | some key => s!" key={key}"

/-! ## The two transactions, on reads that may be stale -/

section Halves

variable {store : JournalStore V} {w : Workflow V} {input : V} {timeout : Option Seconds} {id : String}
  {key : Option String} {now : Instant} {snaps : List Journal} {j : Journal}

/-- A computation of a transaction that fails ends it. -/
theorem runStale_ofExcept_error {α β : Type} {x : Except Exc β} {e : Exc} {k : β → Tx α} (h : x = .error e) :
    (Txn.ofExcept x >>= k).runStale snaps j = .error e := by
  rw [h]
  rfl

theorem runStale_ofExcept_ok {α β : Type} {x : Except Exc β} {b : β} {k : β → Tx α} (h : x = .ok b) :
    (Txn.ofExcept x >>= k).runStale snaps j = (k b).runStale snaps j := by
  rw [h]
  rfl

theorem exists_of_not_ok {α : Type} {x : Except Exc α} (h : ¬ ∃ a, x = .ok a) : ∃ e, x = .error e := by
  cases x with
  | error e => exact ⟨e, rfl⟩
  | ok a => exact absurd ⟨a, rfl⟩ h

namespace JournalStore

/-- What `register_definition` does once its arguments are checked. -/
theorem runStale_registerDefinition {metadata : String} (hv : w.validate = .ok ())
    (hm : store.dump (store.values.ofDict w.metadata) s!"metadata of workflow {reprStr w.name}" = .ok metadata) :
    (store.registerDefinition w now).runStale snaps j =
      match (snaps.getD 0 j).definitions.get? (w.name, w.version) with
      | some existing =>
        if existing.fingerprint = store.definitionFingerprint w then .ok (store.definitionFingerprint w, j)
        else .error (durableVersionError (s!"workflow {reprStr w.name} version {reprStr w.version} is already " ++
          "registered with a different definition; a definition cannot be changed " ++
          "in place, because persisted executions resume against the version they saw"))
      | none =>
        match j.definitions.insert? (w.name, w.version) ⟨store.definitionFingerprint w, metadata, now⟩ with
        | some t => .ok (store.definitionFingerprint w, { j with definitions := t })
        | none => .error integrityError := by
  unfold registerDefinition
  rw [runStale_ofExcept_ok hv, runStale_ofExcept_ok hm, runStale_bind_select]
  cases (snaps.getD 0 j).definitions.get? (w.name, w.version) with
  | some existing =>
    dsimp only
    rw [ite_not]
    split_ifs <;> rfl
  | none =>
    dsimp only
    rw [runStale_bind_execute, run_bind, run_execute]
    cases j.definitions.insert? (w.name, w.version) ⟨store.definitionFingerprint w, metadata, now⟩ <;> rfl

/-- `submit` after its `SELECT` found nothing. -/
def insertExecution (store : JournalStore V) (w : Workflow V) (payload : String) (timeout : Option Seconds)
    (id : String) (key : Option String) (now : Instant) : Tx ExecutionHandle := do
  let _ ← Txn.execute fun j =>
    match j.executions.insert? id (pendingRow store w payload timeout now) with
    | some t => .ok ({ j with executions := t }, 1)
    | none => .error integrityError
  Txn.forEach w.steps fun step => insertStep id step.id
  appendEvent { executionId := id, kind := .submitted, «at» := now, detail := some (submittedDetail w key) }
  return ⟨id, w.name, w.version, .pending⟩

/-- What the second half of `submit` does once its arguments are checked. -/
theorem runStale_submitSecond {payload : String} (hs : Submittable store input timeout id key now)
    (hp : store.dump input s!"input of execution {id}" = .ok payload) :
    (store.submitSecond w input timeout id key now).runStale snaps j =
      match (snaps.getD 0 j).executions.get? id with
      | some existing =>
        if existing.workflow = w.name ∧ existing.version = w.version ∧
            existing.fingerprint = store.definitionFingerprint w ∧ existing.input = payload then
          .ok (⟨id, existing.workflow, existing.version, existing.status⟩, j)
        else .error (durableConflictError
          s!"execution {id} already exists with different work; use a new execution id")
      | none => (insertExecution store w payload timeout id key now).run j := by
  obtain ⟨deadline, hd⟩ := hs.deadline
  unfold submitSecond submit
  rw [runStale_ofExcept_ok hp, runStale_ofExcept_ok hd, runStale_ofExcept_ok hp]
  dsimp only
  rw [if_neg (by rw [hs.key]; exact Bool.false_ne_true), runStale_bind_select]
  cases (snaps.getD 0 j).executions.get? id with
  | some existing =>
    dsimp only
    split_ifs <;> rfl
  | none =>
    dsimp only
    rw [runStale_bind_execute]
    unfold insertExecution submittedDetail
    cases key <;> rfl

/-- The rows of the steps are inserted if their ids are distinct and new. -/
theorem exists_run_insertSteps {l : List (Step V)} (hd : (l.map Step.id).Nodup)
    (hn : ∀ s ∈ l.map Step.id, j.steps.get? (id, s) = none) :
    ∃ j', (forEach l fun s => insertStep id s.id).run j = .ok ((), j') := by
  induction l generalizing j with
  | nil => exact ⟨j, rfl⟩
  | cons s l ih =>
    obtain ⟨hs, hd⟩ := List.nodup_cons.mp hd
    cases hi : j.steps.insert? (id, s.id) { state := .pending } with
    | none =>
      rw [Table.insert?_eq_none_iff, hn s.id List.mem_cons_self] at hi
      cases hi
    | some t =>
      have hstep : (insertStep id s.id).run j = .ok ((), { j with steps := t }) := run_insertStep.mpr ⟨t, hi, rfl⟩
      obtain ⟨j', hj'⟩ := ih (j := { j with steps := t }) hd fun s' hs' => by
        show t.get? (id, s') = none
        rw [Table.get?_insert? hi, if_neg]
        · exact hn s' (List.mem_cons_of_mem _ hs')
        · intro he
          exact hs ((Prod.mk.inj he).2 ▸ hs')
      exact ⟨j', by rw [run_forEach_cons, run_bind_of hstep]; exact hj'⟩

/-- An `INSERT` of an execution that is there. -/
theorem run_insertExecution_of_some {payload : String} {row : ExecutionRow} (h : j.executions.get? id = some row) :
    (insertExecution store w payload timeout id key now).run j = .error integrityError := by
  have hi : j.executions.insert? id (pendingRow store w payload timeout now) = none :=
    Table.insert?_eq_none_iff.mpr (by rw [h]; rfl)
  unfold insertExecution
  refine run_bind_of_error ?_
  rw [run_execute, hi]
  rfl

end JournalStore

/-- What a submission inserts. -/
structure Inserted (store : JournalStore V) (w : Workflow V) (payload : String) (timeout : Option Seconds)
    (id : String) (key : Option String) (now : Instant) (j j' : Journal) : Prop where
  absent : j.executions.get? id = none
  fresh : ∀ s ∈ w.stepIds, j.steps.get? (id, s) = none
  execution : ∀ id', j'.executions.get? id' =
    if id' = id then some (pendingRow store w payload timeout now) else j.executions.get? id'
  steps : ∀ k, j'.steps.get? k = if k.1 = id ∧ k.2 ∈ w.stepIds then some { state := .pending } else j.steps.get? k
  events : j'.events = j.events ++
    [{ executionId := id, kind := .submitted, «at» := now, detail := some (submittedDetail w key) }]
  definitions : j'.definitions = j.definitions
  leases : j'.leases = j.leases
  retries : j'.retries = j.retries

namespace JournalStore

theorem run_insertExecution {payload : String} {r : ExecutionHandle × Journal}
    (h : (insertExecution store w payload timeout id key now).run j = .ok r) :
    r.1 = ⟨id, w.name, w.version, .pending⟩ ∧ Inserted store w payload timeout id key now j r.2 := by
  unfold insertExecution at h
  rw [run_bind_eq_ok] at h
  obtain ⟨_, j₁, h₁, h⟩ := h
  rw [run_execute] at h₁
  cases hi : j.executions.insert? id (pendingRow store w payload timeout now) with
  | none =>
    rw [hi] at h₁
    cases h₁
  | some t =>
    rw [hi] at h₁
    cases h₁
    rw [run_bind_eq_ok] at h
    obtain ⟨_, j₂, h₂, h⟩ := h
    obtain ⟨hfresh, steps, rfl, hsteps⟩ := run_insertSteps h₂
    rw [run_bind_of (run_appendEvent _ _)] at h
    cases h
    exact ⟨rfl, Table.get?_of_insert? hi, hfresh, Table.get?_insert? hi, hsteps, rfl, rfl, rfl, rfl⟩

/-- Nothing stands in the way of the insertion of a new execution. -/
theorem exists_run_insertExecution {payload : String} (hd : w.stepIds.Nodup) (ha : j.executions.get? id = none)
    (hn : ∀ s ∈ w.stepIds, j.steps.get? (id, s) = none) :
    ∃ r, (insertExecution store w payload timeout id key now).run j = .ok r := by
  cases hi : j.executions.insert? id (pendingRow store w payload timeout now) with
  | none =>
    rw [Table.insert?_eq_none_iff, ha] at hi
    cases hi
  | some t =>
    obtain ⟨j', hj'⟩ := exists_run_insertSteps (j := { j with executions := t }) hd hn
    unfold insertExecution
    have hrow : (execute fun j : Journal =>
        match j.executions.insert? id (pendingRow store w payload timeout now) with
        | some t => .ok (({ j with executions := t } : Journal), 1)
        | none => .error integrityError).run j = .ok (1, { j with executions := t }) := by
      refine run_execute_of ?_
      rw [hi]
    rw [run_bind_of hrow, run_bind_of hj', run_bind_of (run_appendEvent _ _)]
    exact ⟨_, rfl⟩

end JournalStore

/-! ## All or nothing -/

/-- The definition is in the table with this fingerprint: it was there, or it is new. -/
def Registered (store : JournalStore V) (w : Workflow V) (now : Instant) (j j' : Journal) : Prop :=
  (∃ row, j.definitions.get? (w.name, w.version) = some row ∧ row.fingerprint = store.definitionFingerprint w ∧
    j' = j) ∨
  (∃ metadata definitions, j.definitions.get? (w.name, w.version) = none ∧
    store.dump (store.values.ofDict w.metadata) s!"metadata of workflow {reprStr w.name}" = .ok metadata ∧
    j.definitions.insert? (w.name, w.version) ⟨store.definitionFingerprint w, metadata, now⟩ = some definitions ∧
    j' = { j with definitions := definitions })

namespace JournalStore

/-- The first half goes through: the arguments are accepted, and the definition that was read is this one, or there is
none yet. -/
theorem runStale_submitFirst {a : String} {j' : Journal}
    (h : (store.submitFirst w timeout now).runStale snaps j = .ok (a, j')) :
    timeout.any Seconds.notPositive = false ∧ Registrable store w ∧
      ((∃ row, (snaps.getD 0 j).definitions.get? (w.name, w.version) = some row ∧
          row.fingerprint = store.definitionFingerprint w ∧ j' = j) ∨
        (∃ metadata definitions, (snaps.getD 0 j).definitions.get? (w.name, w.version) = none ∧
          store.dump (store.values.ofDict w.metadata) s!"metadata of workflow {reprStr w.name}" = .ok metadata ∧
          j.definitions.insert? (w.name, w.version) ⟨store.definitionFingerprint w, metadata, now⟩ = some definitions ∧
          j' = { j with definitions := definitions })) := by
  unfold submitFirst at h
  split_ifs at h with ht
  · cases h
  refine ⟨by simpa using ht, ?_⟩
  have hreg : Registrable store w := by
    unfold registerDefinition at h
    refine ⟨?_, ?_⟩
    · cases hv : w.validate with
      | ok u => rfl
      | error e =>
        rw [runStale_ofExcept_error hv] at h
        cases h
    · by_contra hm
      cases hv : w.validate with
      | error e =>
        rw [runStale_ofExcept_error hv] at h
        cases h
      | ok u =>
        obtain ⟨e, he⟩ := exists_of_not_ok hm
        rw [runStale_ofExcept_ok hv, runStale_ofExcept_error he] at h
        cases h
  refine ⟨hreg, ?_⟩
  obtain ⟨metadata, hm⟩ := hreg.metadata
  rw [runStale_registerDefinition hreg.validated hm] at h
  cases hk : (snaps.getD 0 j).definitions.get? (w.name, w.version) with
  | some existing =>
    rw [hk] at h
    dsimp only at h
    split_ifs at h with hf
    cases h
    exact .inl ⟨existing, rfl, hf, rfl⟩
  | none =>
    rw [hk] at h
    dsimp only at h
    cases hi : j.definitions.insert? (w.name, w.version) ⟨store.definitionFingerprint w, metadata, now⟩ with
    | none =>
      rw [hi] at h
      cases h
    | some t =>
      rw [hi] at h
      cases h
      exact .inr ⟨metadata, t, rfl, hm, hi, rfl⟩

theorem run_submitFirst {a : String} {j' : Journal} (h : (store.submitFirst w timeout now).run j = .ok (a, j')) :
    timeout.any Seconds.notPositive = false ∧ Registrable store w ∧ Registered store w now j j' := by
  rw [← runStale_nil] at h
  exact runStale_submitFirst h

/-- A new definition is registered. -/
theorem exists_run_submitFirst (ht : timeout.any Seconds.notPositive = false) (hw : Registrable store w)
    (hn : j.definitions.get? (w.name, w.version) = none) :
    ∃ a j', (store.submitFirst w timeout now).run j = .ok (a, j') := by
  obtain ⟨metadata, hm⟩ := hw.metadata
  unfold submitFirst
  rw [if_neg (by rw [ht]; exact Bool.false_ne_true), ← runStale_nil, runStale_registerDefinition hw.validated hm,
    List.getD_nil, hn]
  dsimp only
  cases hi : j.definitions.insert? (w.name, w.version) ⟨store.definitionFingerprint w, metadata, now⟩ with
  | none =>
    rw [Table.insert?_eq_none_iff, hn] at hi
    cases hi
  | some t => exact ⟨_, _, rfl⟩

/-- The second half goes through only if its arguments are accepted. -/
theorem submittable_of_runStale {r : ExecutionHandle × Journal}
    (h : (store.submitSecond w input timeout id key now).runStale snaps j = .ok r) :
    Submittable store input timeout id key now := by
  unfold submitSecond at h
  cases hp : store.dump input s!"input of execution {id}" with
  | error e =>
    rw [runStale_ofExcept_error hp] at h
    cases h
  | ok payload =>
    rw [runStale_ofExcept_ok hp] at h
    cases hd : deadlineAfter now timeout with
    | error e =>
      rw [runStale_ofExcept_error hd] at h
      cases h
    | ok deadline =>
      rw [runStale_ofExcept_ok hd] at h
      unfold submit at h
      rw [runStale_ofExcept_ok hp] at h
      dsimp only at h
      split_ifs at h with hk
      · cases h
      · exact ⟨⟨payload, hp⟩, ⟨deadline, hd⟩, by simpa using hk⟩

/-- The second half finds the same work and changes nothing, or inserts the execution. -/
theorem runStale_submitSecond_ok {r : ExecutionHandle × Journal}
    (h : (store.submitSecond w input timeout id key now).runStale snaps j = .ok r) :
    (∃ row, (snaps.getD 0 j).executions.get? id = some row ∧ row.Matches store w input id ∧
      r = (⟨id, row.workflow, row.version, row.status⟩, j)) ∨
    ∃ payload, store.dump input s!"input of execution {id}" = .ok payload ∧
      r.1 = ⟨id, w.name, w.version, .pending⟩ ∧ Inserted store w payload timeout id key now j r.2 := by
  have hs := submittable_of_runStale h
  obtain ⟨payload, hp⟩ := hs.payload
  rw [runStale_submitSecond hs hp] at h
  cases hrow : (snaps.getD 0 j).executions.get? id with
  | some row =>
    rw [hrow] at h
    dsimp only at h
    split_ifs at h with hm
    cases h
    exact .inl ⟨row, rfl, ⟨hm.1, hm.2.1, hm.2.2.1, hm.2.2.2 ▸ hp⟩, rfl⟩
  | none =>
    rw [hrow] at h
    exact .inr ⟨payload, hp, run_insertExecution h⟩

theorem run_submitSecond {r : ExecutionHandle × Journal}
    (h : (store.submitSecond w input timeout id key now).run j = .ok r) :
    (∃ row, j.executions.get? id = some row ∧ row.Matches store w input id ∧
      r = (⟨id, row.workflow, row.version, row.status⟩, j)) ∨
    ∃ payload, store.dump input s!"input of execution {id}" = .ok payload ∧
      r.1 = ⟨id, w.name, w.version, .pending⟩ ∧ Inserted store w payload timeout id key now j r.2 := by
  rw [← runStale_nil] at h
  exact runStale_submitSecond_ok h

/-- A new execution of a definition that was checked is inserted. -/
theorem exists_run_submitSecond (hs : Submittable store input timeout id key now) (hd : w.stepIds.Nodup)
    (ha : j.executions.get? id = none) (hn : ∀ s ∈ w.stepIds, j.steps.get? (id, s) = none) :
    ∃ r, (store.submitSecond w input timeout id key now).run j = .ok r := by
  obtain ⟨payload, hp⟩ := hs.payload
  rw [← runStale_nil, runStale_submitSecond hs hp, List.getD_nil, ha]
  exact exists_run_insertExecution hd ha hn

end JournalStore

/-- The execution is new: its row, the rows of its steps and its event are inserted, and its definition if that was
new, and the handle is PENDING. -/
def SubmitsNew (store : JournalStore V) (w : Workflow V) (input : V) (timeout : Option Seconds) (id : String)
    (key : Option String) (now now' : Instant) (j j' : Journal) (handle : ExecutionHandle) : Prop :=
  handle = ⟨id, w.name, w.version, .pending⟩ ∧
  ∃ payload registered, store.dump input s!"input of execution {id}" = .ok payload ∧
    Registered store w now j registered ∧ Inserted store w payload timeout id key now' registered j'

/-- The execution is there with the same work; nothing is written, and the handle has the stored status. -/
def FindsSame (store : JournalStore V) (w : Workflow V) (input : V) (id : String) (j j' : Journal)
    (handle : ExecutionHandle) : Prop :=
  ∃ row, j.executions.get? id = some row ∧ row.Matches store w input id ∧
    handle = ⟨id, row.workflow, row.version, row.status⟩ ∧ j' = j

/-- A submission is new, or found, or raises and leaves every table as it was. -/
def AllOrNothing (store : JournalStore V) (w : Workflow V) (input : V) (timeout : Option Seconds) (id : String)
    (key : Option String) (now now' : Instant) (j : Journal) : Except Exc ExecutionHandle × Journal → Prop
  | (.ok handle, j') => Xor (SubmitsNew store w input timeout id key now now' j j' handle)
      (FindsSame store w input id j j' handle)
  | (.error _, j') => j' = j

/-- Nothing between the two transactions of a first registration refuses the execution, which is new. -/
def RegistersForGood (store : JournalStore V) (w : Workflow V) (input : V) (timeout : Option Seconds) (id : String)
    (key : Option String) (now : Instant) (j : Journal) : Prop :=
  timeout.any Seconds.notPositive = false → Registrable store w →
    j.definitions.get? (w.name, w.version) = none →
    Submittable store input timeout id key now ∧ j.executions.get? id = none ∧
      ∀ s ∈ w.stepIds, j.steps.get? (id, s) = none

theorem Registered.executions {j' : Journal} (h : Registered store w now j j') : j'.executions = j.executions := by
  rcases h with ⟨_, -, -, rfl⟩ | ⟨_, _, -, -, -, rfl⟩ <;> rfl

theorem Registered.steps {j' : Journal} (h : Registered store w now j j') : j'.steps = j.steps := by
  rcases h with ⟨_, -, -, rfl⟩ | ⟨_, _, -, -, -, rfl⟩ <;> rfl

/-- A first registration is a change. -/
theorem Registered.ne {j' : Journal} (h : Registered store w now j j')
    (hn : j.definitions.get? (w.name, w.version) = none) : j' ≠ j := by
  rcases h with ⟨row, hrow, -, -⟩ | ⟨_, t, -, -, ht, rfl⟩
  · cases hrow.symm.trans hn
  · intro he
    have hget := Table.get?_insert? ht (w.name, w.version)
    have hdef : t = j.definitions := congrArg Journal.definitions he
    rw [if_pos rfl, hdef, hn] at hget
    cases hget

theorem not_findsSame_of_absent {j' : Journal} {handle : ExecutionHandle} (h : j.executions.get? id = none) :
    ¬ FindsSame store w input id j j' handle := by
  rintro ⟨row, hrow, -⟩
  cases hrow.symm.trans h

theorem not_submitsNew_of_present {now' : Instant} {j' : Journal} {handle : ExecutionHandle} {row : ExecutionRow}
    (h : j.executions.get? id = some row) : ¬ SubmitsNew store w input timeout id key now now' j j' handle := by
  rintro ⟨-, _, registered, -, hreg, hins⟩
  have ha := hins.absent
  rw [hreg.executions, h] at ha
  cases ha

end Halves

end Xyberos.Durable
