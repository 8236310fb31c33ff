import Xyberos.Durable.Submitting
import Mathlib.Logic.Function.Basic

/-!
# Xyberos.Durable.Resubmission — calls of `submit` with one execution id, in flight together

Each call is two transactions, and each transaction may read an older committed state than it writes on.  A `Field`
is the history of the journal and how far each caller is.  `Intact` is what the interleaving cannot break, whatever
is read: one set of rows and one event, and a reason for every answer.  What can go wrong is only that an `INSERT`
meets a row which its `SELECT` missed (`resubmission_iff`).
-/

set_option autoImplicit false

namespace Xyberos.Durable

open Txn

variable {V ι : Type}

/-! ## Callers -/

/-- The arguments of a call of `submit`, but for the execution id. -/
structure Submission (V : Type) where
  workflow : Workflow V
  input : V
  timeout : Option Seconds := none
  key : Option String := none

/-- How far a call is: before its first transaction, before its second one, at its end. -/
inductive Stage
  | registering
  | submitting
  | ended (result : Except Exc ExecutionHandle)
deriving DecidableEq

/-- The history of the journal, and the calls. -/
structure Field (ι : Type) where
  history : History
  stage : ι → Stage

/-- The next transaction of a caller, the time it reads, and how many commits ago the states are that its reads see. -/
structure Advance (ι : Type) where
  caller : ι
  now : Instant
  reads : List ℕ := []

/-- The states that the reads of a turn see. -/
def Advance.snapshots (x : Advance ι) (h : History) : List Journal :=
  x.reads.map fun n => (h.current :: h.older).getD n h.current

/-- The state that the first read of a turn sees. -/
def Advance.seen (x : Advance ι) (h : History) : Journal := (x.snapshots h).getD 0 h.current

/-- A commit. -/
def History.push (h : History) (j : Journal) : History := ⟨j, h.current :: h.older⟩

/-- One transaction of one caller. -/
def Field.exec [DecidableEq ι] (store : JournalStore V) (id : String) (calls : ι → Submission V) (s : Field ι)
    (x : Advance ι) : Field ι :=
  let c := calls x.caller
  match s.stage x.caller with
  | .registering =>
    match (store.submitFirst c.workflow c.timeout x.now).runStale (x.snapshots s.history) s.history.current with
    | .ok (_, j) => ⟨s.history.push j, Function.update s.stage x.caller .submitting⟩
    | .error e => ⟨s.history, Function.update s.stage x.caller (.ended (.error e))⟩
  | .submitting =>
    match (store.submitSecond c.workflow c.input c.timeout id c.key x.now).runStale (x.snapshots s.history)
      s.history.current with
    | .ok (handle, j) => ⟨s.history.push j, Function.update s.stage x.caller (.ended (.ok handle))⟩
    | .error e => ⟨s.history, Function.update s.stage x.caller (.ended (.error e))⟩
  | .ended _ => s

/-- Nobody has begun. -/
def Field.start (j : Journal) : Field ι := ⟨⟨j, []⟩, fun _ => .registering⟩

/-! ## What is promised -/

/-- `DurableConflictError` or `DurableVersionError`. -/
def Refusal (e : Exc) : Prop :=
  e.isInstance "DurableConflictError" = true ∨ e.isInstance "DurableVersionError" = true

/-- Nothing is stored under the id. -/
structure Journal.Lacks (j : Journal) (id : String) : Prop where
  execution : j.executions.get? id = none
  steps : ∀ s, j.steps.get? (id, s) = none
  events : ∀ e ∈ j.events, ¬ (e.executionId = id ∧ e.kind = .submitted)

/-- Exactly one set of rows of a call and one SUBMITTED event are stored under the id. -/
structure Journal.Holds (store : JournalStore V) (j : Journal) (id : String) (c : Submission V) (row : ExecutionRow) :
    Prop where
  execution : j.executions.get? id = some row
  matching : row.Matches store c.workflow c.input id
  steps : ∀ s, j.steps.get? (id, s) = if s ∈ c.workflow.stepIds then some { state := .pending } else none
  events : (j.events.filter fun e => e.executionId = id ∧ e.kind = .submitted).length = 1

/-- The definition of the call is not in the table under another fingerprint. -/
def Journal.Admits (store : JournalStore V) (j : Journal) (c : Submission V) : Prop :=
  ∀ row ∈ j.definitions.get? (c.workflow.name, c.workflow.version),
    row.fingerprint = store.definitionFingerprint c.workflow

/-- The promise of idempotence, for calls that began on the journal `j`. -/
structure Due (store : JournalStore V) (id : String) (calls : ι → Submission V) (j : Journal) (s : Field ι) :
    Prop where
  /-- a handle is of the stored row, which is of the same work -/
  handle : ∀ i handle, s.stage i = .ended (.ok handle) → ∃ row, s.history.current.executions.get? id = some row ∧
    row.Matches store (calls i).workflow (calls i).input id ∧ handle = ⟨id, row.workflow, row.version, row.status⟩
  /-- an error is one of the two, and the stored row is of other work -/
  error : ∀ i e, s.stage i = .ended (.error e) → Refusal e ∧ ∀ row, s.history.current.executions.get? id = some row →
    ¬ row.Matches store (calls i).workflow (calls i).input id
  atMostOne : s.history.current.Lacks id ∨ ∃ i row, s.history.current.Holds store id (calls i) row
  exactlyOne : (∃ i, j.Admits store (calls i)) → (∀ i, ∃ r, s.stage i = .ended r) →
    ∃ i row, s.history.current.Holds store id (calls i) row

/-- The arguments of the caller are accepted, and its `SELECT` does not miss a row that the `INSERT` meets. -/
def Advance.Clear (store : JournalStore V) (id : String) (calls : ι → Submission V) (s : Field ι) (x : Advance ι) : Prop :=
  let c := calls x.caller
  match s.stage x.caller with
  | .registering => c.timeout.any Seconds.notPositive = false ∧ Registrable store c.workflow ∧
      ((x.seen s.history).definitions.get? (c.workflow.name, c.workflow.version) = none →
        s.history.current.definitions.get? (c.workflow.name, c.workflow.version) = none)
  | .submitting => Submittable store c.input c.timeout id c.key x.now ∧
      ((x.seen s.history).executions.get? id = none → s.history.current.executions.get? id = none)
  | .ended _ => True

/-! ## Which errors there are -/

section Errors

variable {store : JournalStore V} {w : Workflow V} {input : V} {timeout : Option Seconds} {id : String}
  {key : Option String} {now : Instant} {snaps : List Journal} {j : Journal} {e : Exc}

theorem not_refusal_state (message : String) : ¬ Refusal (durableStateError message) := by
  simp [Refusal, durableStateError, xyberosError, Exc.isInstance]

theorem not_refusal_payload (message : String) : ¬ Refusal (durablePayloadError message) := by
  simp [Refusal, durablePayloadError, xyberosError, Exc.isInstance]

theorem not_refusal_validation (message : String) : ¬ Refusal (workflowValidationError message) := by
  simp [Refusal, workflowValidationError, xyberosError, Exc.isInstance]

theorem not_refusal_overflow (message : String) : ¬ Refusal (overflowError message) := by
  simp [Refusal, overflowError, Exc.isInstance]

theorem not_refusal_value (message : String) : ¬ Refusal (valueError message) := by
  simp [Refusal, valueError, Exc.isInstance]

theorem not_refusal_integrity : ¬ Refusal integrityError := by
  simp [Refusal, integrityError, Exc.isInstance]

theorem refusal_conflict (message : String) : Refusal (durableConflictError message) := .inl rfl

theorem refusal_version (message : String) : Refusal (durableVersionError message) := .inr rfl

theorem not_refusal_validate (h : w.validate = .error e) : ¬ Refusal e := by
  obtain ⟨message, rfl⟩ := w.checks_validate e h
  exact not_refusal_validation message

/-- A payload is refused with `DurablePayloadError`, or with what `json.dumps` raises. -/
theorem not_refusal_dump (hdumps : ∀ v e, store.values.dumps v = .raised e → ¬ Refusal e) {v : V} {what : String}
    (h : store.dump v what = .error e) : ¬ Refusal e := by
  unfold JournalStore.dump at h
  cases hd : store.values.dumps v with
  | rejected typeName =>
    rw [hd] at h
    cases h
    exact not_refusal_payload _
  | raised e' =>
    rw [hd] at h
    cases h
    exact hdumps v _ hd
  | text text =>
    rw [hd] at h
    dsimp only at h
    split_ifs at h
    cases h
    exact not_refusal_payload _

theorem not_refusal_toDelta {s : Seconds} (h : s.toDelta = .error e) : ¬ Refusal e := by
  cases s with
  | finite q =>
    unfold Seconds.toDelta at h
    dsimp only at h
    split_ifs at h <;> cases h <;> exact not_refusal_overflow _
  | infinite negative =>
    cases h
    exact not_refusal_overflow _
  | nan =>
    cases h
    exact not_refusal_value _

theorem not_refusal_deadlineAfter (h : deadlineAfter now timeout = .error e) : ¬ Refusal e := by
  cases timeout with
  | none => cases h
  | some s =>
    unfold deadlineAfter at h
    dsimp only at h
    cases hd : s.toDelta with
    | error e' =>
      rw [hd] at h
      cases h
      exact not_refusal_toDelta hd
    | ok delta =>
      rw [hd] at h
      change (addDelta now delta >>= fun deadline => pure (some deadline)) = _ at h
      unfold addDelta at h
      split_ifs at h
      · cases h
        exact not_refusal_overflow _
      · cases h

variable (hdumps : ∀ v e, store.values.dumps v = .raised e → ¬ Refusal e)
include hdumps

/-- An error of the first half: the definition that was read is another one, or the error is none of the two and the turn
was not clear. -/
theorem submitFirst_error (h : (store.submitFirst w timeout now).runStale snaps j = .error e) :
    (Refusal e ∧ timeout.any Seconds.notPositive = false ∧ Registrable store w ∧
      ∃ row, (snaps.getD 0 j).definitions.get? (w.name, w.version) = some row ∧
        row.fingerprint ≠ store.definitionFingerprint w) ∨
    (¬ Refusal e ∧ ¬ (timeout.any Seconds.notPositive = false ∧ Registrable store w ∧
      ((snaps.getD 0 j).definitions.get? (w.name, w.version) = none →
        j.definitions.get? (w.name, w.version) = none))) := by
  unfold JournalStore.submitFirst at h
  split_ifs at h with ht
  · cases h
    exact .inr ⟨not_refusal_state _, fun hc => by rw [hc.1] at ht; cases ht⟩
  cases hv : w.validate with
  | error e' =>
    unfold JournalStore.registerDefinition at h
    rw [runStale_ofExcept_error hv] at h
    cases h
    exact .inr ⟨not_refusal_validate hv, fun hc => by cases hv.symm.trans hc.2.1.validated⟩
  | ok u =>
    cases hm : store.dump (store.values.ofDict w.metadata) s!"metadata of workflow {reprStr w.name}" with
    | error e' =>
      unfold JournalStore.registerDefinition at h
      rw [runStale_ofExcept_ok hv, runStale_ofExcept_error hm] at h
      cases h
      refine .inr ⟨not_refusal_dump hdumps hm, fun hc => ?_⟩
      obtain ⟨metadata, hm'⟩ := hc.2.1.metadata
      cases hm.symm.trans hm'
    | ok metadata =>
      have ht' : timeout.any Seconds.notPositive = false := by simpa using ht
      rw [JournalStore.runStale_registerDefinition hv hm] at h
      cases hk : (snaps.getD 0 j).definitions.get? (w.name, w.version) with
      | some existing =>
        rw [hk] at h
        dsimp only at h
        split_ifs at h with hf
        cases h
        exact .inl ⟨refusal_version _, ht', ⟨hv, metadata, hm⟩, existing, rfl, hf⟩
      | none =>
        rw [hk] at h
        dsimp only at h
        cases hi : j.definitions.insert? (w.name, w.version) ⟨store.definitionFingerprint w, metadata, now⟩ with
        | some t =>
          rw [hi] at h
          cases h
        | none =>
          rw [hi] at h
          cases h
          refine .inr ⟨not_refusal_integrity, fun hc => ?_⟩
          rw [Table.insert?_eq_none_iff, hc.2.2 rfl] at hi
          cases hi

/-- An error of the second half: the execution that was read is of other work, or the error is none of the two and the
turn was not clear. -/
theorem submitSecond_error (hd : w.stepIds.Nodup)
    (hfree : j.executions.get? id = none → ∀ s, j.steps.get? (id, s) = none)
    (h : (store.submitSecond w input timeout id key now).runStale snaps j = .error e) :
    (Refusal e ∧ Submittable store input timeout id key now ∧
      ∃ row, (snaps.getD 0 j).executions.get? id = some row ∧ ¬ row.Matches store w input id) ∨
    (¬ Refusal e ∧ ¬ (Submittable store input timeout id key now ∧
      ((snaps.getD 0 j).executions.get? id = none → j.executions.get? id = none))) := by
  cases hp : store.dump input s!"input of execution {id}" with
  | error e' =>
    unfold JournalStore.submitSecond at h
    rw [runStale_ofExcept_error hp] at h
    cases h
    refine .inr ⟨not_refusal_dump hdumps hp, fun hc => ?_⟩
    obtain ⟨payload, hp'⟩ := hc.1.payload
    cases hp.symm.trans hp'
  | ok payload =>
    cases hdead : deadlineAfter now timeout with
    | error e' =>
      unfold JournalStore.submitSecond at h
      rw [runStale_ofExcept_ok hp, runStale_ofExcept_error hdead] at h
      cases h
      refine .inr ⟨not_refusal_deadlineAfter hdead, fun hc => ?_⟩
      obtain ⟨deadline, hdead'⟩ := hc.1.deadline
      cases hdead.symm.trans hdead'
    | ok deadline =>
      by_cases hk : key.any isBlank = true
      · unfold JournalStore.submitSecond JournalStore.submit at h
        rw [runStale_ofExcept_ok hp, runStale_ofExcept_ok hdead, runStale_ofExcept_ok hp] at h
        dsimp only at h
        rw [if_pos hk] at h
        cases h
        exact .inr ⟨not_refusal_state _, fun hc => by rw [hc.1.key] at hk; cases hk⟩
      · have hs : Submittable store input timeout id key now := ⟨⟨payload, hp⟩, ⟨deadline, hdead⟩, by simpa using hk⟩
        rw [JournalStore.runStale_submitSecond hs hp] at h
        cases hrow : (snaps.getD 0 j).executions.get? id with
        | some row =>
          rw [hrow] at h
          dsimp only at h
          split_ifs at h with hm
          cases h
          refine .inl ⟨refusal_conflict _, hs, row, rfl, fun hmatch => hm ?_⟩
          exact ⟨hmatch.workflow, hmatch.version, hmatch.fingerprint, Except.ok.inj (hmatch.input.symm.trans hp)⟩
        | none =>
          rw [hrow] at h
          dsimp only at h
          cases hcur : j.executions.get? id with
          | none =>
            have hins : ∃ r, (JournalStore.insertExecution store w payload timeout id key now).run j = .ok r :=
              JournalStore.exists_run_insertExecution hd hcur fun s _ => hfree hcur s
            obtain ⟨r, hr⟩ := hins
            cases h.symm.trans hr
          | some row =>
            rw [JournalStore.run_insertExecution_of_some hcur] at h
            cases h
            exact .inr ⟨not_refusal_integrity, fun hc => by cases hc.2 rfl⟩

end Errors

/-! ## What no interleaving breaks -/

/-- The definitions and the execution of one journal are in another. -/
structure Journal.Kept (id : String) (j j' : Journal) : Prop where
  definitions : ∀ k d, j.definitions.get? k = some d → j'.definitions.get? k = some d
  execution : ∀ row, j.executions.get? id = some row → j'.executions.get? id = some row

/-- The call found an execution or a definition that is not its own. -/
def Conflicted (store : JournalStore V) (id : String) (j : Journal) (c : Submission V) : Prop :=
  (∃ row, j.executions.get? id = some row ∧ ¬ row.Matches store c.workflow c.input id) ∨
  ∃ d, j.definitions.get? (c.workflow.name, c.workflow.version) = some d ∧
    d.fingerprint ≠ store.definitionFingerprint c.workflow

/-- The definition of the call is in the table. -/
def Known (store : JournalStore V) (j : Journal) (c : Submission V) : Prop :=
  ∃ d, j.definitions.get? (c.workflow.name, c.workflow.version) = some d ∧
    d.fingerprint = store.definitionFingerprint c.workflow

/-- A handle is of the stored row. -/
def Answers (store : JournalStore V) (id : String) (j : Journal) (c : Submission V) (handle : ExecutionHandle) : Prop :=
  ∃ row, j.executions.get? id = some row ∧ row.Matches store c.workflow c.input id ∧
    handle = ⟨id, row.workflow, row.version, row.status⟩

/-- What holds in every state, whatever was read. -/
structure Intact (store : JournalStore V) (id : String) (calls : ι → Submission V) (j : Journal) (s : Field ι) :
    Prop where
  older : ∀ old ∈ s.history.older, old.Kept id s.history.current
  stored : s.history.current.Lacks id ∨
    ∃ i row, s.history.current.Holds store id (calls i) row ∧ Known store s.history.current (calls i)
  submitting : ∀ i, s.stage i = .submitting →
    (calls i).workflow.validate = .ok () ∧ Known store s.history.current (calls i)
  handle : ∀ i handle, s.stage i = .ended (.ok handle) → Answers store id s.history.current (calls i) handle
  refused : ∀ i e, s.stage i = .ended (.error e) → Refusal e → Conflicted store id s.history.current (calls i)
  /-- a definition that was registered meanwhile has a call that will store the execution, or has, or has failed -/
  registered : ∀ k d, s.history.current.definitions.get? k = some d → j.definitions.get? k = some d ∨
    (∃ i, s.stage i = .submitting) ∨ (∃ row, s.history.current.executions.get? id = some row) ∨
      ∃ i e, s.stage i = .ended (.error e) ∧ ¬ Refusal e

section Intact

variable {store : JournalStore V} {id : String} {calls : ι → Submission V} {j j' : Journal} {s : Field ι}

theorem Journal.Kept.refl (id : String) (j : Journal) : j.Kept id j := ⟨fun _ _ h => h, fun _ h => h⟩

theorem Journal.Kept.trans {j'' : Journal} (h : j.Kept id j') (h' : j'.Kept id j'') : j.Kept id j'' :=
  ⟨fun k d hd => h'.definitions k d (h.definitions k d hd), fun row hrow => h'.execution row (h.execution row hrow)⟩

theorem Conflicted.kept {c : Submission V} (h : Conflicted store id j c) (hk : j.Kept id j') :
    Conflicted store id j' c := by
  rcases h with ⟨row, hrow, hm⟩ | ⟨d, hd, hf⟩
  · exact .inl ⟨row, hk.execution row hrow, hm⟩
  · exact .inr ⟨d, hk.definitions _ d hd, hf⟩

theorem Known.kept {c : Submission V} (h : Known store j c) (hk : j.Kept id j') : Known store j' c := by
  obtain ⟨d, hd, hf⟩ := h
  exact ⟨d, hk.definitions _ d hd, hf⟩

theorem Answers.kept {c : Submission V} {handle : ExecutionHandle} (h : Answers store id j c handle)
    (hk : j.Kept id j') : Answers store id j' c handle := by
  obtain ⟨row, hrow, hm, he⟩ := h
  exact ⟨row, hk.execution row hrow, hm, he⟩

/-- A row that is stored is the row of one of the calls. -/
theorem Intact.holds (h : Intact store id calls j s) {row : ExecutionRow}
    (hrow : s.history.current.executions.get? id = some row) :
    ∃ i, s.history.current.Holds store id (calls i) row ∧ Known store s.history.current (calls i) := by
  rcases h.stored with hl | ⟨i, row', hh, hk⟩
  · cases hrow.symm.trans hl.execution
  · cases hrow.symm.trans hh.execution
    exact ⟨i, hh, hk⟩

/-- What is read is still there. -/
theorem Intact.seen (h : Intact store id calls j s) (x : Advance ι) :
    (x.seen s.history).Kept id s.history.current := by
  refine getD_of_forall (P := fun old : Journal => old.Kept id s.history.current) (fun old hold => ?_) (.refl _ _) 0
  obtain ⟨n, -, rfl⟩ := List.mem_map.mp hold
  refine getD_of_forall (P := fun old : Journal => old.Kept id s.history.current) (fun old hold => ?_) (.refl _ _) n
  rcases List.mem_cons.mp hold with rfl | hold
  · exact .refl _ _
  · exact h.older old hold

theorem Intact.push_older (h : Intact store id calls j s) (hk : s.history.current.Kept id j') :
    ∀ old ∈ (s.history.push j').older, old.Kept id j' := by
  intro old hold
  rcases List.mem_cons.mp hold with rfl | hold
  · exact hk
  · exact (h.older old hold).trans hk

/-- A call whose work equals the stored one is not refused. -/
theorem Intact.not_matches (h : Intact store id calls j s) {c : Submission V}
    (hc : Conflicted store id s.history.current c) {row : ExecutionRow}
    (hrow : s.history.current.executions.get? id = some row) : ¬ row.Matches store c.workflow c.input id := by
  intro hm
  rcases hc with ⟨row', hrow', hn⟩ | ⟨d, hd, hf⟩
  · cases hrow.symm.trans hrow'
    exact hn hm
  · -- the stored row has the fingerprint of its definition
    obtain ⟨i, hh, d', hd', hf'⟩ := h.holds hrow
    rw [← hh.matching.workflow, ← hh.matching.version, hm.workflow, hm.version, hd] at hd'
    cases hd'
    rw [← hh.matching.fingerprint, hm.fingerprint] at hf'
    exact hf hf'

/-- **The promise, reduced.**  It holds when every error is one of the two. -/
theorem due_iff (h : Intact store id calls j s) :
    Due store id calls j s ↔ ∀ i e, s.stage i = .ended (.error e) → Refusal e := by
  constructor
  · exact fun hd i e hi => (hd.error i e hi).1
  · intro he
    have hstored : ∀ row, s.history.current.executions.get? id = some row →
        ∃ i row, s.history.current.Holds store id (calls i) row := by
      intro row hrow
      obtain ⟨i, hh, -⟩ := h.holds hrow
      exact ⟨i, row, hh⟩
    refine ⟨h.handle, fun i e hi => ?_, ?_, ?_⟩
    · exact ⟨he i e hi, fun row hrow => h.not_matches (h.refused i e hi (he i e hi)) hrow⟩
    · exact h.stored.imp (fun hl => hl) fun ⟨i, row, hh, _⟩ => ⟨i, row, hh⟩
    · rintro ⟨i, hadmits⟩ hended
      obtain ⟨r, hr⟩ := hended i
      cases r with
      | ok handle =>
        obtain ⟨row, hrow, -⟩ := h.handle i handle hr
        exact hstored row hrow
      | error e =>
        rcases h.refused i e hr (he i e hr) with ⟨row, hrow, -⟩ | ⟨d, hd, hf⟩
        · exact hstored row hrow
        -- the definition in its way came from another call
        · rcases h.registered _ d hd with h₀ | ⟨i', hi'⟩ | ⟨row, hrow⟩ | ⟨i', e', hi', hn⟩
          · exact absurd (hadmits d h₀) hf
          · obtain ⟨r', hr'⟩ := hended i'
            cases hi'.symm.trans hr'
          · exact hstored row hrow
          · exact absurd (he i' e' hi') hn

theorem intact_start (hj : j.Lacks id) : Intact store id calls j (Field.start j) where
  older := fun _ hold => by cases hold
  stored := .inl hj
  submitting := fun _ hi => by cases hi
  handle := fun _ _ hi => by cases hi
  refused := fun _ _ hi => by cases hi
  registered := fun _ _ hd => .inl hd

/-- Definitions do not touch what is stored under the id. -/
theorem Intact.stored_of_definitions (h : Intact store id calls j s) {t : Table (String × String) DefinitionRow}
    (hk : s.history.current.Kept id { s.history.current with definitions := t }) :
    Journal.Lacks { s.history.current with definitions := t } id ∨
      ∃ i row, Journal.Holds store { s.history.current with definitions := t } id (calls i) row ∧
        Known store { s.history.current with definitions := t } (calls i) := by
  rcases h.stored with hl | ⟨i, row, hh, hknown⟩
  · exact .inl ⟨hl.execution, hl.steps, hl.events⟩
  · exact .inr ⟨i, row, ⟨hh.execution, hh.matching, hh.steps, hh.events⟩, hknown.kept hk⟩

/-- Nothing is stored if the execution is not. -/
theorem Intact.lacks (h : Intact store id calls j s) (hn : s.history.current.executions.get? id = none) :
    s.history.current.Lacks id := by
  rcases h.stored with hl | ⟨i, row, hh, -⟩
  · exact hl
  · cases hn.symm.trans hh.execution

variable [DecidableEq ι]

/-- A turn of `i`, which goes on to `stage`, and after which the history is `h'`. -/
theorem Intact.next (h : Intact store id calls j s) {h' : History} {i : ι} {stage : Stage}
    (hlive : ∀ r, s.stage i ≠ .ended r) (hk : s.history.current.Kept id h'.current)
    (holder : ∀ old ∈ h'.older, old.Kept id h'.current)
    (hstored : h'.current.Lacks id ∨ ∃ i row, h'.current.Holds store id (calls i) row ∧ Known store h'.current (calls i))
    (hsubmitting : stage = .submitting → (calls i).workflow.validate = .ok () ∧ Known store h'.current (calls i))
    (hhandle : ∀ handle, stage = .ended (.ok handle) → Answers store id h'.current (calls i) handle)
    (hrefused : ∀ e, stage = .ended (.error e) → Refusal e → Conflicted store id h'.current (calls i))
    (hnew : ∀ k d, h'.current.definitions.get? k = some d → s.history.current.definitions.get? k = some d ∨
      stage = .submitting)
    (hleft : s.stage i = .submitting → (∃ row, h'.current.executions.get? id = some row) ∨
      ∃ e, stage = .ended (.error e) ∧ ¬ Refusal e) :
    Intact store id calls j ⟨h', Function.update s.stage i stage⟩ := by
  have other : ∀ {i' : ι} {st : Stage}, Function.update s.stage i stage i' = st →
      (i' = i ∧ stage = st) ∨ (i' ≠ i ∧ s.stage i' = st) := by
    intro i' st hi'
    by_cases he : i' = i
    · subst he
      rw [Function.update_self] at hi'
      exact .inl ⟨rfl, hi'⟩
    · rw [Function.update_of_ne he] at hi'
      exact .inr ⟨he, hi'⟩
  have own : Function.update s.stage i stage i = stage := Function.update_self ..
  have kept : ∀ {i' : ι} {st : Stage}, i' ≠ i → s.stage i' = st → Function.update s.stage i stage i' = st := by
    intro i' st he hi'
    rw [Function.update_of_ne he, hi']
  refine ⟨holder, hstored, fun i' hi' => ?_, fun i' handle hi' => ?_, fun i' e hi' hr => ?_, fun k d hd => ?_⟩
  · rcases other hi' with ⟨rfl, hst⟩ | ⟨-, hst⟩
    · exact hsubmitting hst
    · obtain ⟨hv, hknown⟩ := h.submitting i' hst
      exact ⟨hv, hknown.kept hk⟩
  · rcases other hi' with ⟨rfl, hst⟩ | ⟨-, hst⟩
    · exact hhandle handle hst
    · exact (h.handle i' handle hst).kept hk
  · rcases other hi' with ⟨rfl, hst⟩ | ⟨-, hst⟩
    · exact hrefused e hst hr
    · exact (h.refused i' e hst hr).kept hk
  · rcases hnew k d hd with hd | hst
    · rcases h.registered k d hd with h₀ | ⟨i', hi'⟩ | ⟨row, hrow⟩ | ⟨i', e, hi', hn⟩
      · exact .inl h₀
      · by_cases he : i' = i
        · subst he
          rcases hleft hi' with hrow | ⟨e, hst, hn⟩
          · exact .inr (.inr (.inl hrow))
          · exact .inr (.inr (.inr ⟨i', e, own.trans hst, hn⟩))
        · exact .inr (.inl ⟨i', kept he hi'⟩)
      · exact .inr (.inr (.inl ⟨row, hk.execution row hrow⟩))
      · refine .inr (.inr (.inr ⟨i', e, kept ?_ hi', hn⟩))
        rintro rfl
        exact hlive _ hi'
    · exact .inr (.inl ⟨i, own.trans hst⟩)

/-! ## One transaction of one caller -/

theorem kept_of_insert {k : String × String} {d : DefinitionRow} {t : Table (String × String) DefinitionRow}
    (h : j.definitions.insert? k d = some t) : j.Kept id { j with definitions := t } := by
  refine ⟨fun k' d' hd' => ?_, fun _ hrow => hrow⟩
  show t.get? k' = some d'
  rw [Table.get?_insert? h, if_neg ?_]
  · exact hd'
  · rintro rfl
    cases (Table.get?_of_insert? h).symm.trans hd'

section Inserted

variable {w : Workflow V} {payload : String} {timeout : Option Seconds} {key : Option String} {now : Instant}

theorem Inserted.kept (h : Inserted store w payload timeout id key now j j') : j.Kept id j' := by
  refine ⟨fun k d hd => h.definitions ▸ hd, fun row hrow => ?_⟩
  cases h.absent.symm.trans hrow

theorem Inserted.row (h : Inserted store w payload timeout id key now j j') :
    j'.executions.get? id = some (pendingRow store w payload timeout now) := by
  rw [h.execution, if_pos rfl]

/-- The first set of rows and the first event under an id. -/
theorem Inserted.holds {c : Submission V} (h : Inserted store c.workflow payload timeout id key now j j')
    (hj : j.Lacks id) (hp : store.dump c.input s!"input of execution {id}" = .ok payload) :
    j'.Holds store id c (pendingRow store c.workflow payload timeout now) where
  execution := h.row
  matching := ⟨rfl, rfl, rfl, hp⟩
  steps := by
    intro s
    rw [h.steps, hj.steps]
    simp
  events := by
    have hnone : j.events.filter (fun e => e.executionId = id ∧ e.kind = .submitted) = [] :=
      List.filter_eq_nil_iff.mpr fun e he => by simpa using hj.events e he
    rw [h.events, List.filter_append, hnone]
    simp

end Inserted

/-- **No turn breaks what is stored**, whatever it reads. -/
theorem Intact.exec (hdumps : ∀ v e, store.values.dumps v = .raised e → ¬ Refusal e)
    (h : Intact store id calls j s) (x : Advance ι) : Intact store id calls j (s.exec store id calls x) := by
  have hseen := h.seen x
  unfold Advance.seen at hseen
  unfold Field.exec
  dsimp only
  cases hst : s.stage x.caller with
  | ended r =>
    dsimp only
    exact h
  | registering =>
    have hlive : ∀ r, s.stage x.caller ≠ .ended r := by simp [hst]
    have hnot : s.stage x.caller ≠ .submitting := by simp [hst]
    dsimp only
    cases hr : (store.submitFirst (calls x.caller).workflow (calls x.caller).timeout x.now).runStale
        (x.snapshots s.history) s.history.current with
    | ok r =>
      obtain ⟨a, j'⟩ := r
      obtain ⟨-, hreg, ⟨d, hd, hf, rfl⟩ | ⟨metadata, t, -, -, hi, rfl⟩⟩ := JournalStore.runStale_submitFirst hr
      · -- the definition was there
        refine h.next hlive (.refl _ _) (h.push_older (.refl _ _)) h.stored (fun _ => ?_) ?_ ?_ (fun _ _ hd => .inl hd)
          fun hs => absurd hs hnot
        · exact ⟨hreg.validated, d, hseen.definitions _ d hd, hf⟩
        · simp
        · simp
      · -- the definition is new
        have hk : s.history.current.Kept id { s.history.current with definitions := t } := kept_of_insert hi
        refine h.next hlive hk (h.push_older hk) (h.stored_of_definitions hk) (fun _ => ?_) ?_ ?_
          (fun _ _ _ => .inr rfl) fun hs => absurd hs hnot
        · exact ⟨hreg.validated, ⟨_, metadata, x.now⟩, (Table.get?_insert? hi _).trans (if_pos rfl), rfl⟩
        · simp
        · simp
    | error e =>
      refine h.next hlive (.refl _ _) h.older h.stored (by simp) (by simp) ?_ (fun _ _ hd => .inl hd)
        fun hs => absurd hs hnot
      rintro e' he hrefusal
      cases he
      rcases submitFirst_error hdumps hr with ⟨-, -, -, d, hd, hf⟩ | ⟨hn, -⟩
      · exact .inr ⟨d, hseen.definitions _ d hd, hf⟩
      · exact absurd hrefusal hn
  | submitting =>
    have hlive : ∀ r, s.stage x.caller ≠ .ended r := by simp [hst]
    obtain ⟨hvalid, hknown⟩ := h.submitting x.caller hst
    dsimp only
    cases hr : (store.submitSecond (calls x.caller).workflow (calls x.caller).input (calls x.caller).timeout id
        (calls x.caller).key x.now).runStale (x.snapshots s.history) s.history.current with
    | ok r =>
      obtain ⟨handle, j'⟩ := r
      obtain ⟨row, hrow, hm, he⟩ | ⟨payload, hp, hhandle, hins⟩ := JournalStore.runStale_submitSecond_ok hr
      · -- the execution is there
        cases he
        have hrow' := hseen.execution row hrow
        refine h.next hlive (.refl _ _) (h.push_older (.refl _ _)) h.stored (by simp) ?_ (by simp)
          (fun _ _ hd => .inl hd) fun _ => .inl ⟨row, hrow'⟩
        rintro handle' he
        cases he
        exact ⟨row, hrow', hm, rfl⟩
      · -- the execution is new
        dsimp only at hhandle hins
        subst hhandle
        have hh := hins.holds (h.lacks hins.absent) hp
        refine h.next hlive hins.kept (h.push_older hins.kept) (.inr ⟨x.caller, _, hh, hknown.kept hins.kept⟩)
          (by simp) ?_ (by simp) (fun _ _ hd => .inl (hins.definitions ▸ hd)) fun _ => .inl ⟨_, hins.row⟩
        rintro handle' he
        cases he
        exact ⟨_, hins.row, hh.matching, rfl⟩
    | error e =>
      have herror := submitSecond_error hdumps (graph_of_validate hvalid).nodup (fun hn => (h.lacks hn).steps) hr
      refine h.next hlive (.refl _ _) h.older h.stored (by simp) (by simp) ?_ (fun _ _ hd => .inl hd) fun _ => ?_
      · rintro e' he hrefusal
        cases he
        rcases herror with ⟨-, -, row, hrow, hm⟩ | ⟨hn, -⟩
        · exact .inl ⟨row, hseen.execution row hrow, hm⟩
        · exact absurd hrefusal hn
      · rcases herror with ⟨-, -, row, hrow, -⟩ | ⟨hn, -⟩
        · exact .inl ⟨row, hseen.execution row hrow⟩
        · exact .inr ⟨e, rfl, hn⟩

/-- The errors after a turn. -/
theorem refusals_update (h : ∀ i e, s.stage i = .ended (.error e) → Refusal e) (i : ι) {stage : Stage}
    (hstage : ∀ e, stage = .ended (.error e) → Refusal e) :
    ∀ i' e, Function.update s.stage i stage i' = .ended (.error e) → Refusal e := by
  intro i' e hi'
  by_cases he : i' = i
  · subst he
    rw [Function.update_self] at hi'
    exact hstage e hi'
  · rw [Function.update_of_ne he] at hi'
    exact h i' e hi'

/-- **One turn.**  The promise survives exactly the turns that are clear. -/
theorem due_exec_iff (hdumps : ∀ v e, store.values.dumps v = .raised e → ¬ Refusal e)
    (h : Intact store id calls j s) (hd : Due store id calls j s) (x : Advance ι) :
    Due store id calls j (s.exec store id calls x) ↔ x.Clear store id calls s := by
  have hrefusals := (due_iff h).mp hd
  rw [due_iff (h.exec hdumps x)]
  unfold Field.exec Advance.Clear
  dsimp only
  cases hst : s.stage x.caller with
  | ended r => exact iff_of_true hrefusals trivial
  | registering =>
    dsimp only
    cases hr : (store.submitFirst (calls x.caller).workflow (calls x.caller).timeout x.now).runStale
        (x.snapshots s.history) s.history.current with
    | ok r =>
      refine iff_of_true (refusals_update hrefusals _ (by simp)) ?_
      obtain ⟨ht, hreg, ⟨d, hd, -⟩ | ⟨metadata, t, -, -, hi, -⟩⟩ := JournalStore.runStale_submitFirst hr
      · refine ⟨ht, hreg, fun hn => ?_⟩
        cases hd.symm.trans hn
      · exact ⟨ht, hreg, fun _ => Table.get?_of_insert? hi⟩
    | error e =>
      rcases submitFirst_error hdumps hr with ⟨hrefusal, ht, hreg, d, hd, -⟩ | ⟨hn, hclear⟩
      · refine iff_of_true (refusals_update hrefusals _ fun e' he => ?_) ⟨ht, hreg, fun hn => ?_⟩
        · cases he
          exact hrefusal
        · cases hd.symm.trans hn
      · exact iff_of_false (fun hall => hn (hall x.caller e (Function.update_self ..))) hclear
  | submitting =>
    obtain ⟨hvalid, -⟩ := h.submitting x.caller hst
    dsimp only
    cases hr : (store.submitSecond (calls x.caller).workflow (calls x.caller).input (calls x.caller).timeout id
        (calls x.caller).key x.now).runStale (x.snapshots s.history) s.history.current with
    | ok r =>
      refine iff_of_true (refusals_update hrefusals _ (by simp)) ⟨JournalStore.submittable_of_runStale hr, ?_⟩
      intro hn
      obtain ⟨row, hrow, -, -⟩ | ⟨payload, -, -, hins⟩ := JournalStore.runStale_submitSecond_ok hr
      · cases hrow.symm.trans hn
      · exact hins.absent
    | error e =>
      rcases submitSecond_error hdumps (graph_of_validate hvalid).nodup (fun hn => (h.lacks hn).steps) hr with
        ⟨hrefusal, hs, row, hrow, -⟩ | ⟨hn, hclear⟩
      · refine iff_of_true (refusals_update hrefusals _ fun e' he => ?_) ⟨hs, fun hn => ?_⟩
        · cases he
          exact hrefusal
        · cases hrow.symm.trans hn
      · exact iff_of_false (fun hall => hn (hall x.caller e (Function.update_self ..))) hclear

end Intact

instance {α : Type} (x : Except Exc α) : Decidable (∃ a, x = .ok a) :=
  match x with
  | .ok a => .isTrue ⟨a, rfl⟩
  | .error _ => .isFalse fun ⟨_, h⟩ => nomatch h

instance (store : JournalStore V) (w : Workflow V) : Decidable (Registrable store w) :=
  decidable_of_iff (w.validate = .ok () ∧ ∃ text, store.dump (store.values.ofDict w.metadata)
    s!"metadata of workflow {reprStr w.name}" = .ok text) ⟨fun h => ⟨h.1, h.2⟩, fun h => ⟨h.1, h.2⟩⟩

instance (store : JournalStore V) (input : V) (timeout : Option Seconds) (id : String) (key : Option String)
    (now : Instant) : Decidable (Submittable store input timeout id key now) :=
  decidable_of_iff ((∃ text, store.dump input s!"input of execution {id}" = .ok text) ∧
    (∃ deadline, deadlineAfter now timeout = .ok deadline) ∧ key.any isBlank = false)
    ⟨fun h => ⟨h.1, h.2.1, h.2.2⟩, fun h => ⟨h.1, h.2, h.3⟩⟩

instance (store : JournalStore V) (id : String) (calls : ι → Submission V) (s : Field ι) (x : Advance ι) :
    Decidable (x.Clear store id calls s) :=
  match h : s.stage x.caller with
  | .registering => decidable_of_iff (_ ∧ _ ∧ (_ → _)) (by unfold Advance.Clear; dsimp only; rw [h])
  | .submitting => decidable_of_iff (_ ∧ (_ → _)) (by unfold Advance.Clear; dsimp only; rw [h])
  | .ended _ => .isTrue (by unfold Advance.Clear; dsimp only; rw [h]; trivial)

/-- A caller and its retry: both submit `oneStep`. -/
def resubmitted (_ : Bool) : Submission String := { workflow := oneStep, input := "null" }

end Xyberos.Durable
