import Xyberos.Durable.Record

/-!
# Xyberos.Durable.StoreSpec — when an operation is accepted, and the journal it leaves

One lemma an operation: its transaction succeeds exactly under the stated conditions on the record of its
execution, and then the journal is the old one with the stated rows changed.  A refused guarded write always
raises (`explainRefusedWrite_error`), so a conditional `UPDATE` is a precondition here.
-/

set_option autoImplicit false

namespace Xyberos.Durable

open Txn

variable {V : Type} {j j' : Journal} {c : Claim V} {now : Instant}

/-! ## Helpers of the store -/

section Helpers

variable {α : Type} {r : α × Journal}

theorem explainRefusedWrite_error (c : Claim V) (now : Instant) (expected : String) (allow : Bool)
    (j : Journal) : ∃ e, (explainRefusedWrite (α := α) c now expected allow).run j = .error e := by
  unfold explainRefusedWrite
  dsimp only
  rw [run_bind_of (run_select _ _)]
  cases j.executions.get? c.executionId with
  | none => exact ⟨_, rfl⟩
  | some row =>
    dsimp only
    split_ifs
    · exact ⟨_, rfl⟩
    · rw [run_bind_of (run_select _ _)]
      cases j.leases.get? c.executionId with
      | none => exact ⟨_, rfl⟩
      | some l =>
        dsimp only
        split_ifs
        · exact ⟨_, rfl⟩
        · exact ⟨_, rfl⟩

theorem run_appendEvent (e : EventRow) (j : Journal) : (appendEvent e).run j = .ok ((), j.appendEvent e) := rfl

theorem run_appendEvent_eq_ok {e : EventRow} {u : Unit} :
    (appendEvent e).run j = .ok (u, j') ↔ j' = j.appendEvent e := by
  rw [run_appendEvent, Except.ok.injEq, Prod.mk.injEq, eq_comm (a := j')]
  exact and_iff_right rfl

theorem run_executionRow {id : String} {k : ExecutionRow → Tx α} :
    (executionRow id >>= k).run j = .ok r ↔ ∃ row, j.executions.get? id = some row ∧ (k row).run j = .ok r := by
  rw [run_bind, executionRow, run_bind_of (run_select _ _)]
  cases j.executions.get? id with
  | none => simp [Except.bind]
  | some row => simp [Except.bind]

theorem run_stepRow {id s : String} {k : StepRow → Tx α} :
    (stepRow id s >>= k).run j = .ok r ↔ ∃ row, j.steps.get? (id, s) = some row ∧ (k row).run j = .ok r := by
  rw [run_bind, stepRow, run_bind_of (run_select _ _)]
  cases j.steps.get? (id, s) with
  | none => simp [Except.bind]
  | some row => simp [Except.bind]

theorem run_bind_ofExcept {β : Type} {x : Except Exc β} {k : β → Tx α} :
    (ofExcept x >>= k).run j = .ok r ↔ ∃ a, x = .ok a ∧ (k a).run j = .ok r := by
  rw [run_bind]
  cases x with
  | error e => simp [Except.bind, Except.map]
  | ok b => simp [Except.bind, Except.map]

theorem requireExecutionTransition_ok {s t : ExecutionStatus} {u : Unit} :
    requireExecutionTransition s t = .ok u ↔ t ∈ executionTransitions s := by
  unfold requireExecutionTransition
  split_ifs with h <;> simp [h]

theorem requireStepTransition_ok {s t : StepState} {u : Unit} :
    requireStepTransition s t = .ok u ↔ t ∈ stepTransitions s := by
  unfold requireStepTransition
  split_ifs with h <;> simp [h]

/-- The guarded write of a status is accepted exactly on a legal transition, without a cancellation request
(unless it is the acknowledgement), under the live lease of the claim. -/
theorem run_setExecutionStatus' {target : ExecutionStatus} {f : ExecutionRow → ExecutionRow} {allow : Bool}
    {k : Unit → Tx α} :
    (setExecutionStatus c target now f allow >>= k).run j = .ok r ↔
      ∃ row, j.executions.get? c.executionId = some row ∧ target ∈ executionTransitions row.status ∧
        (allow = true ∨ row.cancellationRequestedAt = none) ∧ j.LeaseGuard c now ∧
        (k ()).run (j.modifyExecution c.executionId fun r => f { r with status := target, updatedAt := now }) =
          .ok r := by
  rw [run_bind_eq_ok]
  unfold setExecutionStatus
  simp only [run_executionRow, run_bind_ofExcept, requireExecutionTransition_ok]
  constructor
  · rintro ⟨u, j₁, ⟨row, hrow, -, ht, h⟩, hk⟩
    rw [run_checked (explainRefusedWrite_error _ _ _ _)] at h
    obtain ⟨r', hr, -, hc, hg⟩ := Journal.updateExecution_snd_iff.mp h.1
    have hrr : r' = row := Option.some.inj (hr.symm.trans hrow)
    subst hrr
    have h2 := h.2
    rw [Journal.updateExecution_of_pos hr ⟨rfl, hc, hg⟩] at h2
    obtain ⟨rfl, rfl⟩ := Prod.mk.inj (Except.ok.inj h2)
    exact ⟨r', hr, ht, hc, hg, hk⟩
  · rintro ⟨row, hrow, ht, hc, hg, hk⟩
    refine ⟨(), _, ⟨row, hrow, (), ht, ?_⟩, hk⟩
    rw [run_checked (explainRefusedWrite_error _ _ _ _), Journal.updateExecution_of_pos hrow ⟨rfl, hc, hg⟩]
    exact ⟨rfl, rfl⟩

theorem run_setExecutionStatus {target : ExecutionStatus} {f : ExecutionRow → ExecutionRow} {k : Unit → Tx α} :
    (setExecutionStatus c target now f >>= k).run j = .ok r ↔
      ∃ row, (j.record c.executionId).Accepts c now row target ∧
        (k ()).run (j.modifyExecution c.executionId fun r => f { r with status := target, updatedAt := now }) =
          .ok r := by
  rw [run_setExecutionStatus']
  constructor
  · rintro ⟨row, hrow, ht, hc, hg, hk⟩
    exact ⟨row, ⟨hrow, ht, hc.resolve_left Bool.false_ne_true, hg⟩, hk⟩
  · rintro ⟨row, ⟨hrow, ht, hc, hg⟩, hk⟩
    exact ⟨row, hrow, ht, .inr hc, hg, hk⟩

/-- The guarded write of a step is accepted exactly on a legal transition from an allowed state under the live
lease of the claim; the status of the execution is not looked at. -/
theorem run_setStepState' {s : String} {target : StepState} {f : StepRow → StepRow}
    {allowed : Option (List StepState)} {k : Unit → Tx α} :
    (setStepState c s target now f allowed >>= k).run j = .ok r ↔
      ∃ st, (j.record c.executionId).AcceptsStep c now s st target ∧ st.state ∈ allowed.getD [st.state] ∧
        (k ()).run (j.modifyStep c.executionId s fun r => f { r with state := target }) = .ok r := by
  rw [run_bind_eq_ok]
  unfold setStepState
  simp only [run_stepRow, run_bind_ofExcept, requireStepTransition_ok]
  constructor
  · rintro ⟨u, j₁, ⟨row, hrow, -, ht, h⟩, hk⟩
    rw [run_checked (explainRefusedWrite_error _ _ _ _)] at h
    obtain ⟨r', hr, hs, hg⟩ := Journal.updateStep_snd_iff.mp h.1
    have hrr : r' = row := Option.some.inj (hr.symm.trans hrow)
    subst hrr
    have h2 := h.2
    rw [Journal.updateStep_of_pos hr ⟨hs, hg⟩] at h2
    obtain ⟨rfl, rfl⟩ := Prod.mk.inj (Except.ok.inj h2)
    exact ⟨r', ⟨hr, ht, hg⟩, hs, hk⟩
  · rintro ⟨row, ⟨hrow, ht, hg⟩, hs, hk⟩
    refine ⟨(), _, ⟨row, hrow, (), ht, ?_⟩, hk⟩
    rw [run_checked (explainRefusedWrite_error _ _ _ _), Journal.updateStep_of_pos hrow ⟨hs, hg⟩]
    exact ⟨rfl, rfl⟩

theorem run_setStepState {s : String} {target : StepState} {f : StepRow → StepRow} {k : Unit → Tx α} :
    (setStepState c s target now f >>= k).run j = .ok r ↔
      ∃ st, (j.record c.executionId).AcceptsStep c now s st target ∧
        (k ()).run (j.modifyStep c.executionId s fun r => f { r with state := target }) = .ok r := by
  rw [run_setStepState']
  constructor
  · rintro ⟨st, hst, -, hk⟩
    exact ⟨st, hst, hk⟩
  · rintro ⟨st, hst, hk⟩
    exact ⟨st, hst, List.mem_singleton_self _, hk⟩

/-- Under the guard, `_release_lease` ends the lease now. -/
theorem run_releaseLease' (now' : Instant) {k : Unit → Tx α} (h : j.LeaseGuard c now') :
    (releaseLease' c now >>= k).run j =
      (k ()).run (j.modifyLease c.executionId fun l => { l with expiresAt := now }) := by
  obtain ⟨l, hl, ho, hf, -⟩ := h
  have h1 : (execute fun j : Journal => (.ok (j.updateLease c.executionId
      (fun l => l.owner = c.owner ∧ l.fence = c.fence) fun l => { l with expiresAt := now }) :
      Except Exc (Journal × ℕ))).run j =
      .ok (1, j.modifyLease c.executionId fun l => { l with expiresAt := now }) := by
    rw [run_execute, Journal.updateLease_of_pos hl ⟨ho, hf⟩]
    rfl
  rw [run_bind, releaseLease', run_bind_of h1]
  rfl

/-- A write on the lease of the claim whose row count is checked. -/
theorem run_updateLease {f : LeaseRow → LeaseRow} {expected : String} {t : Tx α} :
    (execute (fun j : Journal => .ok (j.updateLease c.executionId
        (fun l => l.owner = c.owner ∧ l.fence = c.fence ∧ now < l.expiresAt) f)) >>= fun n =>
      if n ≠ 1 then explainRefusedWrite c now expected else t).run j = .ok r ↔
      j.LeaseGuard c now ∧ t.run (j.modifyLease c.executionId f) = .ok r := by
  rw [run_checked (explainRefusedWrite_error _ _ _ _), Journal.updateLease_snd_iff]
  constructor
  · rintro ⟨⟨l, hl, hp⟩, h⟩
    rw [Journal.updateLease_of_pos hl hp] at h
    exact ⟨⟨l, hl, hp⟩, h⟩
  · rintro ⟨⟨l, hl, hp⟩, h⟩
    refine ⟨⟨l, hl, hp⟩, ?_⟩
    rw [Journal.updateLease_of_pos hl hp]
    exact h

end Helpers

namespace JournalStore

variable {store : JournalStore V} {u : Unit}

/-! ## Leases -/

section Leases

theorem run_renewLease {ttl : Option Duration} {a : Claim V} :
    (store.renewLease c ttl now).run j = .ok (a, j') ↔
      j.LeaseGuard c now ∧ a = { c with expiresAt := now + ttl.getD store.leaseTtl } ∧
      j' = (j.modifyLease c.executionId fun l =>
        { l with expiresAt := now + ttl.getD store.leaseTtl, heartbeatAt := now }).appendEvent
          { executionId := c.executionId, kind := .leaseRenewed, «at» := now } := by
  unfold renewLease
  dsimp only
  rw [run_updateLease, run_bind_of (run_appendEvent _ _), run_pure_eq_ok]

theorem run_releaseLease :
    (releaseLease c now).run j = .ok (u, j') ↔
      j.LeaseGuard c now ∧ j' = j.modifyLease c.executionId fun l => { l with expiresAt := now } := by
  unfold releaseLease
  rw [run_updateLease, run_pure_eq_ok]
  exact and_congr_right fun _ => and_iff_right rfl

end Leases

/-! ## Steps -/

section Steps

theorem run_startStep {s : String} {key : Option String} {a : ℕ} :
    (startStep c s key now).run j = .ok (a, j') ↔
      ∃ row st, (j.record c.executionId).row = some row ∧
        (j.record c.executionId).AcceptsStep c now s st .running ∧
        st.state ∈ [StepState.pending, .running] ∧ a = st.attempts + 1 ∧
        j' = ((j.modifyStep c.executionId s fun st' =>
          { st' with state := .running, attempts := st.attempts + 1, startedAt := now, finishedAt := none
                     idempotencyKey := key }).modifyExecution c.executionId fun row =>
          { row with currentStep := s, attempts := row.attempts + 1, updatedAt := now }).appendEvent
          { executionId := c.executionId, kind := .stepStarted, «at» := now, stepId := s
            attempt := some (st.attempts + 1) } := by
  unfold startStep
  rw [run_stepRow]
  dsimp only
  simp only [run_setStepState', run_checked (explainRefusedWrite_error _ _ _ _), Journal.updateExecution_snd_iff]
  constructor
  · rintro ⟨st, hst, st', hs, hsource, ⟨row, hrow, hg⟩, h⟩
    obtain rfl : st' = st := Option.some.inj (hs.step_eq.symm.trans hst)
    rw [Journal.updateExecution_const hg, run_bind_of (run_appendEvent _ _), run_pure_eq_ok] at h
    exact ⟨row, st', hrow, hs, hsource, h.1, h.2⟩
  · rintro ⟨row, st, hrow, hs, hsource, rfl, rfl⟩
    refine ⟨st, hs.step_eq, st, hs, hsource, ⟨row, hrow, hs.guard⟩, ?_⟩
    rw [Journal.updateExecution_const, run_bind_of (run_appendEvent _ _), run_pure]
    exact hs.guard

theorem run_completeStep {s : String} {output : V} :
    (store.completeStep c s output now).run j = .ok (u, j') ↔
      ∃ payload st, store.dump output s!"output of step {reprStr s}" = .ok payload ∧
        (j.record c.executionId).AcceptsStep c now s st .succeeded ∧
        j' = ((j.modifyStep c.executionId s fun st' =>
          { st' with state := .succeeded, output := payload, finishedAt := now, errorType := none
                     errorMessage := none, stateDetail := none }).modifyExecution c.executionId fun row =>
          { row with currentStep := none, updatedAt := now }).appendEvent
          { executionId := c.executionId, kind := .stepSucceeded, «at» := now, stepId := s
            attempt := some (st.attempts + 1) } := by
  unfold completeStep
  simp only [run_bind_ofExcept, run_stepRow, run_setStepState, run_write, run_appendEvent_eq_ok]
  constructor
  · rintro ⟨payload, hp, st, hst, st', hs, rfl⟩
    obtain rfl : st' = st := Option.some.inj (hs.step_eq.symm.trans hst)
    refine ⟨payload, st', hp, hs, ?_⟩
    rw [Journal.updateExecution_const]
    exact hs.guard
  · rintro ⟨payload, st, hp, hs, rfl⟩
    refine ⟨payload, hp, st, hs.step_eq, st, hs, ?_⟩
    rw [Journal.updateExecution_const]
    exact hs.guard

theorem run_skipStep {s reason : String} :
    (skipStep c s reason now).run j = .ok (u, j') ↔
      ∃ st, (j.record c.executionId).AcceptsStep c now s st .skipped ∧
        j' = (j.modifyStep c.executionId s fun st' =>
          { st' with state := .skipped, finishedAt := now, stateDetail := reason }).appendEvent
          { executionId := c.executionId, kind := .stepSkipped, «at» := now, stepId := s, detail := reason } := by
  unfold skipStep
  simp only [run_setStepState, run_appendEvent_eq_ok]

theorem run_markStepOutcomeUnknown {s reason : String} :
    (markStepOutcomeUnknown c s reason now).run j = .ok (u, j') ↔
      ∃ row st, (j.record c.executionId).AcceptsStep c now s st .outcomeUnknown ∧
        (j.record c.executionId).Accepts c now row .waiting ∧
        j' = (((j.modifyStep c.executionId s fun st' =>
          { st' with state := .outcomeUnknown, stateDetail := reason }).modifyExecution c.executionId fun row =>
          { row with status := .waiting, updatedAt := now, currentStep := none }).appendEvent
          { executionId := c.executionId, kind := .stepOutcomeUnknown, «at» := now, stepId := s
            attempt := some st.attempts, detail := reason }).appendEvent
          { executionId := c.executionId, kind := .waiting, «at» := now, stepId := s
            detail := "outcome_unknown" } := by
  unfold markStepOutcomeUnknown
  simp only [run_stepRow, run_setStepState, run_setExecutionStatus, run_bind_of (run_appendEvent _ _),
    run_appendEvent_eq_ok]
  constructor
  · rintro ⟨st, hst, st', hs, row, hrow, rfl⟩
    obtain rfl : st' = st := Option.some.inj (hs.step_eq.symm.trans hst)
    exact ⟨row, st', hs, ⟨hrow.row_eq, hrow.legal, hrow.uncancelled, hrow.guard⟩, rfl⟩
  · rintro ⟨row, st, hs, hrow, rfl⟩
    exact ⟨st, hs.step_eq, st, hs, row, ⟨hrow.row_eq, hrow.legal, hrow.uncancelled, hrow.guard⟩, rfl⟩

theorem run_resolveStep {s : String} {state : StepState} {output : V} {detail : Option String} :
    (store.resolveStep c s state output detail now).run j = .ok (u, j') ↔
      ∃ payload row st,
        (if state = .succeeded then
          (store.dump output s!"output of step {reprStr s}").map some else .ok none) = .ok payload ∧
        (j.record c.executionId).AcceptsStep c now s st state ∧
        (j.record c.executionId).Accepts c now row .pending ∧
        j' = (((j.modifyStep c.executionId s fun st' =>
          { st' with state := state, output := payload, finishedAt := now, stateDetail := detail }).modifyExecution
            c.executionId fun row =>
          { row with status := .pending, updatedAt := now, currentStep := none }).modifyLease c.executionId
            fun l => { l with expiresAt := now }).appendEvent
          { executionId := c.executionId, kind := .recovered, «at» := now, stepId := s
            detail := resolvedDetail state detail } := by
  unfold resolveStep
  simp only [run_bind_ofExcept, run_setStepState, run_setExecutionStatus]
  constructor
  · rintro ⟨payload, hp, st, hs, row, hrow, h⟩
    rw [run_releaseLease' now, run_appendEvent_eq_ok] at h
    · exact ⟨payload, row, st, hp, hs, ⟨hrow.row_eq, hrow.legal, hrow.uncancelled, hrow.guard⟩, h⟩
    · exact hs.guard
  · rintro ⟨payload, row, st, hp, hs, hrow, rfl⟩
    refine ⟨payload, hp, st, hs, row, ⟨hrow.row_eq, hrow.legal, hrow.uncancelled, hrow.guard⟩, ?_⟩
    rw [run_releaseLease' now, run_appendEvent_eq_ok]
    exact hs.guard

end Steps

/-! ## Statuses -/

section Statuses

/-- Accepting a status under the guard does not depend on the rows of steps. -/
theorem accepts_modifyStep {id s : String} {f : StepRow → StepRow} {row : ExecutionRow}
    {target : ExecutionStatus} :
    ((j.modifyStep id s f).record c.executionId).Accepts c now row target ↔
      (j.record c.executionId).Accepts c now row target :=
  ⟨fun h => ⟨h.row_eq, h.legal, h.uncancelled, h.guard⟩, fun h => ⟨h.row_eq, h.legal, h.uncancelled, h.guard⟩⟩

theorem run_yieldExecution {reason : String} :
    (yieldExecution c reason now).run j = .ok (u, j') ↔
      ∃ row, (j.record c.executionId).Accepts c now row .pending ∧
        j' = ((j.modifyExecution c.executionId fun row =>
          { row with status := .pending, updatedAt := now, currentStep := none }).modifyLease c.executionId
            fun l => { l with expiresAt := now }).appendEvent
          { executionId := c.executionId, kind := .yielded, «at» := now, detail := reason } := by
  unfold yieldExecution
  rw [run_setExecutionStatus]
  refine exists_congr fun row => and_congr_right fun h => ?_
  rw [run_releaseLease' now, run_appendEvent_eq_ok]
  exact h.guard

theorem run_timeOutExecution {message : String} {a : StepState} :
    (timeOutExecution c message now).run j = .ok (a, j') ↔
      ∃ row, (j.record c.executionId).Accepts c now row .timedOut ∧ a = .failed ∧
        j' = (j.modifyExecution c.executionId fun row =>
          { row with status := .timedOut, updatedAt := now, failureKind := some .timedOut
                     failureMessage := message, currentStep := none }).appendEvent
          { executionId := c.executionId, kind := .timedOut, «at» := now, detail := message } := by
  unfold timeOutExecution
  simp only [run_setExecutionStatus, run_bind_of (run_appendEvent _ _), run_pure_eq_ok]

theorem run_failStep_deadline {s type message : String} {retryAt : Option Instant} {reason : Option String}
    (h : DeadlineReached c retryAt now) :
    failStep c s type message retryAt reason now =
      timeOutExecution c s!"step {reprStr s} failed with the deadline reached" now := by
  rw [failStep, if_pos h]

theorem run_failStep_failed {s type message : String} {reason : Option String} {a : StepState}
    (hd : ¬ DeadlineReached c none now) :
    (failStep c s type message none reason now).run j = .ok (a, j') ↔
      ∃ row st, (j.record c.executionId).AcceptsStep c now s st .failed ∧
        (j.record c.executionId).Accepts c now row .failed ∧ a = .failed ∧
        j' = (((j.modifyStep c.executionId s
            (Record.failedAttempt now type message reason .failed)).modifyExecution c.executionId fun row =>
          { row with status := .failed, updatedAt := now, failureKind := some .stepFailed
                     failureMessage := s!"step {reprStr s} failed: {type}", currentStep := none }).appendEvent
          { executionId := c.executionId, kind := .stepFailed, «at» := now, stepId := s
            attempt := some st.attempts, detail := type }).appendEvent
          { executionId := c.executionId, kind := .failed, «at» := now, stepId := s
            detail := s!"step_failed: {type}" } := by
  rw [failStep, if_neg hd]
  simp only [run_stepRow, run_setStepState, run_setExecutionStatus, run_bind_of (run_appendEvent _ _),
    run_pure_eq_ok, accepts_modifyStep]
  constructor
  · rintro ⟨st, hst, st', hs, row, hrow, rfl, rfl⟩
    obtain rfl : st' = st := Option.some.inj (hs.step_eq.symm.trans hst)
    exact ⟨row, st', hs, hrow, rfl, rfl⟩
  · rintro ⟨row, st, hs, hrow, rfl, rfl⟩
    exact ⟨st, hs.step_eq, st, hs, row, hrow, rfl, rfl⟩

theorem run_failStep_retry {s type message : String} {due : Instant} {reason : Option String} {a : StepState}
    (hd : ¬ DeadlineReached c (some due) now) :
    (failStep c s type message (some due) reason now).run j = .ok (a, j') ↔
      ∃ row st, (j.record c.executionId).AcceptsStep c now s st .pending ∧
        (j.record c.executionId).Accepts c now row .retrying ∧ a = .pending ∧
        j' = ((((((j.modifyStep c.executionId s
            (Record.failedAttempt now type message reason .pending)).upsertRetry c.executionId
            ⟨s, st.attempts + 1, due, type, reason⟩).modifyExecution c.executionId fun row =>
          { row with status := .retrying, updatedAt := now, currentStep := none }).appendEvent
          { executionId := c.executionId, kind := .stepFailed, «at» := now, stepId := s
            attempt := some st.attempts, detail := type }).modifyLease c.executionId
            fun l => { l with expiresAt := now }).appendEvent
          { executionId := c.executionId, kind := .retryScheduled, «at» := now, stepId := s
            attempt := some (st.attempts + 1), detail := s!"due={toIso due}" }) := by
  rw [failStep, if_neg hd]
  simp only [run_stepRow, run_setStepState, run_write, run_setExecutionStatus,
    run_bind_of (run_appendEvent _ _)]
  constructor
  · rintro ⟨st, hst, st', hs, row, hrow, h⟩
    obtain rfl : st' = st := Option.some.inj (hs.step_eq.symm.trans hst)
    rw [run_releaseLease' now, run_bind_of (run_appendEvent _ _), run_pure_eq_ok] at h
    · exact ⟨row, st', hs, ⟨hrow.row_eq, hrow.legal, hrow.uncancelled, hrow.guard⟩, h⟩
    · exact hs.guard
  · rintro ⟨row, st, hs, hrow, rfl, rfl⟩
    refine ⟨st, hs.step_eq, st, hs, row, ⟨hrow.row_eq, hrow.legal, hrow.uncancelled, hrow.guard⟩, ?_⟩
    rw [run_releaseLease' now, run_bind_of (run_appendEvent _ _)]
    · rfl
    · exact hs.guard

theorem run_completeExecution {outputs : V} :
    (store.completeExecution c outputs now).run j = .ok (u, j') ↔
      ∃ payload row, store.dump outputs s!"result of execution {c.executionId}" = .ok payload ∧
        (j.record c.executionId).Accepts c now row .completed ∧
        j' = (j.modifyExecution c.executionId fun row =>
          { row with status := .completed, updatedAt := now, result := payload, currentStep := none }).appendEvent
          { executionId := c.executionId, kind := .completed, «at» := now } := by
  unfold completeExecution
  simp only [run_bind_ofExcept, run_setExecutionStatus, run_appendEvent_eq_ok, exists_and_left]

theorem run_failExecution {kind : FailureKind} {message : String} :
    (failExecution c kind message now).run j = .ok (u, j') ↔
      ∃ row, (j.record c.executionId).Accepts c now row .failed ∧
        j' = (j.modifyExecution c.executionId fun row =>
          { row with status := .failed, updatedAt := now, failureKind := kind, failureMessage := message
                     currentStep := none }).appendEvent
          { executionId := c.executionId, kind := .failed, «at» := now
            detail := s!"{kind.value}: {message}" } := by
  unfold failExecution
  simp only [run_setExecutionStatus, run_appendEvent_eq_ok]

theorem run_markWaiting {reason : String} :
    (markWaiting c reason now).run j = .ok (u, j') ↔
      ∃ row, (j.record c.executionId).Accepts c now row .waiting ∧
        j' = (j.modifyExecution c.executionId fun row =>
          { row with status := .waiting, updatedAt := now, currentStep := none }).appendEvent
          { executionId := c.executionId, kind := .waiting, «at» := now, detail := reason } := by
  unfold markWaiting
  simp only [run_setExecutionStatus, run_appendEvent_eq_ok]

end Statuses

/-! ## Cancellation and resumption -/

section Cancellation

variable {id : String} {reason : Option String}

/-- The journal after `request_cancellation` recorded the request in `row`, if there was none. -/
def requested (id : String) (reason : Option String) (now : Instant) (row : ExecutionRow) (j : Journal) :
    Journal :=
  if row.cancellationRequestedAt = none then
    (j.modifyExecution id fun row => { row with
      cancellationRequestedAt := now, cancellationReason := reason, updatedAt := now }).appendEvent
      { executionId := id, kind := .cancellationRequested, «at» := now, detail := reason }
  else j

/-- The journal after `_finish_cancelled`. -/
def finished (id : String) (reason : Option String) (now : Instant) (j : Journal) : Journal :=
  ((j.modifyExecution id fun row => { row with
    status := .cancelled, failureKind := some .cancelled, failureMessage := cancellationMessage reason
    currentStep := none, updatedAt := now
    cancellationRequestedAt := some (row.cancellationRequestedAt.getD now) }).deleteRetry id).appendEvent
    { executionId := id, kind := .cancelled, «at» := now, detail := reason }

theorem requested_row (reason : Option String) (now : Instant) {row : ExecutionRow} (h : j.executions.get? id = some row) :
    ∃ row', (requested id reason now row j).executions.get? id = some row' ∧ row'.status = row.status := by
  unfold requested
  split_ifs
  · refine ⟨{ row with cancellationRequestedAt := now, cancellationReason := reason, updatedAt := now }, ?_, rfl⟩
    show (j.executions.modify id _).get? id = _
    rw [Table.get?_modify_self, h, Option.map_some]
  · exact ⟨row, h, rfl⟩

theorem run_finishCancelled {row : ExecutionRow} (h : j.executions.get? id = some row)
    (live : ¬ row.status.IsTerminal) :
    (finishCancelled id now reason).run j = .ok ((), finished id reason now j) := by
  unfold finishCancelled
  rw [run_executionRow]
  refine ⟨row, h, ?_⟩
  rw [if_neg live, run_bind_ofExcept]
  refine ⟨(), requireExecutionTransition_ok.mpr ((cancelled_mem_iff _).mpr live), ?_⟩
  rw [writeCancelled, run_write, run_write, Journal.updateExecution_of_pos h, run_appendEvent]
  · rfl
  · rfl

theorem run_finishCancelled_terminal {row : ExecutionRow} (h : j.executions.get? id = some row)
    (terminal : row.status.IsTerminal) : (finishCancelled id now reason).run j = .ok ((), j) := by
  unfold finishCancelled
  rw [run_executionRow]
  exact ⟨row, h, by rw [if_pos terminal]; rfl⟩

theorem run_finishUnlessOwned :
    (finishUnlessOwned id reason now).run j =
      if j.Unleased id now then (finishCancelled id now reason).run j else .ok ((), j) := by
  unfold finishUnlessOwned
  rw [run_bind_of (run_select _ _)]
  have hu : (j.leases.get? id).any (fun l => decide (now < l.expiresAt)) = true ↔ ¬ j.Unleased id now := by
    rw [Journal.Unleased]
    cases j.leases.get? id <;> simp
  by_cases hun : j.Unleased id now
  · rw [if_pos hun, if_neg fun hc => (hu.mp hc) hun]
  · rw [if_neg hun, if_pos (hu.mpr hun)]
    rfl

/-- The journal after the request was written on the status that was read. -/
def requestWritten (id : String) (status : ExecutionStatus) (reason : Option String) (now : Instant)
    (j : Journal) : Journal :=
  (j.updateExecution id (fun r => r.status = status) fun r => { r with
    cancellationRequestedAt := now, cancellationReason := reason, updatedAt := now }).1.appendEvent
    { executionId := id, kind := .cancellationRequested, «at» := now, detail := reason }

theorem run_writeRequest {status : ExecutionStatus} :
    (writeRequest id status reason now).run j = .ok ((), requestWritten id status reason now j) := by
  rw [writeRequest, run_write, run_appendEvent]
  rfl

/-- What `request_cancellation` does to an execution that is not terminal. -/
theorem run_requestCancellation {row : ExecutionRow} (h : j.executions.get? id = some row)
    (live : ¬ row.status.IsTerminal) :
    (requestCancellation id reason now).run j =
      .ok ((), if j.Unleased id now then finished id reason now (requested id reason now row j)
        else requested id reason now row j) := by
  unfold requestCancellation
  rw [run_executionRow]
  refine ⟨row, h, ?_⟩
  -- what is left of the transaction, after the request
  have hrest : (finishUnlessOwned id reason now).run (requested id reason now row j) =
      .ok ((), if j.Unleased id now then finished id reason now (requested id reason now row j)
        else requested id reason now row j) := by
    have hu : (requested id reason now row j).Unleased id now ↔ j.Unleased id now := by
      unfold requested
      split_ifs <;> exact Iff.rfl
    obtain ⟨row', hrow', hs⟩ := requested_row reason now h
    rw [run_finishUnlessOwned, if_congr hu rfl rfl, run_finishCancelled hrow' (hs ▸ live)]
    split_ifs <;> rfl
  rw [if_neg live]
  dsimp only
  by_cases hq : row.cancellationRequestedAt = none
  · have hwritten : requestWritten id row.status reason now j = requested id reason now row j := by
      rw [requestWritten, Journal.updateExecution_of_pos h, requested, if_pos hq]
      rfl
    rw [if_pos hq, run_bind_of run_writeRequest, hwritten, hrest]
  · have hsame : requested id reason now row j = j := if_neg hq
    rw [hsame] at hrest
    rw [if_neg hq, hrest, hsame]

theorem run_requestCancellation_terminal {row : ExecutionRow} (h : j.executions.get? id = some row)
    (terminal : row.status.IsTerminal) : (requestCancellation id reason now).run j = .ok ((), j) := by
  unfold requestCancellation
  rw [run_executionRow]
  exact ⟨row, h, by rw [if_pos terminal]; rfl⟩

/-- The journal after `acknowledge_cancellation` recorded a request in `row`, if there was none. -/
def acknowledged (id : String) (reason : Option String) (now : Instant) (row : ExecutionRow) (j : Journal) :
    Journal :=
  if row.cancellationRequestedAt = none then
    (j.modifyExecution id fun row => { row with
      cancellationRequestedAt := now, cancellationReason := reason }).appendEvent
      { executionId := id, kind := .cancellationRequested, «at» := now, detail := reason }
  else j

theorem run_acknowledgeCancellation :
    (acknowledgeCancellation c reason now).run j = .ok (u, j') ↔
      ∃ row, j.executions.get? c.executionId = some row ∧ .cancelled ∈ executionTransitions row.status ∧
        j.LeaseGuard c now ∧
        j' = (((acknowledged c.executionId reason now row j).modifyExecution c.executionId fun row =>
          { row with status := .cancelled, updatedAt := now, failureKind := some .cancelled
                     failureMessage := cancellationMessage reason, currentStep := none }).deleteRetry
            c.executionId).appendEvent
          { executionId := c.executionId, kind := .cancelled, «at» := now, detail := reason } := by
  unfold acknowledgeCancellation
  dsimp only
  rw [run_bind_of (run_select _ _)]
  cases hrow : j.executions.get? c.executionId with
  | none => simp
  | some row =>
    dsimp only
    have hreq : (if row.cancellationRequestedAt = none then do
        let _ ← Txn.execute fun j => .ok (j.updateExecution c.executionId (fun _ => True)
          fun r => { r with cancellationRequestedAt := now, cancellationReason := reason })
        appendEvent { executionId := c.executionId, kind := .cancellationRequested, «at» := now, detail := reason }
        else return () : Tx Unit).run j = .ok ((), acknowledged c.executionId reason now row j) := by
      unfold acknowledged
      split_ifs
      · rw [run_write, Journal.updateExecution_of_pos hrow, run_appendEvent]
        trivial
      · rfl
    -- the request changes neither the status nor the lease, so the guarded write sees those of `j`
    have hsame : ∃ row', (acknowledged c.executionId reason now row j).executions.get? c.executionId = some row' ∧
        row'.status = row.status := by
      unfold acknowledged
      split_ifs
      · refine ⟨{ row with cancellationRequestedAt := now, cancellationReason := reason }, ?_, rfl⟩
        show (j.executions.modify c.executionId _).get? c.executionId = _
        rw [Table.get?_modify_self, hrow, Option.map_some]
      · exact ⟨row, hrow, rfl⟩
    have hguard : (acknowledged c.executionId reason now row j).LeaseGuard c now ↔ j.LeaseGuard c now := by
      unfold acknowledged
      split_ifs <;> exact Iff.rfl
    obtain ⟨row', hrow', hs⟩ := hsame
    rw [run_bind_of hreq, run_setExecutionStatus']
    simp only [hrow', Option.some.injEq, exists_eq_left', hs, hguard, true_or, true_and, run_write,
      run_appendEvent_eq_ok]

theorem run_resumeWaiting :
    (resumeWaiting id reason now).run j = .ok (u, j') ↔
      ∃ row, j.executions.get? id = some row ∧ row.status = .waiting ∧
        j' = (j.modifyExecution id fun row => { row with status := .pending, updatedAt := now }).appendEvent
          { executionId := id, kind := .recovered, «at» := now, detail := resumedDetail reason } := by
  unfold resumeWaiting
  rw [run_executionRow]
  refine exists_congr fun row => and_congr_right fun h => ?_
  by_cases hw : row.status = .waiting
  · rw [if_neg (not_not.mpr hw), run_write, Journal.updateExecution_of_pos h hw, run_appendEvent_eq_ok]
    exact (and_iff_right hw).symm
  · rw [if_pos hw, run_raise]
    simp [hw]

end Cancellation

/-! ## Claiming -/

section Claiming

variable {id owner : String} {expires : Instant}

/-- The claim `claim_next` returns for an execution whose row was `row`, under the lease `l`. -/
def claimOf (store : JournalStore V) (id : String) (row : ExecutionRow) (l : LeaseRow) : Claim V where
  executionId := id
  owner := l.owner
  fence := l.fence
  workflow := row.workflow
  version := row.version
  fingerprint := row.fingerprint
  input := store.load row.input
  executionStatus := .running
  expiresAt := l.expiresAt
  deadlineAt := row.deadlineAt
  cancellationRequested := row.cancellationRequestedAt.isSome

/-- The journal after a claim. -/
def claimed (id owner : String) (now expires : Instant) (l : LeaseRow) (j : Journal) : Journal :=
  (((j.modifyExecution id fun row => { row with status := .running, updatedAt := now }).upsertLease id
    ⟨owner, 1, now, now, expires⟩ fun l => ⟨owner, l.fence + 1, now, now, expires⟩).deleteRetry id).appendEvent
    { executionId := id, kind := .claimed, «at» := now, detail := s!"owner={owner} fence={l.fence}" }

theorem upsert_claimLease :
    (j.leases.upsert id ⟨owner, 1, now, now, expires⟩ fun l => ⟨owner, l.fence + 1, now, now, expires⟩).get? id =
      some (Record.claimLease owner now expires (j.leases.get? id)) := by
  rw [Table.get?_upsert, if_pos rfl]
  cases j.leases.get? id <;> rfl

theorem run_claimCandidate {row : ExecutionRow} (h : j.executions.get? id = some row)
    (hc : Claimable j id now row) :
    (store.claimCandidate owner id expires now).run j =
      .ok (some (claimOf store id row (Record.claimLease owner now expires (j.leases.get? id))),
        claimed id owner now expires (Record.claimLease owner now expires (j.leases.get? id)) j) := by
  unfold claimCandidate
  have h1 : j.updateExecution id (Claimable j id now) (fun r => { r with status := .running, updatedAt := now }) =
      (j.modifyExecution id fun r => { r with status := .running, updatedAt := now }, 1) :=
    Journal.updateExecution_of_pos h hc
  rw [run_write, h1, if_neg (fun hn => hn rfl), run_write, run_bind_of (run_select _ _), run_write, run_executionRow]
  refine ⟨{ row with status := .running, updatedAt := now }, ?_, ?_⟩
  · show (j.executions.modify id _).get? id = _
    rw [Table.get?_modify_self, h, Option.map_some]
  · dsimp only [Journal.modifyExecution, Journal.upsertLease]
    rw [upsert_claimLease]
    dsimp only
    rw [run_bind_of (run_appendEvent _ _), run_pure]
    rfl

theorem run_claimCandidate_none (h : ∀ row, j.executions.get? id = some row → ¬ Claimable j id now row) :
    (store.claimCandidate owner id expires now).run j = .ok (none, j) := by
  unfold claimCandidate
  rw [run_write, Journal.updateExecution_of_neg h, if_pos Nat.zero_ne_one]
  rfl

theorem candidate_eligible (h : j.candidate now = some id) :
    ∃ row, j.executions.get? id = some row ∧ j.Eligible now id row := by
  unfold Journal.candidate at h
  obtain ⟨x, hx, rfl⟩ := Option.map_eq_some_iff.mp h
  have hmem : (x.1, x.2) ∈ j.executions.select (j.Eligible now) := Journal.oldest_mem hx
  exact ⟨x.2, Table.mem_select.mp hmem⟩

theorem Claimable.of_eligible {row : ExecutionRow} (h : j.Eligible now id row) : Claimable j id now row := by
  obtain ⟨hc, -, ⟨hs, -⟩ | ⟨hs, hu⟩⟩ := h
  · refine ⟨?_, hc, .inl hs⟩
    rcases List.mem_pair.mp hs with hs | hs <;> simp [hs]
  · exact ⟨by simp [hs], hc, .inr hu⟩

/-- `claim_next` finds nothing only when nothing is eligible. -/
theorem not_eligible_of_run {ttl : Option Duration} (h : (store.claimNext owner ttl now).run j = .ok (none, j'))
    {row : ExecutionRow} (hrow : j.executions.get? id = some row) : ¬ j.Eligible now id row := by
  unfold claimNext at h
  split_ifs at h
  · cases h
  rw [run_bind_of (run_select _ _)] at h
  cases hcand : j.candidate now with
  | none =>
    intro helig
    have hnone : Journal.oldest (j.executions.select (j.Eligible now)) = none := Option.map_eq_none_iff.mp hcand
    have hmem : (id, row) ∈ j.executions.select (j.Eligible now) := Table.mem_select.mpr ⟨hrow, helig⟩
    rw [Journal.oldest_eq_none.mp hnone] at hmem
    cases hmem
  | some id' =>
    obtain ⟨row', hrow', helig'⟩ := candidate_eligible hcand
    rw [hcand] at h
    dsimp only at h
    rw [run_claimCandidate hrow' (Claimable.of_eligible helig')] at h
    cases h

/-- `claim_next` finds nothing and changes nothing, or takes an eligible execution. -/
theorem run_claimNext {ttl : Option Duration} {a : Option (Claim V)}
    (h : (store.claimNext owner ttl now).run j = .ok (a, j')) :
    (a = none ∧ j' = j) ∨
    ∃ id row, j.executions.get? id = some row ∧ j.Eligible now id row ∧
      a = some (claimOf store id row
        (Record.claimLease owner now (now + ttl.getD store.leaseTtl) (j.leases.get? id))) ∧
      j' = claimed id owner now (now + ttl.getD store.leaseTtl)
        (Record.claimLease owner now (now + ttl.getD store.leaseTtl) (j.leases.get? id)) j := by
  unfold claimNext at h
  split_ifs at h
  · cases h
  · rw [run_bind_of (run_select _ _)] at h
    cases hcand : j.candidate now with
    | none =>
      rw [hcand] at h
      exact .inl (run_pure_eq_ok.mp h)
    | some id =>
      obtain ⟨row, hrow, helig⟩ := candidate_eligible hcand
      rw [hcand] at h
      dsimp only at h
      rw [run_claimCandidate hrow (Claimable.of_eligible helig), Except.ok.injEq, Prod.mk.injEq] at h
      exact .inr ⟨id, row, hrow, helig, h.1.symm, h.2.symm⟩

end Claiming

/-! ## Submission and deadlines -/

section Submission

variable {id : String} {w : Workflow V}

theorem run_registerDefinition {a : String} (h : (store.registerDefinition w now).run j = .ok (a, j')) :
    ∃ definitions, j' = { j with definitions := definitions } := by
  unfold registerDefinition at h
  simp only [run_bind_ofExcept] at h
  obtain ⟨-, -, metadata, -, h⟩ := h
  rw [run_bind_of (run_select _ _)] at h
  cases hd : j.definitions.get? (w.name, w.version) with
  | some existing =>
    rw [hd] at h
    dsimp only at h
    split_ifs at h
    · cases h
    · exact ⟨j.definitions, (run_pure_eq_ok.mp h).2⟩
  | none =>
    rw [hd] at h
    dsimp only at h
    rw [run_bind_eq_ok] at h
    obtain ⟨n, j₁, h₁, h₂⟩ := h
    rw [run_execute] at h₁
    cases hi : j.definitions.insert? (w.name, w.version)
      ⟨store.definitionFingerprint w, metadata, now⟩ with
    | none =>
      rw [hi] at h₁
      cases h₁
    | some t =>
      rw [hi] at h₁
      cases h₁
      exact ⟨t, (run_pure_eq_ok.mp h₂).2⟩

theorem run_insertStep {s : String} :
    (insertStep id s).run j = .ok (u, j') ↔
      ∃ t, j.steps.insert? (id, s) { state := .pending } = some t ∧ j' = { j with steps := t } := by
  unfold insertStep
  rw [run_bind, run_execute]
  cases j.steps.insert? (id, s) { state := .pending } with
  | none => simp [Except.map, Except.bind]
  | some t => simp [Except.map, Except.bind, eq_comm]

/-- The rows inserted for the steps of a submitted workflow. -/
theorem run_insertSteps {l : List (Step V)} (h : (forEach l fun s => insertStep id s.id).run j = .ok (u, j')) :
    (∀ s ∈ l.map Step.id, j.steps.get? (id, s) = none) ∧
    ∃ t, j' = { j with steps := t } ∧ ∀ k, t.get? k =
      if k.1 = id ∧ k.2 ∈ l.map Step.id then some { state := .pending } else j.steps.get? k := by
  induction l generalizing j with
  | nil =>
    cases h
    exact ⟨by simp, j'.steps, rfl, by simp⟩
  | cons s l ih =>
    rw [run_forEach_cons, run_bind_eq_ok] at h
    obtain ⟨_, j₁, h₁, h₂⟩ := h
    obtain ⟨t₁, ht₁, rfl⟩ := run_insertStep.mp h₁
    obtain ⟨hfresh, t, rfl, ht⟩ := ih h₂
    have hs : j.steps.get? (id, s.id) = none := Table.get?_of_insert? ht₁
    have hget := Table.get?_insert? ht₁
    refine ⟨?_, t, rfl, fun k => ?_⟩
    · intro s' hs'
      rcases List.mem_cons.mp hs' with rfl | hs'
      · exact hs
      · have hn := hfresh s' hs'
        dsimp only at hn
        rw [hget] at hn
        split_ifs at hn
        exact hn
    · rw [ht]
      dsimp only
      rw [hget]
      obtain ⟨id', s'⟩ := k
      by_cases h1 : id' = id
      · by_cases h2 : s' ∈ l.map Step.id
        · simp [h1, h2]
        · by_cases h3 : s' = s.id <;> simp [h1, h2, h3]
      · simp [h1]

/-- `submit` finds the execution there and changes nothing, or inserts it with its steps. -/
theorem run_submit {input : V} {timeout : Option ℚ} {key : Option String} {a : ExecutionHandle}
    (h : (store.submit w input timeout id key now).run j = .ok (a, j')) :
    j' = j ∨
    ∃ payload executions steps detail, store.dump input s!"input of execution {id}" = .ok payload ∧
      j.executions.insert? id
        { workflow := w.name, version := w.version, fingerprint := store.definitionFingerprint w
          status := .pending, input := payload, submittedAt := now, updatedAt := now
          deadlineAt := timeout.map fun t => now + timedelta t } = some executions ∧
      (∀ s ∈ w.stepIds, j.steps.get? (id, s) = none) ∧
      (∀ k, steps.get? k = if k.1 = id ∧ k.2 ∈ w.stepIds then some { state := .pending } else j.steps.get? k) ∧
      j' = ({ j with executions := executions, steps := steps } : Journal).appendEvent
        { executionId := id, kind := .submitted, «at» := now, detail := detail } := by
  unfold submit at h
  dsimp only at h
  rw [run_bind_ofExcept] at h
  obtain ⟨payload, hp, h⟩ := h
  split_ifs at h
  · cases h
  rw [run_bind_of (run_select _ _)] at h
  cases hrow : j.executions.get? id with
  | some existing =>
    rw [hrow] at h
    dsimp only at h
    split_ifs at h
    · exact .inl (run_pure_eq_ok.mp h).2
    · cases h
  | none =>
    rw [hrow] at h
    dsimp only at h
    rw [run_bind_eq_ok] at h
    obtain ⟨_, j₁, h₁, h⟩ := h
    rw [run_execute] at h₁
    cases hi : j.executions.insert? id
        { workflow := w.name, version := w.version, fingerprint := store.definitionFingerprint w
          status := .pending, input := payload, submittedAt := now, updatedAt := now
          deadlineAt := timeout.map fun t => now + timedelta t } with
    | none =>
      rw [hi] at h₁
      cases h₁
    | some executions =>
      rw [hi] at h₁
      cases h₁
      rw [run_bind_eq_ok] at h
      obtain ⟨_, j₂, h₂, h⟩ := h
      obtain ⟨hfresh, steps, rfl, hsteps⟩ := run_insertSteps h₂
      rw [run_bind_of (run_appendEvent _ _)] at h
      exact .inr ⟨payload, executions, steps, _, hp, hi, hfresh, hsteps, (run_pure_eq_ok.mp h).2⟩

/-- `expire_deadlines` is never refused. -/
theorem exists_run_expireDeadlines (now : Instant) (j : Journal) :
    ∃ a j', (expireDeadlines now).run j = .ok (a, j') := by
  have hloop : ∀ (ids : List String) (j : Journal), ∃ j', (forEach ids (expireDeadline now)).run j = .ok ((), j') := by
    intro ids
    induction ids with
    | nil => exact fun j => ⟨j, rfl⟩
    | cons x xs ih =>
      intro j
      have hx : ∃ j', (expireDeadline now x).run j = .ok ((), j') := by
        unfold expireDeadline
        dsimp only
        rw [run_write, run_write, run_appendEvent]
        exact ⟨_, rfl⟩
      obtain ⟨j₁, hx⟩ := hx
      obtain ⟨j', h⟩ := ih j₁
      exact ⟨j', by rw [run_forEach_cons, run_bind_of hx, h]⟩
  unfold expireDeadlines
  rw [run_bind_of (run_select _ _)]
  obtain ⟨j', h⟩ := hloop _ j
  exact ⟨_, j', by rw [run_bind_of h, run_pure]⟩

end Submission

/-! ## Reads -/

section Reads

variable {id : String}

theorem run_cancellationRequested {a : Bool} :
    (cancellationRequested id).run j = .ok (a, j') ↔
      ∃ row, j.executions.get? id = some row ∧ a = row.cancellationRequestedAt.isSome ∧ j' = j := by
  unfold cancellationRequested
  rw [run_bind_of (run_select _ _)]
  cases j.executions.get? id with
  | none => simp
  | some row => simp [eq_comm]

theorem run_inspect {a : ExecutionView V} :
    (store.inspect id).run j = .ok (a, j') →
      (∃ row, j.executions.get? id = some row ∧ a.row = row ∧ a.executionId = id) ∧ j' = j := by
  unfold inspect
  rw [run_executionRow]
  rintro ⟨row, hrow, h⟩
  rw [run_bind_of (run_select _ _), run_bind_of (run_select _ _), run_bind_of (run_select _ _),
    run_pure_eq_ok] at h
  obtain ⟨rfl, rfl⟩ := h
  exact ⟨⟨row, hrow, rfl, rfl⟩, rfl⟩

end Reads

end JournalStore

end Xyberos.Durable
