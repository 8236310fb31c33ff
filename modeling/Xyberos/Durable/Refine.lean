import Xyberos.Durable.StoreSpec

/-!
# Xyberos.Durable.Refine — the store refines the state machine of each execution

`run_step`: an accepted operation leaves the record of every execution as it was or moves it by `Record.Step`.
The statements of the journal act on the record of one execution (`record_*_self`) and on no other
(`record_*_of_ne`); with the specifications of the operations this is all there is to it, except for the loops of
`submit` and `expire_deadlines`.
-/

set_option autoImplicit false

namespace Xyberos.Durable

open Txn

variable {V : Type} {j j' : Journal} {id id' : String}

/-! ## Statements on records -/

section Records

@[simp] theorem record_modifyExecution_self (f : ExecutionRow → ExecutionRow) :
    (j.modifyExecution id f).record id = (j.record id).modifyRow f := by
  ext1 <;> try rfl
  exact Table.get?_modify_self ..

@[simp] theorem record_modifyExecution_of_ne (h : id' ≠ id) (f : ExecutionRow → ExecutionRow) :
    (j.modifyExecution id f).record id' = j.record id' := by
  ext1 <;> try rfl
  exact (Table.get?_modify ..).trans (if_neg h)

@[simp] theorem record_modifyStep_self (s : String) (f : StepRow → StepRow) :
    (j.modifyStep id s f).record id = (j.record id).modifyStep s f := by
  ext1 <;> try rfl
  funext s'
  refine (Table.get?_modify ..).trans ?_
  simp

@[simp] theorem record_modifyStep_of_ne (h : id' ≠ id) (s : String) (f : StepRow → StepRow) :
    (j.modifyStep id s f).record id' = j.record id' := by
  ext1 <;> try rfl
  funext s'
  exact (Table.get?_modify ..).trans (if_neg fun he => h (Prod.mk.inj he).1)

@[simp] theorem record_modifyLease_self (f : LeaseRow → LeaseRow) :
    (j.modifyLease id f).record id = (j.record id).modifyLease f := by
  ext1 <;> try rfl
  exact Table.get?_modify_self ..

@[simp] theorem record_modifyLease_of_ne (h : id' ≠ id) (f : LeaseRow → LeaseRow) :
    (j.modifyLease id f).record id' = j.record id' := by
  ext1 <;> try rfl
  exact (Table.get?_modify ..).trans (if_neg h)

@[simp] theorem record_deleteRetry_self : (j.deleteRetry id).record id = (j.record id).setRetry none := by
  ext1 <;> try rfl
  exact (Table.get?_delete ..).trans (if_pos rfl)

@[simp] theorem record_deleteRetry_of_ne (h : id' ≠ id) : (j.deleteRetry id).record id' = j.record id' := by
  ext1 <;> try rfl
  exact (Table.get?_delete ..).trans (if_neg h)

@[simp] theorem record_upsertRetry_self (r : RetryRow) :
    (j.upsertRetry id r).record id = (j.record id).setRetry (some r) := by
  ext1 <;> try rfl
  refine (Table.get?_upsert ..).trans ((if_pos rfl).trans ?_)
  cases j.retries.get? id <;> rfl

@[simp] theorem record_upsertRetry_of_ne (h : id' ≠ id) (r : RetryRow) :
    (j.upsertRetry id r).record id' = j.record id' := by
  ext1 <;> try rfl
  exact (Table.get?_upsert ..).trans (if_neg h)

@[simp] theorem record_upsertLease_of_ne (h : id' ≠ id) (l : LeaseRow) (f : LeaseRow → LeaseRow) :
    (j.upsertLease id l f).record id' = j.record id' := by
  ext1 <;> try rfl
  exact (Table.get?_upsert ..).trans (if_neg h)

@[simp] theorem record_appendEvent_self {e : EventRow} (h : e.executionId = id) :
    (j.appendEvent e).record id = (j.record id).log e := by
  ext1 <;> try rfl
  show (j.events ++ [e]).filter _ = j.events.filter _ ++ [e]
  rw [List.filter_append, List.filter_singleton]
  simp [h]

@[simp] theorem record_appendEvent_of_ne {e : EventRow} (h : id' ≠ e.executionId) :
    (j.appendEvent e).record id' = j.record id' := by
  ext1 <;> try rfl
  show (j.events ++ [e]).filter _ = j.events.filter _
  rw [List.filter_append, List.filter_singleton]
  simp [h.symm]

end Records

/-! ## Operations on records -/

/-- The record of every execution stays as it was or makes a step of `op`. -/
def Moves (store : JournalStore V) (now : Instant) (op : Op V) (j j' : Journal) : Prop :=
  ∀ id, j'.record id = j.record id ∨ Record.Step store now id op (j.record id) (j'.record id)

namespace Moves

variable {store : JournalStore V} {now : Instant} {op : Op V} {c : Claim V}

theorem of_eq (h : j' = j) : Moves store now op j j' := fun _ => .inl (by rw [h])

/-- An operation on one execution. -/
theorem of_self (id : String) (hne : ∀ id' ≠ id, j'.record id' = j.record id')
    (hself : Record.Step store now id op (j.record id) (j'.record id)) : Moves store now op j j' := by
  intro id'
  by_cases h : id' = id
  · subst h
    exact .inr hself
  · exact .inl (hne id' h)

open JournalStore

theorem renewLease {ttl : Option Duration} {a : Claim V}
    (h : (store.renewLease c ttl now).run j = .ok (a, j')) : Moves store now (.renewLease c ttl) j j' := by
  obtain ⟨hg, -, rfl⟩ := run_renewLease.mp h
  refine of_self c.executionId (fun id' hne => by simp [hne]) ?_
  simp only [record_appendEvent_self, record_modifyLease_self]
  exact .renew rfl hg

theorem releaseLease {u : Unit} (h : (releaseLease c now).run j = .ok (u, j')) :
    Moves store now (.releaseLease c) j j' := by
  obtain ⟨hg, rfl⟩ := run_releaseLease.mp h
  refine of_self c.executionId (fun id' hne => by simp [hne]) ?_
  rw [record_modifyLease_self]
  exact .release rfl hg

theorem startStep {s : String} {key : Option String} {a : ℕ}
    (h : (startStep c s key now).run j = .ok (a, j')) : Moves store now (.startStep c s key) j j' := by
  obtain ⟨row, st, hrow, hs, hsource, -, rfl⟩ := run_startStep.mp h
  refine of_self c.executionId (fun id' hne => by simp [hne]) ?_
  simp only [record_appendEvent_self, record_modifyExecution_self, record_modifyStep_self]
  exact .startStep rfl hrow hs hsource

theorem completeStep {s : String} {output : V} {u : Unit}
    (h : (store.completeStep c s output now).run j = .ok (u, j')) :
    Moves store now (.completeStep c s output) j j' := by
  obtain ⟨payload, st, hp, hs, rfl⟩ := run_completeStep.mp h
  refine of_self c.executionId (fun id' hne => by simp [hne]) ?_
  simp only [record_appendEvent_self, record_modifyExecution_self, record_modifyStep_self]
  exact .completeStep rfl hp hs

theorem skipStep {s reason : String} {u : Unit} (h : (skipStep c s reason now).run j = .ok (u, j')) :
    Moves store now (.skipStep c s reason) j j' := by
  obtain ⟨st, hs, rfl⟩ := run_skipStep.mp h
  refine of_self c.executionId (fun id' hne => by simp [hne]) ?_
  simp only [record_appendEvent_self, record_modifyStep_self]
  exact .skipStep rfl hs

theorem markStepOutcomeUnknown {s reason : String} {u : Unit}
    (h : (markStepOutcomeUnknown c s reason now).run j = .ok (u, j')) :
    Moves store now (.markStepOutcomeUnknown c s reason) j j' := by
  obtain ⟨row, st, hs, hrow, rfl⟩ := run_markStepOutcomeUnknown.mp h
  refine of_self c.executionId (fun id' hne => by simp [hne]) ?_
  simp only [record_appendEvent_self, record_modifyExecution_self, record_modifyStep_self]
  exact .markUnknown rfl hs hrow

theorem resolveStep {s : String} {state : StepState} {output : V} {detail : Option String} {u : Unit}
    (h : (store.resolveStep c s state output detail now).run j = .ok (u, j')) :
    Moves store now (.resolveStep c s state output detail) j j' := by
  obtain ⟨payload, row, st, -, hs, hrow, rfl⟩ := run_resolveStep.mp h
  refine of_self c.executionId (fun id' hne => by simp [hne]) ?_
  simp only [record_appendEvent_self, record_modifyLease_self, record_modifyExecution_self,
    record_modifyStep_self]
  exact .resolveStep rfl hs hrow

theorem yieldExecution {reason : String} {u : Unit} (h : (yieldExecution c reason now).run j = .ok (u, j')) :
    Moves store now (.yieldExecution c reason) j j' := by
  obtain ⟨row, hrow, rfl⟩ := run_yieldExecution.mp h
  refine of_self c.executionId (fun id' hne => by simp [hne]) ?_
  simp only [record_appendEvent_self, record_modifyLease_self, record_modifyExecution_self]
  exact .yieldExecution rfl hrow

theorem timeOutExecution {message : String} {a : StepState}
    (h : (timeOutExecution c message now).run j = .ok (a, j')) :
    Moves store now (.timeOutExecution c message) j j' := by
  obtain ⟨row, hrow, -, rfl⟩ := run_timeOutExecution.mp h
  refine of_self c.executionId (fun id' hne => by simp [hne]) ?_
  simp only [record_appendEvent_self, record_modifyExecution_self]
  exact .timeOutExecution rfl hrow

theorem failStep {s type message : String} {retryAt : Option Instant} {reason : Option String} {a : StepState}
    (h : (failStep c s type message retryAt reason now).run j = .ok (a, j')) :
    Moves store now (.failStep c s type message retryAt reason) j j' := by
  by_cases hd : DeadlineReached c retryAt now
  · rw [run_failStep_deadline hd] at h
    obtain ⟨row, hrow, -, rfl⟩ := run_timeOutExecution.mp h
    refine of_self c.executionId (fun id' hne => by simp [hne]) ?_
    simp only [record_appendEvent_self, record_modifyExecution_self]
    exact .failStepDeadline rfl hd hrow
  · cases retryAt with
    | none =>
      obtain ⟨row, st, hs, hrow, -, rfl⟩ := (run_failStep_failed hd).mp h
      refine of_self c.executionId (fun id' hne => by simp [hne]) ?_
      simp only [record_appendEvent_self, record_modifyExecution_self, record_modifyStep_self]
      exact .failStep rfl hd hs hrow
    | some due =>
      obtain ⟨row, st, hs, hrow, -, rfl⟩ := (run_failStep_retry hd).mp h
      refine of_self c.executionId (fun id' hne => by simp [hne]) ?_
      simp only [record_appendEvent_self, record_modifyLease_self, record_modifyExecution_self,
        record_upsertRetry_self, record_modifyStep_self]
      exact .retryStep rfl hd hs hrow

theorem completeExecution {outputs : V} {u : Unit}
    (h : (store.completeExecution c outputs now).run j = .ok (u, j')) :
    Moves store now (.completeExecution c outputs) j j' := by
  obtain ⟨payload, row, hp, hrow, rfl⟩ := run_completeExecution.mp h
  refine of_self c.executionId (fun id' hne => by simp [hne]) ?_
  simp only [record_appendEvent_self, record_modifyExecution_self]
  exact .completeExecution rfl hp hrow

theorem failExecution {kind : FailureKind} {message : String} {u : Unit}
    (h : (failExecution c kind message now).run j = .ok (u, j')) :
    Moves store now (.failExecution c kind message) j j' := by
  obtain ⟨row, hrow, rfl⟩ := run_failExecution.mp h
  refine of_self c.executionId (fun id' hne => by simp [hne]) ?_
  simp only [record_appendEvent_self, record_modifyExecution_self]
  exact .failExecution rfl hrow

theorem markWaiting {reason : String} {u : Unit} (h : (markWaiting c reason now).run j = .ok (u, j')) :
    Moves store now (.markWaiting c reason) j j' := by
  obtain ⟨row, hrow, rfl⟩ := run_markWaiting.mp h
  refine of_self c.executionId (fun id' hne => by simp [hne]) ?_
  simp only [record_appendEvent_self, record_modifyExecution_self]
  exact .markWaiting rfl hrow

theorem record_requested_self {reason : Option String} {row : ExecutionRow} :
    (requested id reason now row j).record id = Record.recordRequest id now reason (j.record id) row := by
  unfold requested Record.recordRequest
  split_ifs <;> simp only [record_appendEvent_self, record_modifyExecution_self]

theorem record_requested_of_ne {reason : Option String} {row : ExecutionRow} (hne : id' ≠ id) :
    (requested id reason now row j).record id' = j.record id' := by
  unfold requested
  split_ifs <;> simp [hne]

theorem record_finished_self {reason : Option String} :
    (finished id reason now j).record id = Record.finish id now reason (j.record id) := by
  simp only [finished, Record.finish, record_appendEvent_self, record_deleteRetry_self,
    record_modifyExecution_self]

theorem requestCancellation {reason : Option String} {u : Unit}
    (h : (requestCancellation id reason now).run j = .ok (u, j')) :
    Moves store now (.requestCancellation id reason) j j' := by
  cases hrow : j.executions.get? id with
  | none =>
    unfold JournalStore.requestCancellation at h
    obtain ⟨row, hr, -⟩ := run_executionRow.mp h
    rw [hrow] at hr
    cases hr
  | some row =>
    by_cases terminal : row.status.IsTerminal
    · rw [run_requestCancellation_terminal hrow terminal] at h
      cases h
      exact of_eq rfl
    · rw [run_requestCancellation hrow terminal] at h
      cases h
      refine of_self id ?_ ?_
      · intro id' hne
        split_ifs <;> simp [finished, record_requested_of_ne, hne]
      · split_ifs with hu
        · rw [record_finished_self, record_requested_self]
          exact .requestFinish hrow terminal hu
        · rw [record_requested_self]
          exact .requestLive hrow terminal hu

theorem record_acknowledged_self {reason : Option String} {row : ExecutionRow} :
    (acknowledged id reason now row j).record id = Record.recordOwnRequest id now reason (j.record id) row := by
  unfold acknowledged Record.recordOwnRequest
  split_ifs <;> simp only [record_appendEvent_self, record_modifyExecution_self]

theorem acknowledgeCancellation {reason : Option String} {u : Unit}
    (h : (acknowledgeCancellation c reason now).run j = .ok (u, j')) :
    Moves store now (.acknowledgeCancellation c reason) j j' := by
  obtain ⟨row, hrow, legal, guard, rfl⟩ := run_acknowledgeCancellation.mp h
  refine of_self c.executionId (fun id' hne => ?_) ?_
  · simp only [acknowledged]
    split_ifs <;> simp [hne]
  · simp only [record_appendEvent_self, record_deleteRetry_self, record_modifyExecution_self,
      record_acknowledged_self]
    exact .acknowledge rfl hrow legal guard

theorem resumeWaiting {reason : Option String} {u : Unit}
    (h : (resumeWaiting id reason now).run j = .ok (u, j')) : Moves store now (.resumeWaiting id reason) j j' := by
  obtain ⟨row, hrow, waiting, rfl⟩ := run_resumeWaiting.mp h
  refine of_self id (fun id' hne => by simp [hne]) ?_
  simp only [record_appendEvent_self, record_modifyExecution_self]
  exact .resume hrow waiting

theorem record_claimed_self {owner : String} {expires : Instant} {row : ExecutionRow}
    (hrow : j.executions.get? id = some row) :
    (claimed id owner now expires (Record.claimLease owner now expires (j.leases.get? id)) j).record id =
      ({ j.record id with
        row := some { row with status := .running, updatedAt := now }
        lease := some (Record.claimLease owner now expires (j.record id).lease)
        retry := none } : Record).log
        { executionId := id, kind := .claimed, «at» := now
          detail := s!"owner={owner} fence={(Record.claimLease owner now expires (j.leases.get? id)).fence}" } := by
  rw [claimed, record_appendEvent_self rfl, record_deleteRetry_self]
  congr 1
  ext1 <;> try rfl
  · show (j.executions.modify id _).get? id = _
    rw [Table.get?_modify_self, hrow, Option.map_some]
  · exact upsert_claimLease

theorem claimNext {owner : String} {ttl : Option Duration} {a : Option (Claim V)}
    (h : (store.claimNext owner ttl now).run j = .ok (a, j')) : Moves store now (.claimNext owner ttl) j j' := by
  obtain ⟨-, rfl⟩ | ⟨id, row, hrow, helig, -, rfl⟩ := run_claimNext h
  · exact of_eq rfl
  · refine of_self id (fun id' hne => by simp [claimed, hne]) ?_
    rw [record_claimed_self hrow]
    exact .claim hrow helig

theorem submit {w : Workflow V} {input : V} {timeout : Option ℚ} {key : Option String} {a : ExecutionHandle}
    (h : (store.submit w input timeout id key now).run j = .ok (a, j')) :
    Moves store now (.submit w input timeout id key) j j' := by
  obtain rfl | ⟨payload, executions, steps, detail, hp, hi, hfresh, hsteps, rfl⟩ := run_submit h
  · exact of_eq rfl
  · have hget := Table.get?_insert? hi
    have habsent : j.executions.get? id = none := Table.get?_of_insert? hi
    refine of_self id (fun id' hne => ?_) ?_
    · rw [record_appendEvent_of_ne hne]
      ext1 <;> try rfl
      · exact (hget id').trans (if_neg hne)
      · funext s
        exact (hsteps (id', s)).trans (if_neg fun he => hne he.1)
    · have hrec : ({ j with executions := executions, steps := steps } : Journal).record id =
          { j.record id with
            row := some
              { workflow := w.name, version := w.version, fingerprint := store.definitionFingerprint w
                status := .pending, input := payload, submittedAt := now, updatedAt := now
                deadlineAt := timeout.map fun t => now + timedelta t }
            steps := fun s => if s ∈ w.stepIds then some { state := .pending } else (j.record id).steps s } := by
        ext1 <;> try rfl
        · exact (hget id).trans (if_pos rfl)
        · funext s
          exact (hsteps (id, s)).trans (if_congr (and_iff_right rfl) rfl rfl)
      rw [record_appendEvent_self rfl, hrec]
      exact .submit habsent hfresh hp

theorem registerDefinition {w : Workflow V} {a : String}
    (h : (store.registerDefinition w now).run j = .ok (a, j')) :
    Moves store now (.registerDefinition w) j j' := by
  obtain ⟨definitions, rfl⟩ := run_registerDefinition h
  exact fun id => .inl rfl

theorem record_expireDeadline_self (store : JournalStore V) {row : ExecutionRow} (hrow : j.executions.get? id = some row)
    (live : ¬ row.status.IsTerminal) {u : Unit} (h : (expireDeadline now id).run j = .ok (u, j')) :
    (∀ id' ≠ id, j'.record id' = j.record id') ∧ (j'.executions.get? id).isSome ∧
      ∀ d ∈ row.deadlineAt, d ≤ now → Record.Step store now id .expireDeadlines (j.record id) (j'.record id) := by
  unfold expireDeadline at h
  dsimp only at h
  rw [run_write, Journal.updateExecution_of_pos hrow live, run_write, run_appendEvent_eq_ok] at h
  subst h
  refine ⟨fun id' hne => by simp [hne], ?_, fun d hd due => ?_⟩
  · show ((j.executions.modify id _).get? id).isSome
    rw [Table.get?_modify_self, hrow, Option.map_some]
    rfl
  · simp only [record_appendEvent_self, record_deleteRetry_self, record_modifyExecution_self]
    exact .expire hrow live hd due

/-- The loop of `expire_deadlines`: each overdue execution is timed out once, the others stay as they were. -/
theorem expireDeadlines_loop (store : JournalStore V) {ids : List String} (hn : ids.Nodup) {u : Unit}
    (hids : ∀ id ∈ ids, ∃ row, j.executions.get? id = some row ∧ ¬ row.status.IsTerminal ∧
      ∃ d ∈ row.deadlineAt, d ≤ now)
    (h : (forEach ids (expireDeadline now)).run j = .ok (u, j')) :
    (∀ id ∉ ids, j'.record id = j.record id) ∧
    ∀ id ∈ ids, Record.Step store now id .expireDeadlines (j.record id) (j'.record id) := by
  induction ids generalizing j with
  | nil =>
    cases h
    exact ⟨fun _ _ => rfl, by simp⟩
  | cons x xs ih =>
    rw [List.nodup_cons] at hn
    rw [run_forEach_cons, run_bind_eq_ok] at h
    obtain ⟨_, j₁, h₁, h₂⟩ := h
    obtain ⟨row, hrow, live, d, hd, due⟩ := hids x List.mem_cons_self
    obtain ⟨hother, -, hx⟩ := record_expireDeadline_self store hrow live h₁
    have hne : ∀ id ∈ xs, id ≠ x := fun id hid he => hn.1 (he ▸ hid)
    have hids₁ : ∀ id ∈ xs, ∃ row, j₁.executions.get? id = some row ∧ ¬ row.status.IsTerminal ∧
        ∃ d ∈ row.deadlineAt, d ≤ now := by
      intro id hid
      obtain ⟨row', hrow', h'⟩ := hids id (List.mem_cons_of_mem _ hid)
      have hr : (j₁.record id).row = (j.record id).row := by rw [hother id (hne id hid)]
      exact ⟨row', hr.trans hrow', h'⟩
    obtain ⟨hout, hin⟩ := ih hn.2 hids₁ h₂
    refine ⟨fun id hid => ?_, fun id hid => ?_⟩
    · rw [List.mem_cons, not_or] at hid
      rw [hout id hid.2, hother id hid.1]
    · rcases List.mem_cons.mp hid with rfl | hid
      · rw [hout id hn.1]
        exact hx d hd due
      · rw [← hother id (hne id hid)]
        exact hin id hid

/-- `expire_deadlines` times the overdue executions out, and leaves the others as they were. -/
theorem expireDeadlines_overdue (store : JournalStore V) {a : List String}
    (h : (expireDeadlines now).run j = .ok (a, j')) :
    (∀ row d, j.executions.get? id = some row → ¬ row.status.IsTerminal → row.deadlineAt = some d → d ≤ now →
      Record.Step store now id .expireDeadlines (j.record id) (j'.record id)) ∧
    (j'.record id = j.record id ∨ Record.Step store now id .expireDeadlines (j.record id) (j'.record id)) := by
  unfold JournalStore.expireDeadlines at h
  rw [run_bind_of (run_select _ _), run_bind_eq_ok] at h
  obtain ⟨_, j₁, h₁, h₂⟩ := h
  obtain rfl : j' = j₁ := (run_pure_eq_ok.mp h₂).2
  set p := fun (_ : String) (r : ExecutionRow) => ¬ r.status.IsTerminal ∧ ∃ d ∈ r.deadlineAt, d ≤ now
  have hn : ((j.executions.select p).map Prod.fst).Nodup :=
    j.executions.nodup.sublist (List.filter_sublist.map Prod.fst)
  have hids : ∀ id ∈ (j.executions.select p).map Prod.fst, ∃ row, j.executions.get? id = some row ∧
      ¬ row.status.IsTerminal ∧ ∃ d ∈ row.deadlineAt, d ≤ now := by
    intro id hid
    obtain ⟨x, hx, rfl⟩ := List.mem_map.mp hid
    exact ⟨x.2, Table.mem_select.mp hx⟩
  obtain ⟨hout, hin⟩ := expireDeadlines_loop store hn hids h₁
  constructor
  · intro row d hrow live hd due
    exact hin id (List.mem_map.mpr ⟨(id, row), Table.mem_select.mpr ⟨hrow, live, d, hd, due⟩, rfl⟩)
  · by_cases hid : id ∈ (j.executions.select p).map Prod.fst
    · exact .inr (hin id hid)
    · exact .inl (hout id hid)

theorem expireDeadlines {a : List String} (h : (expireDeadlines now).run j = .ok (a, j')) :
    Moves store now .expireDeadlines j j' :=
  fun _ => (expireDeadlines_overdue store h).2

end Moves

/-! ## The refinement -/

/-- **Refinement.**  An accepted operation leaves the record of every execution as it was, or moves it by a step of
that operation. -/
theorem run_step {store : JournalStore V} {now : Instant} {op : Op V} {a : op.Reply}
    (h : (op.txn store now).run j = .ok (a, j')) : Moves store now op j j' := by
  cases op with
  | registerDefinition w => exact Moves.registerDefinition h
  | submit w input timeout id key => exact Moves.submit h
  | claimNext owner ttl => exact Moves.claimNext h
  | renewLease c ttl => exact Moves.renewLease h
  | releaseLease c => exact Moves.releaseLease h
  | expireDeadlines => exact Moves.expireDeadlines h
  | startStep c s key => exact Moves.startStep h
  | completeStep c s output => exact Moves.completeStep h
  | yieldExecution c reason => exact Moves.yieldExecution h
  | skipStep c s reason => exact Moves.skipStep h
  | failStep c s type message retryAt reason => exact Moves.failStep h
  | markStepOutcomeUnknown c s reason => exact Moves.markStepOutcomeUnknown h
  | resolveStep c s state output detail => exact Moves.resolveStep h
  | completeExecution c outputs => exact Moves.completeExecution h
  | failExecution c kind message => exact Moves.failExecution h
  | timeOutExecution c message => exact Moves.timeOutExecution h
  | requestCancellation id reason => exact Moves.requestCancellation h
  | acknowledgeCancellation c reason => exact Moves.acknowledgeCancellation h
  | markWaiting c reason => exact Moves.markWaiting h
  | resumeWaiting id reason => exact Moves.resumeWaiting h
  | stepStates id => exact Moves.of_eq (Prod.mk.inj (Except.ok.inj h)).2.symm
  | runningSteps id => exact Moves.of_eq (Prod.mk.inj (Except.ok.inj h)).2.symm
  | completedOutputs id => exact Moves.of_eq (Prod.mk.inj (Except.ok.inj h)).2.symm
  | cancellationRequested id =>
    obtain ⟨_, _, _, hj⟩ := JournalStore.run_cancellationRequested.mp h
    exact Moves.of_eq hj
  | inspect id => exact Moves.of_eq (JournalStore.run_inspect h).2
  | expiredLeases => exact Moves.of_eq (Prod.mk.inj (Except.ok.inj h)).2.symm

/-- A guarded operation is accepted only under the live lease of its claim. -/
theorem guard_of_run {store : JournalStore V} {now : Instant} {op : Op V} {c : Claim V} (hc : op.claim? = some c)
    {a : op.Reply} (h : (op.txn store now).run j = .ok (a, j')) : j.LeaseGuard c now := by
  cases op <;> cases hc
  case renewLease => exact (JournalStore.run_renewLease.mp h).1
  case releaseLease => exact (JournalStore.run_releaseLease.mp h).1
  case startStep =>
    obtain ⟨_, _, _, hs, _⟩ := JournalStore.run_startStep.mp h
    exact hs.guard
  case completeStep =>
    obtain ⟨_, _, _, hs, _⟩ := JournalStore.run_completeStep.mp h
    exact hs.guard
  case yieldExecution =>
    obtain ⟨_, hr, _⟩ := JournalStore.run_yieldExecution.mp h
    exact hr.guard
  case skipStep =>
    obtain ⟨_, hs, _⟩ := JournalStore.run_skipStep.mp h
    exact hs.guard
  case failStep s type message retryAt reason =>
    by_cases hd : JournalStore.DeadlineReached c retryAt now
    · rw [Op.txn, JournalStore.run_failStep_deadline hd] at h
      obtain ⟨_, hr, _⟩ := JournalStore.run_timeOutExecution.mp h
      exact hr.guard
    · cases retryAt with
      | none =>
        obtain ⟨_, _, _, hr, _⟩ := (JournalStore.run_failStep_failed hd).mp h
        exact hr.guard
      | some due =>
        obtain ⟨_, _, _, hr, _⟩ := (JournalStore.run_failStep_retry hd).mp h
        exact hr.guard
  case markStepOutcomeUnknown =>
    obtain ⟨_, _, hs, _⟩ := JournalStore.run_markStepOutcomeUnknown.mp h
    exact hs.guard
  case resolveStep =>
    obtain ⟨_, _, _, _, hs, _⟩ := JournalStore.run_resolveStep.mp h
    exact hs.guard
  case completeExecution =>
    obtain ⟨_, _, _, hr, _⟩ := JournalStore.run_completeExecution.mp h
    exact hr.guard
  case failExecution =>
    obtain ⟨_, hr, _⟩ := JournalStore.run_failExecution.mp h
    exact hr.guard
  case timeOutExecution =>
    obtain ⟨_, hr, _⟩ := JournalStore.run_timeOutExecution.mp h
    exact hr.guard
  case acknowledgeCancellation =>
    obtain ⟨_, _, _, hg, _⟩ := JournalStore.run_acknowledgeCancellation.mp h
    exact hg
  case markWaiting =>
    obtain ⟨_, hr, _⟩ := JournalStore.run_markWaiting.mp h
    exact hr.guard

end Xyberos.Durable
