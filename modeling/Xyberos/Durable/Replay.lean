import Xyberos.Durable.Runs

/-!
# Xyberos.Durable.Replay — the event log replays to the status

Every operation writes the status and the event in statements of their own.  `replay` folds the events of an
execution into a status, and `replay_status` says that this is the one in its row, after every run.  An operation that
sets the status logs last the event that stands for it (`Replays.written`); the others log at most one event, and it
stands for none (`Replays.quiet`).
-/

set_option autoImplicit false

namespace Xyberos.Durable

variable {V : Type}

/-- The status an event stands for, if it stands for one. -/
def EventKind.status? : EventKind → Option ExecutionStatus
  | submitted => some .pending
  | yielded => some .pending
  | recovered => some .pending
  | claimed => some .running
  | retryScheduled => some .retrying
  | waiting => some .waiting
  | completed => some .completed
  | failed => some .failed
  | cancelled => some .cancelled
  | timedOut => some .timedOut
  | leaseRenewed | stepStarted | stepSucceeded | stepSkipped | stepFailed | stepOutcomeUnknown
  | cancellationRequested => none

/-- The status after events, in their order. -/
def replay (events : List EventRow) : Option ExecutionStatus :=
  events.foldl (fun status e => e.kind.status?.or status) none

@[simp] theorem replay_nil : replay [] = none := rfl

@[simp] theorem replay_concat (events : List EventRow) (e : EventRow) :
    replay (events ++ [e]) = e.kind.status?.or (replay events) := by
  simp [replay]

namespace Record

/-- The events replay to the status in the row. -/
def Replays (r : Record) : Prop := replay r.events = r.row.map ExecutionRow.status

section Replays

variable {r r' : Record} {e : EventRow}

/-- The last event stands for the status that was set. -/
theorem Replays.written {events : List EventRow} {row : ExecutionRow} (hevents : r'.events = events ++ [e])
    (hrow : r'.row = some row) (he : e.kind.status? = some row.status) : r'.Replays := by
  rw [Replays, hevents, hrow, replay_concat, he]
  rfl

/-- The row keeps its status, and the event stands for none. -/
theorem Replays.quiet (h : r.Replays) {f : ExecutionRow → ExecutionRow} (hrow : r'.row = r.row.map f)
    (hf : ∀ row, (f row).status = row.status) (hevents : r'.events = r.events ++ [e]) (he : e.kind.status? = none) :
    r'.Replays := by
  have hstatus : ExecutionRow.status ∘ f = ExecutionRow.status := funext hf
  rw [Replays, hevents, replay_concat, he, hrow, Option.map_map, hstatus]
  exact h

theorem Replays.recordRequest (h : r.Replays) (id : String) (now : Instant) (reason : Option String)
    (row : ExecutionRow) : (recordRequest id now reason r row).Replays := by
  unfold Record.recordRequest
  split_ifs
  · exact h.quiet rfl (fun _ => rfl) rfl rfl
  · exact h

end Replays

/-- **Replay.**  Every move keeps the events and the status together. -/
theorem Step.replays {store : JournalStore V} {now : Instant} {id : String} {op : Op V} {r r' : Record}
    (h : Step store now id op r r') (hr : r.Replays) : r'.Replays := by
  -- the row that a guarded write of the status leaves
  have set : ∀ {c : Claim V} {row : ExecutionRow} {target : ExecutionStatus} (f : ExecutionRow → ExecutionRow),
      r.Accepts c now row target → r.row.map f = some (f row) := by
    intro c row target f h
    rw [h.row_eq, Option.map_some]
  cases h with
  | submit => exact .written rfl rfl rfl
  | claim => exact .written rfl rfl rfl
  | renew => exact hr.quiet Option.map_id'.symm (fun _ => rfl) rfl rfl
  | release => exact hr
  | expire hrow => exact .written rfl (congrArg (Option.map _) hrow) rfl
  | startStep => exact hr.quiet rfl (fun _ => rfl) rfl rfl
  | completeStep => exact hr.quiet rfl (fun _ => rfl) rfl rfl
  | yieldExecution _ h => exact .written rfl (set _ h) rfl
  | skipStep => exact hr.quiet Option.map_id'.symm (fun _ => rfl) rfl rfl
  | failStepDeadline _ _ h => exact .written rfl (set _ h) rfl
  | failStep _ _ _ h => exact .written rfl (set _ h) rfl
  | retryStep _ _ _ h => exact .written rfl (set _ h) rfl
  | markUnknown _ _ h => exact .written rfl (set _ h) rfl
  | resolveStep _ _ h => exact .written rfl (set _ h) rfl
  | completeExecution _ _ h => exact .written rfl (set _ h) rfl
  | failExecution _ h => exact .written rfl (set _ h) rfl
  | timeOutExecution _ h => exact .written rfl (set _ h) rfl
  | requestLive => exact hr.recordRequest ..
  | requestFinish hrow => exact .written rfl (congrArg (Option.map _) (recordRequest_row hrow)) rfl
  | acknowledge _ hrow => exact .written rfl (congrArg (Option.map _) (recordOwnRequest_row hrow)) rfl
  | markWaiting _ h => exact .written rfl (set _ h) rfl
  | resume hrow => exact .written rfl (congrArg (Option.map _) hrow) rfl

end Record

/-- **The event log replays to the stored status.**  After every run, the events of an execution fold to the status in
its row; an execution without a row has no event that stands for a status. -/
theorem replay_status (store : JournalStore V) (l : List (Call V)) (id : String) :
    replay ((runCalls store l).events.filter fun e => e.executionId = id) =
      ((runCalls store l).executions.get? id).map ExecutionRow.status :=
  run_record (I := Record.Replays) rfl (fun _ _ _ _ _ hr h => h.replays hr) l id

end Xyberos.Durable
