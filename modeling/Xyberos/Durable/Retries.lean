import Xyberos.Durable.Submission

/-!
# Xyberos.Durable.Retries — the schedule of retries

`retry_schedule`: over one clock, an execution has a scheduled retry exactly when it is RETRYING; the retry names a
step that is PENDING and its next attempt, and is due before the deadline.  `fail_step` ends the lease in the
transaction that creates the row, so nothing guarded by a lease can happen to a RETRYING execution; every other way
out of RETRYING deletes the row.
-/

set_option autoImplicit false

namespace Xyberos.Durable

variable {V : Type} {store : JournalStore V}

namespace Record

/-- The scheduled retry of an execution. -/
structure RetrySchedule (r : Record) : Prop where
  retrying : r.retry ≠ none ↔ ∃ row, r.row = some row ∧ row.status = .retrying
  pending : ∀ t, r.retry = some t →
    ∃ st, r.steps t.stepId = some st ∧ st.state = .pending ∧ t.attempt = st.attempts + 1
  early : ∀ t row d, r.retry = some t → r.row = some row → row.deadlineAt = some d → t.dueAt < d

/-- The schedule, and nobody has a live lease on a RETRYING execution. -/
structure Scheduled (now : Instant) (r : Record) : Prop extends RetrySchedule r where
  unleased : ∀ row, r.row = some row → row.status = .retrying → r.Unleased now

section Scheduled

variable {now : Instant} {r r' : Record} {c : Claim V}

theorem Scheduled.mono {now' : Instant} (h : r.Scheduled now) (hle : now ≤ now') : r.Scheduled now' :=
  ⟨h.toRetrySchedule, fun row hrow hs => (h.unleased row hrow hs).mono hle⟩

/-- Nothing is scheduled for an execution that is not RETRYING. -/
theorem Scheduled.of_idle (hretry : r'.retry = none) (hs : ∀ row, r'.row = some row → row.status ≠ .retrying) :
    r'.Scheduled now where
  retrying := ⟨fun h => absurd hretry h, fun ⟨row, hrow, h⟩ => absurd h (hs row hrow)⟩
  pending t ht := by cases hretry.symm.trans ht
  early t _ _ ht := by cases hretry.symm.trans ht
  unleased row hrow h := absurd h (hs row hrow)

/-- The same, for an execution whose row is known. -/
theorem Scheduled.of_status {row' : ExecutionRow} (hretry : r'.retry = none) (hrow : r'.row = some row')
    (hs : row'.status ≠ .retrying) : r'.Scheduled now :=
  .of_idle hretry fun row h => by
    cases hrow.symm.trans h
    exact hs

/-- An execution under a live lease has no scheduled retry. -/
theorem Scheduled.free (h : r.Scheduled now) (guard : r.Guard c now) :
    r.retry = none ∧ ∀ row, r.row = some row → row.status ≠ .retrying := by
  have hs : ∀ row, r.row = some row → row.status ≠ .retrying :=
    fun row hrow hs => guard.not_unleased (h.unleased row hrow hs)
  refine ⟨?_, hs⟩
  by_contra hn
  obtain ⟨row, hrow, hr⟩ := h.retrying.mp hn
  exact hs row hrow hr

/-- A move of the owner that changes neither the schedule nor the status. -/
theorem Scheduled.of_guard (h : r.Scheduled now) (guard : r.Guard c now) (hretry : r'.retry = r.retry)
    {f : ExecutionRow → ExecutionRow} (hrow : r'.row = r.row.map f) (hs : ∀ row, (f row).status = row.status) :
    r'.Scheduled now := by
  obtain ⟨hnone, hstatus⟩ := h.free guard
  refine .of_idle (hretry.trans hnone) fun row' hrow' => ?_
  rw [hrow] at hrow'
  obtain ⟨row, hr, rfl⟩ := Option.map_eq_some_iff.mp hrow'
  exact hs row ▸ hstatus row hr

/-- A move of the owner to another status. -/
theorem Scheduled.of_accepts {row : ExecutionRow} {target : ExecutionStatus} (h : r.Scheduled now)
    (ha : r.Accepts c now row target) (hretry : r'.retry = r.retry) {f : ExecutionRow → ExecutionRow}
    (hrow : r'.row = r.row.map f) (hs : (f row).status ≠ .retrying) : r'.Scheduled now :=
  .of_status (hretry.trans (h.free ha.guard).1) (by rw [hrow, ha.row_eq, Option.map_some]) hs

/-- A move that leaves row, steps, lease and retry as they are, but for columns that do not matter here. -/
theorem Scheduled.of_map (h : r.Scheduled now) {row : ExecutionRow} (hrow : r.row = some row)
    {row' : ExecutionRow} (hrow' : r'.row = some row') (hs : row'.status = row.status)
    (hd : row'.deadlineAt = row.deadlineAt) (hsteps : r'.steps = r.steps) (hlease : r'.lease = r.lease)
    (hretry : r'.retry = r.retry) : r'.Scheduled now where
  retrying := by
    rw [hretry, h.retrying, hrow, hrow']
    simp [hs]
  pending t ht := hsteps ▸ h.pending t (hretry ▸ ht)
  early t row₁ d ht hrow₁ hdead := by
    cases hrow'.symm.trans hrow₁
    exact h.early t row d (hretry ▸ ht) hrow (hd ▸ hdead)
  unleased row₁ hrow₁ hr := by
    cases hrow'.symm.trans hrow₁
    intro l hl
    exact h.unleased row hrow (hs ▸ hr) l (hlease ▸ hl)

theorem scheduled_absent (now : Instant) : Record.absent.Scheduled now :=
  .of_idle rfl fun row hrow => by cases hrow

/-- **Retries.**  Every move keeps the schedule, if its claim knows the deadline. -/
theorem Step.scheduled {id : String} {op : Op V} (h : Step store now id op r r') (hroot : r.Rooted)
    (hr : r.Scheduled now)
    (hclaim : ∀ c ∈ op.claim?, c.executionId = id → ∀ row, r.row = some row → c.deadlineAt = row.deadlineAt) :
    r'.Scheduled now := by
  cases h with
  | submit absent =>
    refine .of_status ?_ rfl (by simp)
    show r.retry = none
    rw [hroot absent]
    rfl
  | claim => exact .of_status rfl rfl (by simp)
  | renew _ guard => exact hr.of_guard guard rfl Option.map_id'.symm fun _ => rfl
  | release _ guard => exact hr.of_guard guard rfl Option.map_id'.symm fun _ => rfl
  | expire hrow => exact .of_status rfl (congrArg (Option.map _) hrow) (by simp)
  | startStep _ _ h => exact hr.of_guard h.guard rfl rfl fun _ => rfl
  | completeStep _ _ h => exact hr.of_guard h.guard rfl rfl fun _ => rfl
  | yieldExecution _ h => exact hr.of_accepts h rfl rfl (by simp)
  | skipStep _ h => exact hr.of_guard h.guard rfl Option.map_id'.symm fun _ => rfl
  | failStepDeadline _ _ h => exact hr.of_accepts h rfl rfl (by simp)
  | failStep _ _ _ h => exact hr.of_accepts h rfl rfl (by simp)
  | @retryStep c s errorType message due reason _ row st hc notPassed hs h =>
    have hrow : ∀ row', (r.row.map fun row : ExecutionRow =>
        { row with status := .retrying, updatedAt := now, currentStep := none }) = some row' →
        row'.status = .retrying ∧ row'.deadlineAt = row.deadlineAt := by
      intro row' hrow'
      rw [h.row_eq, Option.map_some] at hrow'
      cases hrow'
      exact ⟨rfl, rfl⟩
    refine ⟨⟨⟨fun _ => ⟨_, congrArg (Option.map _) h.row_eq, rfl⟩, fun _ => Option.some_ne_none _⟩, ?_, ?_⟩, ?_⟩
    · rintro t ht
      cases ht
      exact ⟨failedAttempt now errorType message reason .pending st, by simp [hs.step_eq], rfl, rfl⟩
    · rintro t row' d ht hrow' hd
      cases ht
      -- the claim has the deadline of the row, and `fail_step` compared the retry with it
      rw [(hrow row' hrow').2, ← hclaim c rfl hc row h.row_eq] at hd
      by_contra hlt
      exact notPassed ⟨d, hd, .inr ⟨due, rfl, not_lt.mp hlt⟩⟩
    · rintro _ _ _ l hl
      obtain ⟨l', -, rfl⟩ := Option.map_eq_some_iff.mp hl
      exact le_refl now
  | markUnknown _ _ h => exact hr.of_accepts h rfl rfl (by simp)
  | resolveStep _ _ h => exact hr.of_accepts h rfl rfl (by simp)
  | completeExecution _ _ h => exact hr.of_accepts h rfl rfl (by simp)
  | failExecution _ h => exact hr.of_accepts h rfl rfl (by simp)
  | timeOutExecution _ h => exact hr.of_accepts h rfl rfl (by simp)
  | requestLive hrow =>
    refine hr.of_map hrow (recordRequest_row hrow) ?_ ?_ recordRequest_steps recordRequest_lease recordRequest_retry
    · split_ifs <;> rfl
    · split_ifs <;> rfl
  | requestFinish hrow => exact .of_status rfl (congrArg (Option.map _) (recordRequest_row hrow)) (by simp)
  | acknowledge _ hrow => exact .of_status rfl (congrArg (Option.map _) (recordOwnRequest_row hrow)) (by simp)
  | markWaiting _ h => exact hr.of_accepts h rfl rfl (by simp)
  | resume hrow waiting =>
    have hnone : r.retry = none := by
      by_contra hn
      obtain ⟨row', hrow', hs⟩ := hr.retrying.mp hn
      cases hrow.symm.trans hrow'
      cases waiting.symm.trans hs
    exact .of_status hnone (congrArg (Option.map _) hrow) (by simp)

end Scheduled

end Record

/-! ## Runs -/

/-- The schedule of every execution, in a ledger whose claims are honest. -/
structure Ledger.Scheduled (store : JournalStore V) (s : Ledger V) : Prop where
  honest : s.Honest store
  rooted : s.timed.Rooted
  scheduled : ∀ id, (s.timed.journal.record id).Scheduled s.timed.clock

theorem Ledger.exec_scheduled {s : Ledger V} (h : s.Scheduled store) {x : Tick V} (hx : s.Authorised x) :
    (s.exec store x).Scheduled store where
  honest := exec_honest h.honest hx
  rooted := Tick.exec_rooted h.rooted x
  scheduled id := by
    have hr : (s.timed.journal.record id).Scheduled (x.now s.timed) := (h.scheduled id).mono (x.clock_le s.timed)
    rcases Call.exec_moves store s.timed.journal (s.call x) id with he | hs
    · show (Journal.record _ id).Scheduled _
      exact he ▸ hr
    · refine hs.scheduled (h.rooted id) hr fun c hc hid row hrow => ?_
      obtain ⟨row', hrow', habout⟩ := h.honest c (hx c hc)
      rw [hid] at hrow'
      cases hrow.symm.trans hrow'
      exact habout.deadlineAt

/-- **The retry schedule.**  In every state of a run over one clock, whose calls are made under claims that were
handed out, an execution has a scheduled retry exactly when it is RETRYING; the retry names the next attempt of a
step that is PENDING, and is due before the deadline. -/
theorem retry_schedule (store : JournalStore V) (start : Instant) (l : List (Tick V))
    (hl : Steps (Ledger.exec store) Ledger.Authorised { timed := ⟨{}, start⟩ } l) (id : String) :
    ((after (Ledger.exec store) { timed := ⟨{}, start⟩ } l).timed.journal.record id).RetrySchedule := by
  have h : (after (Ledger.exec store) { timed := ⟨{}, start⟩ } l).Scheduled store := by
    refine hl.invariant ⟨?_, fun _ _ => rfl, fun _ => Record.scheduled_absent _⟩ fun s x hs hx => Ledger.exec_scheduled hs hx
    intro c hc
    cases hc
  exact (h.scheduled id).toRetrySchedule

/-- `"e"` has a deadline; its step fails and is scheduled again. -/
def scheduledOnce : List (Tick String) :=
  [⟨.submit oneStep "null" (some 60) "e" none, 0⟩, ⟨.claimNext "o" none, 1⟩,
   ⟨.startStep { oneStepClaim 1 1 with deadlineAt := some 60000000 } "a" none, 1⟩,
   ⟨.failStep { oneStepClaim 1 1 with deadlineAt := some 60000000 } "a" "E" "busy" (some 5000000) none, 1⟩]

theorem retry_schedule_once :
    (∃ t ∈ (after (Ledger.exec textStore) { timed := ⟨{}, 0⟩ } scheduledOnce).timed.journal.retries.get? "e",
      t.dueAt = 5000000) ∧
    ((after (Ledger.exec textStore) { timed := ⟨{}, 0⟩ } scheduledOnce).timed.journal.record "e").RetrySchedule :=
  ⟨by decide +kernel, retry_schedule textStore 0 scheduledOnce (by decide +kernel) "e"⟩

end Xyberos.Durable
