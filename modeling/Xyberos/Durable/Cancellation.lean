import Xyberos.Durable.Runs

/-!
# Xyberos.Durable.Cancellation — a recorded request wins, and where it can be left behind

`request_wins`: once a cancellation request is recorded it stays as it is, and the execution enters none of
COMPLETED, FAILED, RETRYING, WAITING and gets no scheduled retry, whoever writes.  Every guarded write of a status
but the acknowledgement refuses a requested execution; the operations that do not check the request (`claim_next`
of a RUNNING execution, `expire_deadlines`, `resume_waiting`, the cancellation path) lead elsewhere.

`no_orphan_iff`: every open execution with a request is RUNNING, in every state of a run, exactly when no
`request_cancellation` of the run finds a PENDING, RETRYING or WAITING execution under a live lease.
-/

set_option autoImplicit false

namespace Xyberos.Durable

variable {V : Type} {store : JournalStore V}

namespace Record

/-! ## A recorded request -/

/-- The request of time `t` is still recorded; no status that a cancelled execution must not reach was entered, and
no retry was scheduled. -/
structure Honours (t : Instant) (r r' : Record) : Prop where
  requested : ∃ row', r'.row = some row' ∧ row'.cancellationRequestedAt = some t
  enters : ∀ row', r'.row = some row' →
    row'.status ∈ [ExecutionStatus.completed, .failed, .retrying, .waiting] →
    ∃ row, r.row = some row ∧ row.status = row'.status
  retry : ∀ x, r'.retry = some x → r.retry = some x

section Honours

variable {t : Instant} {r r' : Record} {row : ExecutionRow}

/-- A move that leaves row and retry alone. -/
theorem Honours.of_eq (hrow : r.row = some row) (hreq : row.cancellationRequestedAt = some t)
    (h : r'.row = r.row) (hretry : r'.retry = r.retry) : Honours t r r' where
  requested := ⟨row, h.trans hrow, hreq⟩
  enters row' hrow' _ := ⟨row', h.symm.trans hrow', rfl⟩
  retry _ hx := hretry.symm.trans hx

/-- An `UPDATE` of the row that keeps the request and leaves the status alone or sets a harmless one. -/
theorem Honours.of_map (hrow : r.row = some row) (hreq : row.cancellationRequestedAt = some t)
    {f : ExecutionRow → ExecutionRow} (h : r'.row = r.row.map f)
    (hf : (f row).cancellationRequestedAt = row.cancellationRequestedAt)
    (hs : (f row).status = row.status ∨
      (f row).status ∉ [ExecutionStatus.completed, .failed, .retrying, .waiting])
    (hretry : r'.retry = r.retry ∨ r'.retry = none) : Honours t r r' where
  requested := ⟨f row, by rw [h, hrow, Option.map_some], hf.trans hreq⟩
  enters row' hrow' hmem := by
    rw [h, hrow, Option.map_some, Option.some.injEq] at hrow'
    subst hrow'
    exact ⟨row, hrow, (hs.resolve_right fun hn => hn hmem).symm⟩
  retry x hx := by
    rcases hretry with he | he
    · rw [← he, hx]
    · rw [he] at hx
      cases hx

theorem Accepts.not_requested {c : Claim V} {now : Instant} {row' : ExecutionRow} {target : ExecutionStatus}
    (h : r.Accepts c now row' target) (hrow : r.row = some row) : row.cancellationRequestedAt = none := by
  cases h.row_eq.symm.trans hrow
  exact h.uncancelled

theorem recordRequest_of_some {id : String} {now : Instant} {reason : Option String}
    (h : row.cancellationRequestedAt = some t) : recordRequest id now reason r row = r := by
  rw [recordRequest, h]
  rfl

theorem recordOwnRequest_of_some {id : String} {now : Instant} {reason : Option String}
    (h : row.cancellationRequestedAt = some t) : recordOwnRequest id now reason r row = r := by
  rw [recordOwnRequest, h]
  rfl

end Honours

/-- Every move honours a recorded request. -/
theorem Step.honours {now : Instant} {id : String} {op : Op V} {r r' : Record} {row : ExecutionRow} {t : Instant}
    (h : Step store now id op r r') (hrow : r.row = some row) (hreq : row.cancellationRequestedAt = some t) :
    Honours t r r' := by
  have refused : ∀ {c : Claim V} {row' target}, ¬ r.Accepts c now row' target := by
    intro c row' target h
    cases (h.not_requested hrow).symm.trans hreq
  cases h with
  | submit absent => cases absent.symm.trans hrow
  | claim hrow' =>
    cases hrow.symm.trans hrow'
    exact ⟨⟨_, rfl, hreq⟩, fun row' h' hmem => by cases h'; simp at hmem, fun x hx => by cases hx⟩
  | renew => exact .of_eq hrow hreq rfl rfl
  | release => exact .of_eq hrow hreq rfl rfl
  | expire => exact .of_map hrow hreq rfl rfl (.inr (by simp)) (.inr rfl)
  | startStep => exact .of_map hrow hreq rfl rfl (.inl rfl) (.inl rfl)
  | completeStep => exact .of_map hrow hreq rfl rfl (.inl rfl) (.inl rfl)
  | yieldExecution _ h => exact absurd h refused
  | skipStep => exact .of_eq hrow hreq rfl rfl
  | failStepDeadline _ _ h => exact absurd h refused
  | failStep _ _ _ h => exact absurd h refused
  | retryStep _ _ _ h => exact absurd h refused
  | markUnknown _ _ h => exact absurd h refused
  | resolveStep _ _ h => exact absurd h refused
  | completeExecution _ _ h => exact absurd h refused
  | failExecution _ h => exact absurd h refused
  | timeOutExecution _ h => exact absurd h refused
  | requestLive hrow' =>
    cases hrow.symm.trans hrow'
    rw [recordRequest_of_some hreq]
    exact .of_eq hrow hreq rfl rfl
  | requestFinish hrow' =>
    cases hrow.symm.trans hrow'
    rw [recordRequest_of_some hreq]
    exact .of_map hrow hreq rfl (by rw [hreq]; rfl) (.inr (by simp)) (.inr rfl)
  | acknowledge _ hrow' =>
    cases hrow.symm.trans hrow'
    rw [recordOwnRequest_of_some hreq]
    exact .of_map hrow hreq rfl rfl (.inr (by simp)) (.inr rfl)
  | markWaiting _ h => exact absurd h refused
  | resume => exact .of_map hrow hreq rfl rfl (.inr (by simp)) (.inl rfl)

theorem Honours.refl {t : Instant} {r : Record} {row : ExecutionRow} (hrow : r.row = some row)
    (hreq : row.cancellationRequestedAt = some t) : Honours t r r := .of_eq hrow hreq rfl rfl

end Record

/-- **A recorded request wins.**  When an execution carries a cancellation request after a run, every further call,
under whichever claim, leaves the request recorded, does not bring the execution into COMPLETED, FAILED, RETRYING or
WAITING, and schedules no retry for it. -/
theorem request_wins (store : JournalStore V) (l l' : List (Call V)) (id : String) (row : ExecutionRow) (t : Instant)
    (hrow : (runCalls store l).executions.get? id = some row) (hreq : row.cancellationRequestedAt = some t) :
    Steps (Call.exec store) (fun j x => (j.record id).Honours t ((x.exec store j).record id)) (runCalls store l) l' := by
  refine steps_of_invariant
    (I := fun j => ∃ row, (j.record id).row = some row ∧ row.cancellationRequestedAt = some t) ⟨row, hrow, hreq⟩ ?_
  rintro j x ⟨row, hrow, hreq⟩
  have hh : (j.record id).Honours t ((x.exec store j).record id) := by
    rcases x.exec_moves store j id with he | hs
    · rw [he]
      exact .refl hrow hreq
    · exact hs.honours hrow hreq
  exact ⟨hh, hh.requested⟩

/-- A request lands under the lease of `"e"`, and everything its owner and an operator do afterwards honours it. -/
theorem request_wins_claimed :
    Steps (Call.exec textStore) (fun j x => (j.record "e").Honours 2 ((x.exec textStore j).record "e"))
      (runCalls textStore (claimedOnce ++ [⟨.requestCancellation "e" none, 2⟩]))
      [⟨.completeExecution (oneStepClaim 1 1) "null", 3⟩, ⟨.resumeWaiting "e" none, 4⟩] := by
  obtain ⟨row, hrow, hreq⟩ : ∃ row ∈ (runCalls textStore
      (claimedOnce ++ [⟨.requestCancellation "e" none, 2⟩])).executions.get? "e",
      row.cancellationRequestedAt = some 2 := by decide
  exact request_wins textStore _ _ "e" row 2 hrow hreq

/-! ## Orphans -/

/-- An open execution with a request is RUNNING, so that an owner or the next claim acknowledges it. -/
def Record.NoOrphan (r : Record) : Prop :=
  ∀ row, r.row = some row → ¬ row.status.IsTerminal → row.cancellationRequestedAt ≠ none → row.status = .running

/-- The call is a request that finds an execution PENDING, RETRYING or WAITING, without a request and under a live
lease. -/
def Call.Orphans (x : Call V) (j : Journal) : Prop :=
  ∃ id reason row, x.op = .requestCancellation id reason ∧ j.executions.get? id = some row ∧
    row.status ∈ [ExecutionStatus.pending, .retrying, .waiting] ∧ row.cancellationRequestedAt = none ∧
    ¬ j.Unleased id x.now

namespace Record

theorem NoOrphan.of_eq {r r' : Record} (h : r.NoOrphan) (hr : r'.row = r.row) : r'.NoOrphan := by
  intro row hrow
  exact h row (hr ▸ hrow)

theorem NoOrphan.of_some {r' : Record} {row' : ExecutionRow} (hr : r'.row = some row')
    (h : row'.status.IsTerminal ∨ row'.cancellationRequestedAt = none ∨ row'.status = .running) : r'.NoOrphan := by
  intro row hrow live hreq
  cases hr.symm.trans hrow
  exact (h.resolve_left live).resolve_left hreq

/-- An `UPDATE` that keeps status and request. -/
theorem NoOrphan.of_map {r r' : Record} {f : ExecutionRow → ExecutionRow} (h : r.NoOrphan)
    (hr : r'.row = r.row.map f) (hs : ∀ row, (f row).status = row.status)
    (hq : ∀ row, (f row).cancellationRequestedAt = row.cancellationRequestedAt) : r'.NoOrphan := by
  intro row' hrow' live hreq
  rw [hr] at hrow'
  obtain ⟨row, hrow, rfl⟩ := Option.map_eq_some_iff.mp hrow'
  rw [hs] at live ⊢
  rw [hq] at hreq
  exact h row hrow live hreq

/-- A guarded write of a status, which refuses a requested execution. -/
theorem NoOrphan.of_accepts {r r' : Record} {f : ExecutionRow → ExecutionRow} {c : Claim V} {now : Instant}
    {row : ExecutionRow} {target : ExecutionStatus} (h : r.Accepts c now row target)
    (hr : r'.row = r.row.map f) (hq : (f row).cancellationRequestedAt = row.cancellationRequestedAt) :
    r'.NoOrphan :=
  .of_some (by rw [hr, h.row_eq, Option.map_some]) (.inr (.inl (hq.trans h.uncancelled)))

theorem status_eq_running {s : ExecutionStatus} (live : ¬ s.IsTerminal)
    (h : s ∉ [ExecutionStatus.pending, .retrying, .waiting]) : s = .running := by
  cases s <;> first | rfl | exact absurd (by decide) live | exact absurd (by decide) h

theorem NoOrphan.recordRequest {id : String} {now : Instant} {reason : Option String} {r : Record}
    {row : ExecutionRow} (hr : r.NoOrphan) (hrow : r.row = some row) (live : ¬ row.status.IsTerminal)
    (h : row.cancellationRequestedAt = none → row.status ∉ [ExecutionStatus.pending, .retrying, .waiting]) :
    (recordRequest id now reason r row).NoOrphan := by
  refine .of_some (recordRequest_row hrow) (.inr (.inr ?_))
  by_cases hq : row.cancellationRequestedAt = none
  · rw [if_pos hq]
    exact status_eq_running live (h hq)
  · rw [if_neg hq]
    exact hr row hrow live hq

/-- Every move but a request for an execution that is not RUNNING, under a live lease, leaves no orphan. -/
theorem Step.noOrphan {now : Instant} {id : String} {op : Op V} {r r' : Record}
    (h : Step store now id op r r') (hr : r.NoOrphan)
    (hop : ∀ reason row, op = .requestCancellation id reason → r.row = some row →
      row.cancellationRequestedAt = none → ¬ r.Unleased now →
      row.status ∉ [ExecutionStatus.pending, .retrying, .waiting]) : r'.NoOrphan := by
  cases h with
  | submit => exact .of_some rfl (.inr (.inl rfl))
  | claim => exact .of_some rfl (.inr (.inr rfl))
  | renew => exact hr.of_eq rfl
  | release => exact hr.of_eq rfl
  | expire hrow => exact .of_some (congrArg (Option.map _) hrow) (.inl isTerminal_timedOut)
  | startStep => exact hr.of_map rfl (fun _ => rfl) fun _ => rfl
  | completeStep => exact hr.of_map rfl (fun _ => rfl) fun _ => rfl
  | yieldExecution _ h => exact .of_accepts h rfl rfl
  | skipStep => exact hr.of_eq rfl
  | failStepDeadline _ _ h => exact .of_accepts h rfl rfl
  | failStep _ _ _ h => exact .of_accepts h rfl rfl
  | retryStep _ _ _ h => exact .of_accepts h rfl rfl
  | markUnknown _ _ h => exact .of_accepts h rfl rfl
  | resolveStep _ _ h => exact .of_accepts h rfl rfl
  | completeExecution _ _ h => exact .of_accepts h rfl rfl
  | failExecution _ h => exact .of_accepts h rfl rfl
  | timeOutExecution _ h => exact .of_accepts h rfl rfl
  | requestLive hrow live leased => exact hr.recordRequest hrow live fun hq => hop _ _ rfl hrow hq leased
  | requestFinish hrow =>
    exact .of_some (congrArg (Option.map _) (recordRequest_row hrow)) (.inl isTerminal_cancelled)
  | acknowledge _ hrow =>
    exact .of_some (congrArg (Option.map _) (recordOwnRequest_row hrow)) (.inl isTerminal_cancelled)
  | markWaiting _ h => exact .of_accepts h rfl rfl
  | resume hrow waiting =>
    -- a WAITING execution has no request
    refine .of_some (congrArg (Option.map _) hrow) (.inr (.inl ?_))
    by_contra hq
    have hs := hr _ hrow (by rw [waiting]; decide) hq
    rw [waiting] at hs
    cases hs

end Record

/-- From a journal without orphans, a call leaves one exactly when it is such a request. -/
theorem noOrphan_iff {j : Journal} (hj : ∀ id, (j.record id).NoOrphan) (x : Call V) :
    (∀ id, ((x.exec store j).record id).NoOrphan) ↔ ¬ x.Orphans j := by
  obtain ⟨op, now⟩ := x
  constructor
  · rintro h ⟨id, reason, row, hop, hrow, hs, hq, leased⟩
    cases hop
    have live : ¬ row.status.IsTerminal := by
      intro ht
      revert hs ht
      cases row.status <;> decide
    have hrun : (JournalStore.requestCancellation id reason now).run j = _ :=
      JournalStore.run_requestCancellation hrow live
    rw [if_neg leased] at hrun
    have hrow' : (((⟨.requestCancellation id reason, now⟩ : Call V).exec store j).record id).row =
        some { row with cancellationRequestedAt := now, cancellationReason := reason, updatedAt := now } := by
      rw [Call.exec_of_run (x := ⟨.requestCancellation id reason, now⟩) hrun, Moves.record_requested_self,
        Record.recordRequest_row hrow, if_pos hq]
    have hrunning := h id _ hrow' live (Option.some_ne_none now)
    rw [show row.status = .running from hrunning] at hs
    exact absurd hs (by decide)
  · intro hn id
    rcases Call.exec_moves store j ⟨op, now⟩ id with he | hs
    · rw [he]
      exact hj id
    · refine hs.noOrphan (hj id) ?_
      rintro reason row rfl hrow hq leased hmem
      exact hn ⟨id, reason, row, rfl, hrow, hmem, hq, leased⟩

/-- **Orphans.**  In every state of a run the open executions with a request are RUNNING, exactly when no call of the
run requests the cancellation of an execution that is not RUNNING but still under a live lease. -/
theorem no_orphan_iff (store : JournalStore V) (l : List (Call V)) :
    Steps (Call.exec store) (fun j x => ∀ id, ((x.exec store j).record id).NoOrphan) {} l ↔
      Steps (Call.exec store) (fun j x => ¬ x.Orphans j) {} l :=
  steps_exact (I := fun _ => True) (P := fun j : Journal => ∀ id, (j.record id).NoOrphan) trivial
    (fun _ _ hrow => by cases hrow) (fun _ _ _ => trivial) fun _ x _ hj => noOrphan_iff hj x

/-- The owner of `"e"` starts its step and dies; the next owner finds the outcome unknown and parks the execution, and
a request comes while that owner's lease is still live. -/
def requestedAfterParking : List (Call String) :=
  claimedOnce ++ [⟨.startStep (oneStepClaim 1 1) "a" none, 2⟩, ⟨.claimNext "o" none, 40000000⟩,
    ⟨.markStepOutcomeUnknown (oneStepClaim 2 40000000) "a" "interrupted", 40000001⟩,
    ⟨.requestCancellation "e" none, 40000002⟩]

theorem orphaned_request :
    ¬ Steps (Call.exec textStore) (fun j x => ∀ id, ((x.exec textStore j).record id).NoOrphan) {}
      requestedAfterParking := by
  rintro ⟨-, -, -, -, -, hn, -⟩
  obtain ⟨row, hrow, live, hq, hs⟩ : ∃ row ∈ (runCalls textStore requestedAfterParking).executions.get? "e",
      ¬ row.status.IsTerminal ∧ row.cancellationRequestedAt ≠ none ∧ row.status ≠ .running := by decide
  exact hs (hn "e" row hrow live hq)

end Xyberos.Durable
