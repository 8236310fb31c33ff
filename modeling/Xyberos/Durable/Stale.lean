import Xyberos.Durable.History

/-!
# Xyberos.Durable.Stale — claims and cancellation requests decided on stale reads

`claim_next` and `request_cancellation` read first and write conditionally on what they read.  The `UPDATE` of
`claim_next` restates every condition of its `SELECT` but the schedule of a retry (`claims_eligible_iff`; the
deadline it does not restate either never changes).  The `UPDATE`s of `request_cancellation` and
`_finish_cancelled` are conditional on the status that was read, and nobody looks at their row counts
(`requests_kept_iff`).
-/

set_option autoImplicit false

namespace Xyberos.Durable

open Txn

variable {V : Type} {store : JournalStore V}

/-! ## `claim_next` -/

namespace StaleCall

/-- A claim that was handed out is of an execution that was eligible at the `UPDATE`. -/
def ClaimsEligible (store : JournalStore V) (h : History) (x : StaleCall V) : Prop :=
  ∀ owner ttl c j', x.op = .claimNext owner ttl →
    (store.claimNext owner ttl x.now).runStale (x.snapshots h) h.current = .ok (some c, j') →
    ∃ row, h.current.executions.get? c.executionId = some row ∧ h.current.Eligible x.now c.executionId row

/-- The candidate that `claim_next` read has been scheduled for a retry that is not due yet. -/
def ClaimsEarly (h : History) (x : StaleCall V) : Prop :=
  ∃ owner ttl id row retry, x.op = .claimNext owner ttl ∧ isBlank owner = false ∧
    ((x.snapshots h).getD 0 h.current).candidate x.now = some id ∧
    h.current.executions.get? id = some row ∧ row.status ∈ [ExecutionStatus.pending, .retrying] ∧
    row.cancellationRequestedAt = none ∧ h.current.retries.get? id = some retry ∧ x.now < retry.dueAt

end StaleCall

section Claim

variable {j : Journal} {id : String} {row : ExecutionRow} {now : Instant}

/-- The conditional `UPDATE` accepts a candidate whose deadline is ahead exactly when it is eligible, up to the
schedule of a retry. -/
theorem eligible_iff_of_claimable (hc : JournalStore.Claimable j id now row) (hd : ∀ d ∈ row.deadlineAt, now < d) :
    j.Eligible now id row ↔
      (row.status ∈ [ExecutionStatus.pending, .retrying] → ∀ r ∈ j.retries.get? id, r.dueAt ≤ now) := by
  obtain ⟨hs, hq, hu⟩ := hc
  constructor
  · rintro ⟨-, -, ⟨-, hr⟩ | ⟨hrun, -⟩⟩ hmem
    · exact hr
    · rw [hrun] at hmem
      exact absurd hmem (by decide)
  · intro h
    refine ⟨hq, hd, ?_⟩
    by_cases hmem : row.status ∈ [ExecutionStatus.pending, .retrying]
    · exact .inl ⟨hmem, h hmem⟩
    · have hrun : row.status = .running := by
        revert hs hmem
        cases row.status <;> decide
      exact .inr ⟨hrun, hu.resolve_left hmem⟩

end Claim

/-- Only the candidate depends on what `claim_next` read. -/
theorem runStale_claimNext {owner : String} {ttl : Option Duration} {now : Instant} {snaps : List Journal}
    {j : Journal} (hb : isBlank owner = false) :
    (store.claimNext owner ttl now).runStale snaps j =
      match (snaps.getD 0 j).candidate now with
      | none => .ok (none, j)
      | some id => (store.claimCandidate owner id (now + ttl.getD store.leaseTtl) now).run j := by
  unfold JournalStore.claimNext
  rw [if_neg (by rw [hb]; exact Bool.false_ne_true), runStale_bind_select]
  cases (snaps.getD 0 j).candidate now <;> rfl

theorem claimsEligible_iff {h : History} (hh : h.Ordered) (x : StaleCall V) :
    x.ClaimsEligible store h ↔ ¬ x.ClaimsEarly h := by
  obtain ⟨op, now, reads⟩ := x
  constructor
  · rintro hc ⟨owner, ttl, id, row, retry, hop, hb, hcand, hrow, hs, hq, hretry, hdue⟩
    cases hop
    have hclaim : JournalStore.Claimable h.current id now row := by
      refine ⟨?_, .inl hq, .inl hs⟩
      rcases List.mem_pair.mp hs with hs | hs <;> simp [hs]
    have hrun : (store.claimCandidate owner id (now + ttl.getD store.leaseTtl) now).run h.current = _ :=
      JournalStore.run_claimCandidate hrow hclaim
    have hres : (store.claimNext owner ttl now).runStale
        ((⟨.claimNext owner ttl, now, reads⟩ : StaleCall V).snapshots h) h.current = _ := runStale_claimNext hb
    dsimp only at hcand
    rw [hcand] at hres
    obtain ⟨row', hrow', -, -, ⟨-, hdue'⟩ | ⟨hrunning, -⟩⟩ := hc owner ttl _ _ rfl (hres.trans hrun)
    · exact absurd (hdue' retry hretry) (not_le.mpr hdue)
    · cases hrow.symm.trans hrow'
      rw [hrunning] at hs
      exact absurd hs (by decide)
  · rintro hn owner ttl c j' hop hres
    cases hop
    have hb : isBlank owner = false := by
      rw [← Bool.not_eq_true]
      intro hb
      unfold JournalStore.claimNext at hres
      rw [if_pos hb] at hres
      cases hres
    rw [runStale_claimNext hb] at hres
    dsimp only at hres ⊢
    cases hcand : (((⟨.claimNext owner ttl, now, reads⟩ : StaleCall V).snapshots h).getD 0 h.current).candidate now with
    | none =>
      rw [hcand] at hres
      cases hres
    | some id =>
      rw [hcand] at hres
      dsimp only at hres
      -- the deadline that was read is the deadline now
      obtain ⟨old, hold, helig⟩ := JournalStore.candidate_eligible hcand
      obtain ⟨row, hrow, hev⟩ := hh.snapshot ⟨.claimNext owner ttl, now, reads⟩ 0 id old hold
      by_cases hclaim : JournalStore.Claimable h.current id now row
      · rw [JournalStore.run_claimCandidate hrow hclaim] at hres
        cases hres
        refine ⟨row, hrow, (eligible_iff_of_claimable hclaim (hev.deadline ▸ helig.2.1)).mpr fun hs retry hretry => ?_⟩
        by_contra hdue
        refine hn ⟨owner, ttl, id, row, retry, rfl, hb, hcand, hrow, hs, ?_, hretry, not_le.mp hdue⟩
        refine hclaim.2.1.resolve_right fun hrunning => ?_
        rw [hrunning] at hs
        exact absurd hs (by decide)
      · rw [JournalStore.run_claimCandidate_none fun r hr => by cases hrow.symm.trans hr; exact hclaim] at hres
        cases hres

/-- **Stale claims.**  In a run whose reads may be stale, every claim handed out is of an execution that was eligible at
the `UPDATE`, exactly when no `claim_next` reaches its `UPDATE` with a candidate rescheduled for later. -/
theorem claims_eligible_iff (store : JournalStore V) (l : List (StaleCall V)) :
    Steps (StaleCall.exec store) (fun h x => x.ClaimsEligible store h) {} l ↔
      Steps (StaleCall.exec store) (fun h x => ¬ x.ClaimsEarly h) {} l :=
  steps_iff_of_invariant (I := History.Ordered) (fun _ hj => by cases hj) (fun _ x hh => x.exec_ordered hh)
    fun _ x hh => claimsEligible_iff hh x

/-! ## `request_cancellation` -/

/-- What a `request_cancellation` that returns normally at `now` promises about the execution, from the journal `j` at
its first write to the journal `j'` it commits: the execution is terminal or its request is recorded, and an event it
appended tells of a change it made. -/
structure RequestKept (id : String) (now : Instant) (j j' : Journal) : Prop where
  honoured : ∃ row', j'.executions.get? id = some row' ∧
    (row'.status.IsTerminal ∨ row'.cancellationRequestedAt ≠ none)
  requested : ∀ e ∈ j'.events.drop j.events.length, e.kind = .cancellationRequested →
    ∃ row', j'.executions.get? id = some row' ∧ row'.cancellationRequestedAt = some now
  cancelled : ∀ e ∈ j'.events.drop j.events.length, e.kind = .cancelled →
    ∃ row row', j.executions.get? id = some row ∧ row.status ≠ .cancelled ∧
      j'.executions.get? id = some row' ∧ row'.status = .cancelled

/-- `RequestKept` when the rows and the appended events are known. -/
theorem requestKept_iff {id : String} {now : Instant} {j j' : Journal} {row row' : ExecutionRow}
    (new : List EventRow) (hrow : j.executions.get? id = some row) (hrow' : j'.executions.get? id = some row')
    (hnew : j'.events = j.events ++ new) :
    RequestKept id now j j' ↔
      (row'.status.IsTerminal ∨ row'.cancellationRequestedAt ≠ none) ∧
      ((∃ e ∈ new, e.kind = .cancellationRequested) → row'.cancellationRequestedAt = some now) ∧
      ((∃ e ∈ new, e.kind = .cancelled) → row.status ≠ .cancelled ∧ row'.status = .cancelled) := by
  have hdrop : j'.events.drop j.events.length = new := by rw [hnew, List.drop_left]
  constructor
  · rintro ⟨⟨r, hr, h₁⟩, h₂, h₃⟩
    cases hrow'.symm.trans hr
    rw [hdrop] at h₂ h₃
    refine ⟨h₁, ?_, ?_⟩
    · rintro ⟨e, he, hk⟩
      obtain ⟨r', hr', h⟩ := h₂ e he hk
      cases hrow'.symm.trans hr'
      exact h
    · rintro ⟨e, he, hk⟩
      obtain ⟨a, a', ha, hne, ha', hc⟩ := h₃ e he hk
      cases hrow.symm.trans ha
      cases hrow'.symm.trans ha'
      exact ⟨hne, hc⟩
  · rintro ⟨h₁, h₂, h₃⟩
    refine ⟨⟨row', hrow', h₁⟩, fun e he hk => ?_, fun e he hk => ?_⟩
    · rw [hdrop] at he
      exact ⟨row', hrow', h₂ ⟨e, he, hk⟩⟩
    · rw [hdrop] at he
      exact ⟨row, row', hrow, (h₃ ⟨e, he, hk⟩).1, hrow', (h₃ ⟨e, he, hk⟩).2⟩

namespace JournalStore

section Request

variable {id : String} {now : Instant} {reason : Option String} {j : Journal} {row : ExecutionRow}
  {status : ExecutionStatus}

/-- The row after the request was written on the status `status`. -/
def requestedRow (status : ExecutionStatus) (reason : Option String) (now : Instant) (row : ExecutionRow) :
    ExecutionRow :=
  if row.status = status then
    { row with cancellationRequestedAt := now, cancellationReason := reason, updatedAt := now }
  else row

theorem requestedRow_status : (requestedRow status reason now row).status = row.status := by
  unfold requestedRow
  split_ifs <;> rfl

theorem requestedRow_request : (requestedRow status reason now row).cancellationRequestedAt =
    if row.status = status then some now else row.cancellationRequestedAt := by
  unfold requestedRow
  split_ifs <;> rfl

theorem requestWritten_row (reason : Option String) (now : Instant) (status : ExecutionStatus)
    (h : j.executions.get? id = some row) :
    (requestWritten id status reason now j).executions.get? id = some (requestedRow status reason now row) := by
  show (j.updateExecution id _ _).1.executions.get? id = _
  rw [Journal.updateExecution]
  dsimp only
  rw [Table.get?_update, if_pos rfl, h, Option.map_some, requestedRow]

theorem finished_row (h : j.executions.get? id = some row) :
    (finished id reason now j).executions.get? id = some { row with
      status := .cancelled, failureKind := some .cancelled, failureMessage := cancellationMessage reason
      currentStep := none, updatedAt := now
      cancellationRequestedAt := some (row.cancellationRequestedAt.getD now) } := by
  show (j.executions.modify id _).get? id = _
  rw [Table.get?_modify_self, h, Option.map_some]

/-- The branch that found no request. -/
theorem requestKept_written (hrow : j.executions.get? id = some row) (live : ¬ status.IsTerminal) {u : Unit}
    {j' : Journal}
    (h : (writeRequest id status reason now >>= fun _ => finishUnlessOwned id reason now).run j = .ok (u, j')) :
    RequestKept id now j j' ↔
      row.status = status ∨ row.cancellationRequestedAt = some now ∨
        (row.cancellationRequestedAt = none ∧ ¬ row.status.IsTerminal ∧ j.Unleased id now) := by
  rw [run_bind_of run_writeRequest, run_finishUnlessOwned] at h
  have hu : (requestWritten id status reason now j).Unleased id now ↔ j.Unleased id now := Iff.rfl
  have hrow₁ := requestWritten_row reason now status hrow
  have hev : (requestWritten id status reason now j).events =
    j.events ++ [{ executionId := id, kind := .cancellationRequested, «at» := now, detail := reason }] := rfl
  rw [if_congr hu rfl rfl] at h
  by_cases ht : row.status.IsTerminal
  · -- the execution ended in between, so the status is not the one that was read
    have hne : row.status ≠ status := fun he => live (he ▸ ht)
    have ht₁ : (requestedRow status reason now row).status.IsTerminal := by rwa [requestedRow_status]
    rw [run_finishCancelled_terminal hrow₁ ht₁, ite_self] at h
    cases h
    rw [requestKept_iff _ hrow hrow₁ hev, requestedRow_status, requestedRow_request]
    simp [ht, hne]
  · have hne : row.status ≠ .cancelled := fun he => ht (he ▸ isTerminal_cancelled)
    have ht₁ : ¬ (requestedRow status reason now row).status.IsTerminal := by rwa [requestedRow_status]
    rw [run_finishCancelled hrow₁ ht₁] at h
    by_cases hun : j.Unleased id now
    · rw [if_pos hun] at h
      cases h
      have hev' : (finished id reason now (requestWritten id status reason now j)).events = j.events ++
        [{ executionId := id, kind := .cancellationRequested, «at» := now, detail := reason },
         { executionId := id, kind := .cancelled, «at» := now, detail := reason }] := by
        show (requestWritten id status reason now j).events ++ [_] = _
        rw [hev, List.append_assoc]
        rfl
      rw [requestKept_iff _ hrow (finished_row hrow₁) hev', requestedRow_request]
      by_cases hm : row.status = status
      · simp [hm, hm ▸ hne]
      · cases row.cancellationRequestedAt <;> simp [hm, hne, ht, hun]
    · rw [if_neg hun] at h
      cases h
      rw [requestKept_iff _ hrow hrow₁ hev, requestedRow_status, requestedRow_request]
      by_cases hm : row.status = status
      · simp [hm]
      · cases row.cancellationRequestedAt <;> simp [hm, hun]

/-- The branch that found a request and no live lease; `last` is the status that `_finish_cancelled` read. -/
theorem requestKept_cancelled (hrow : j.executions.get? id = some row) (hreq : row.cancellationRequestedAt ≠ none)
    {last : ExecutionStatus} (live : ¬ last.IsTerminal) {u : Unit} {j' : Journal}
    (h : (writeCancelled id last reason now).run j = .ok (u, j')) :
    RequestKept id now j j' ↔ row.status = last := by
  have hne : row.status = last → row.status ≠ .cancelled := fun hm he => live (hm ▸ he ▸ isTerminal_cancelled)
  rw [writeCancelled, run_write, run_write, run_appendEvent] at h
  by_cases hm : row.status = last
  · rw [Journal.updateExecution_of_pos hrow hm] at h
    cases h
    refine (requestKept_iff [{ executionId := id, kind := .cancelled, «at» := now, detail := reason }] hrow
      (finished_row hrow) rfl).trans ?_
    simp [hm, hm ▸ hne hm]
  · rw [Journal.updateExecution_of_neg fun r hr he => hm (by cases hrow.symm.trans hr; exact he)] at h
    cases h
    -- the row is the one before
    have hrow' : ((j.deleteRetry id).appendEvent
        { executionId := id, kind := .cancelled, «at» := now, detail := reason }).executions.get? id = some row := hrow
    refine (requestKept_iff _ hrow hrow' rfl).trans ?_
    simp [hm, hreq]

end Request

end JournalStore

namespace StaleCall

/-- A `request_cancellation` that returns normally keeps its promise. -/
def KeepsRequest (h : History) (x : StaleCall V) : Prop :=
  ∀ id reason j', x.op = .requestCancellation id reason →
    (JournalStore.requestCancellation id reason x.now).runStale (x.snapshots h) h.current = .ok ((), j') →
    RequestKept id x.now h.current j'

/-- The `UPDATE`s of a `request_cancellation` find what it read.  `seen` is the row that its first read sees, `row`
the current one.  When `seen` is open without a request, the status is still the one of `seen`, or the request can
do without: it is recorded with this very time, or there is none, the execution is open and nobody owns it.  When `seen` is open
with a request and no live lease is read, the status is the one that `_finish_cancelled` reads. -/
def ReadsHold (h : History) (x : StaleCall V) : Prop :=
  ∀ id reason seen row, x.op = .requestCancellation id reason →
    ((x.snapshots h).getD 0 h.current).executions.get? id = some seen →
    h.current.executions.get? id = some row → ¬ seen.status.IsTerminal →
    (seen.cancellationRequestedAt = none →
      row.status = seen.status ∨ row.cancellationRequestedAt = some x.now ∨
        (row.cancellationRequestedAt = none ∧ ¬ row.status.IsTerminal ∧ h.current.Unleased id x.now)) ∧
    (seen.cancellationRequestedAt ≠ none → ((x.snapshots h).getD 1 h.current).Unleased id x.now →
      ∀ last, ((x.snapshots h).getD 2 h.current).executions.get? id = some last → ¬ last.status.IsTerminal →
        row.status = last.status)

end StaleCall

section Request

variable {α : Type} {id : String} {now : Instant} {reason : Option String} {j j' : Journal} {snaps : List Journal}

theorem runStale_executionRow {k : ExecutionRow → Tx α} {r : α × Journal} :
    (executionRow id >>= k).runStale snaps j = .ok r ↔
      ∃ row, (snaps.getD 0 j).executions.get? id = some row ∧ (k row).runStale snaps.tail j = .ok r := by
  rw [executionRow, bind_assoc, runStale_bind_select]
  cases (snaps.getD 0 j).executions.get? id with
  | none =>
    constructor
    · exact fun h => (by cases h)
    · rintro ⟨row, hrow, -⟩
      cases hrow
  | some row =>
    constructor
    · exact fun h => ⟨row, rfl, h⟩
    · rintro ⟨row', hrow', h⟩
      cases hrow'
      exact h

/-- `_finish_cancelled` decides on the row it reads, and writes on the current journal. -/
theorem runStale_finishCancelled {u : Unit} :
    (JournalStore.finishCancelled id now reason).runStale snaps j = .ok (u, j') ↔
      ∃ last, (snaps.getD 0 j).executions.get? id = some last ∧
        if last.status.IsTerminal then j' = j
        else (JournalStore.writeCancelled id last.status reason now).run j = .ok (u, j') := by
  unfold JournalStore.finishCancelled
  rw [runStale_executionRow]
  refine exists_congr fun last => and_congr_right fun _ => ?_
  split_ifs with ht
  · show Except.ok ((), j) = Except.ok (u, j') ↔ j' = j
    rw [Except.ok.injEq, Prod.mk.injEq, eq_comm (a := j)]
    exact and_iff_right rfl
  · have hok : requireExecutionTransition last.status .cancelled = .ok () :=
      requireExecutionTransition_ok.mpr ((cancelled_mem_iff _).mpr ht)
    rw [hok]
    exact Iff.rfl

theorem runStale_finishUnlessOwned {r : Unit × Journal} :
    (JournalStore.finishUnlessOwned id reason now).runStale snaps j = .ok r ↔
      if (snaps.getD 0 j).Unleased id now then
        (JournalStore.finishCancelled id now reason).runStale snaps.tail j = .ok r
      else r = ((), j) := by
  unfold JournalStore.finishUnlessOwned
  rw [runStale_bind_select]
  have hu : ((snaps.getD 0 j).leases.get? id).any (fun l => decide (now < l.expiresAt)) = true ↔
      ¬ (snaps.getD 0 j).Unleased id now := by
    rw [Journal.Unleased]
    cases (snaps.getD 0 j).leases.get? id <;> simp
  by_cases hun : (snaps.getD 0 j).Unleased id now
  · rw [if_pos hun, if_neg fun hc => (hu.mp hc) hun]
  · rw [if_neg hun, if_pos (hu.mpr hun)]
    show Except.ok ((), j) = Except.ok r ↔ r = ((), j)
    rw [Except.ok.injEq, eq_comm]

theorem runStale_requestCancellation {r : Unit × Journal} :
    (JournalStore.requestCancellation id reason now).runStale snaps j = .ok r ↔
      ∃ seen, (snaps.getD 0 j).executions.get? id = some seen ∧
        if seen.status.IsTerminal then r = ((), j)
        else if seen.cancellationRequestedAt = none then
          (JournalStore.writeRequest id seen.status reason now >>= fun _ =>
            JournalStore.finishUnlessOwned id reason now).run j = .ok r
        else (JournalStore.finishUnlessOwned id reason now).runStale snaps.tail j = .ok r := by
  unfold JournalStore.requestCancellation
  rw [runStale_executionRow]
  refine exists_congr fun seen => and_congr_right fun _ => ?_
  dsimp only
  split_ifs
  · show Except.ok ((), j) = Except.ok r ↔ r = ((), j)
    rw [Except.ok.injEq, eq_comm]
  · exact Iff.rfl
  · exact Iff.rfl

/-- An open execution that is read without a request: the rest cannot raise. -/
theorem run_written_ok (reason : Option String) (now : Instant) (status : ExecutionStatus) {row : ExecutionRow}
    (hrow : j.executions.get? id = some row) :
    ∃ j', (JournalStore.writeRequest id status reason now >>= fun _ =>
      JournalStore.finishUnlessOwned id reason now).run j = .ok ((), j') := by
  rw [run_bind_of JournalStore.run_writeRequest, JournalStore.run_finishUnlessOwned]
  have hrow₁ := JournalStore.requestWritten_row reason now status hrow
  split_ifs
  · by_cases ht : (JournalStore.requestedRow status reason now row).status.IsTerminal
    · exact ⟨_, JournalStore.run_finishCancelled_terminal hrow₁ ht⟩
    · exact ⟨_, JournalStore.run_finishCancelled hrow₁ ht⟩
  · exact ⟨_, rfl⟩

theorem getD_tail (l : List Journal) (i : ℕ) (j : Journal) : l.tail.getD i j = l.getD (i + 1) j := by
  cases l <;> rfl

theorem requestKept_refl {row : ExecutionRow} (hrow : j.executions.get? id = some row)
    (h : row.status.IsTerminal ∨ row.cancellationRequestedAt ≠ none) : RequestKept id now j j :=
  (requestKept_iff [] hrow hrow (List.append_nil _).symm).mpr ⟨h, by simp, by simp⟩

end Request

/-- **A request and its reads.** -/
theorem keepsRequest_iff {h : History} (hh : h.Ordered) (x : StaleCall V) : x.KeepsRequest h ↔ x.ReadsHold h := by
  have hev := hh.snapshot x
  constructor
  · rintro hk id reason seen row hop hseen hrow live
    refine ⟨fun hq => ?_, fun hq hun last hlast hlive => ?_⟩
    · obtain ⟨j', hrun⟩ := run_written_ok reason x.now seen.status hrow
      refine (JournalStore.requestKept_written hrow live hrun).mp (hk id reason j' hop ?_)
      exact runStale_requestCancellation.mpr ⟨seen, hseen, by rw [if_neg live, if_pos hq]; exact hrun⟩
    · have hreq : row.cancellationRequestedAt ≠ none := by
        obtain ⟨row', hrow', he⟩ := hev 0 id seen hseen
        cases hrow.symm.trans hrow'
        exact he.requested hq
      have hrun : (JournalStore.writeCancelled id last.status reason x.now).run h.current = .ok ((), _) := rfl
      refine (JournalStore.requestKept_cancelled hrow hreq hlive hrun).mp (hk id reason _ hop ?_)
      refine runStale_requestCancellation.mpr ⟨seen, hseen, ?_⟩
      rw [if_neg live, if_neg hq, runStale_finishUnlessOwned, getD_tail, if_pos hun, runStale_finishCancelled,
        getD_tail, getD_tail]
      exact ⟨last, hlast, by rw [if_neg hlive]; exact hrun⟩
  · rintro hr id reason j' hop hres
    obtain ⟨seen, hseen, hres⟩ := runStale_requestCancellation.mp hres
    obtain ⟨row, hrow, he⟩ := hev 0 id seen hseen
    by_cases ht : seen.status.IsTerminal
    · rw [if_pos ht] at hres
      cases hres
      exact requestKept_refl hrow (.inl (he.terminal ht ▸ ht))
    · obtain ⟨hwritten, hcancelled⟩ := hr id reason seen row hop hseen hrow ht
      rw [if_neg ht] at hres
      by_cases hq : seen.cancellationRequestedAt = none
      · rw [if_pos hq] at hres
        exact (JournalStore.requestKept_written hrow ht hres).mpr (hwritten hq)
      · have hreq := he.requested hq
        rw [if_neg hq, runStale_finishUnlessOwned, getD_tail] at hres
        by_cases hun : ((x.snapshots h).getD 1 h.current).Unleased id x.now
        · rw [if_pos hun, runStale_finishCancelled, getD_tail, getD_tail] at hres
          obtain ⟨last, hlast, hres⟩ := hres
          by_cases hl : last.status.IsTerminal
          · rw [if_pos hl] at hres
            subst hres
            exact requestKept_refl hrow (.inr hreq)
          · rw [if_neg hl] at hres
            exact (JournalStore.requestKept_cancelled hrow hreq hl hres).mpr (hcancelled hq hun last hlast hl)
        · rw [if_neg hun] at hres
          cases hres
          exact requestKept_refl hrow (.inr hreq)

/-- **Stale requests.**  In a run whose reads may be stale, every `request_cancellation` that returns normally keeps
its promise, exactly when its `UPDATE`s find what it read. -/
theorem requests_kept_iff (store : JournalStore V) (l : List (StaleCall V)) :
    Steps (StaleCall.exec store) (fun h x => x.KeepsRequest h) {} l ↔
      Steps (StaleCall.exec store) (fun h x => x.ReadsHold h) {} l :=
  steps_iff_of_invariant (I := History.Ordered) (fun _ hj => by cases hj) (fun _ x hh => x.exec_ordered hh)
    fun _ x hh => keepsRequest_iff hh x

/-! ## Two races -/

/-- A worker chooses `"e"` while it is PENDING; another one claims it, fails its step and schedules a retry for 60 seconds
later; then the first worker's `UPDATE` takes it. -/
def rescheduledMeanwhile : List (StaleCall String) :=
  [⟨.submit oneStep "null" none "e" none, 0, []⟩, ⟨.claimNext "o" none, 1, []⟩,
   ⟨.startStep (oneStepClaim 1 1) "a" none, 2, []⟩,
   ⟨.failStep (oneStepClaim 1 1) "a" "OSError" "refused" (some 60000000) none, 3, []⟩,
   ⟨.claimNext "late" none, 4, [3]⟩]

theorem retry_claimed_early :
    ¬ Steps (StaleCall.exec textStore) (fun h x => x.ClaimsEligible textStore h) {} rescheduledMeanwhile := by
  rintro ⟨-, -, -, -, hc, -⟩
  obtain ⟨row, hrow, he⟩ := hc "late" none { oneStepClaim 2 4 with owner := "late" } _ rfl rfl
  have hearly : ∀ row ∈ (after (StaleCall.exec textStore) {} (rescheduledMeanwhile.take 4)).current.executions.get? "e",
      ¬ (after (StaleCall.exec textStore) {} (rescheduledMeanwhile.take 4)).current.Eligible 4 "e" row := by decide
  exact hearly row hrow he

/-- A request reads `"e"` while it is PENDING; a worker claims it; then the request's `UPDATE` finds it RUNNING. -/
def claimedMeanwhile : List (StaleCall String) :=
  [⟨.submit oneStep "null" none "e" none, 0, []⟩, ⟨.claimNext "o" none, 1, []⟩,
   ⟨.requestCancellation "e" (some "operator"), 2, [1]⟩]

theorem request_lost :
    ¬ Steps (StaleCall.exec textStore) (fun h x => x.KeepsRequest h) {} claimedMeanwhile := by
  rintro ⟨-, -, hk, -⟩
  obtain ⟨row, hrow, h⟩ := (hk "e" (some "operator") _ rfl rfl).honoured
  have hlost : ∀ row ∈ (after (StaleCall.exec textStore) {} claimedMeanwhile).current.executions.get? "e",
      ¬ (row.status.IsTerminal ∨ row.cancellationRequestedAt ≠ none) := by decide
  exact hlost row hrow h

end Xyberos.Durable
