import Xyberos.Durable.Conduct
import Xyberos.Durable.Leases
import Xyberos.Durable.System

/-!
# Xyberos.Durable.Deadlines — executions whose deadline has passed

`claim_next` does not hand out an execution past its deadline, so no worker gets to see it: `overdue_left` says that
`run_once` finds nothing to do although such executions are there, that workers leave them as they are from then on, and
that `expire_deadlines`, which no worker calls, records them as timed out.
-/

set_option autoImplicit false

namespace Xyberos.Durable

open Proc

variable {V α : Type}

/-! ## Overdue executions -/

/-- The deadline has passed. -/
def ExecutionRow.Overdue (row : ExecutionRow) (now : Instant) : Prop := ∃ d ∈ row.deadlineAt, d ≤ now

instance (row : ExecutionRow) (now : Instant) : Decidable (row.Overdue now) :=
  inferInstanceAs (Decidable (∃ d ∈ row.deadlineAt, d ≤ now))

theorem ExecutionRow.Overdue.mono {row : ExecutionRow} {now now' : Instant} (h : row.Overdue now) (hle : now ≤ now') :
    row.Overdue now' := by
  obtain ⟨d, hd, due⟩ := h
  exact ⟨d, hd, due.trans hle⟩

namespace Record

/-- PENDING, RETRYING, or RUNNING under a lease that has expired. -/
def Queued (r : Record) (now : Instant) (row : ExecutionRow) : Prop :=
  row.status ∈ [ExecutionStatus.pending, .retrying] ∨ row.status = .running ∧ r.Unleased now

/-- Not to be started now: its cancellation was requested, or its retry is not due. -/
def Deferred (r : Record) (now : Instant) (row : ExecutionRow) : Prop :=
  row.status ≠ .running ∧ (row.cancellationRequestedAt ≠ none ∨ ∃ t ∈ r.retry, now < t.dueAt)

/-- Past its deadline, and nobody's: PENDING, RETRYING or RUNNING without a live lease. -/
def Lapsed (r : Record) (now : Instant) : Prop :=
  ∃ row, r.row = some row ∧ row.status ∈ [ExecutionStatus.pending, .retrying, .running] ∧ row.Overdue now ∧ r.Unleased now

section Lapsed

variable {store : JournalStore V} {now : Instant} {id : String} {op : Op V} {r r' : Record} {row : ExecutionRow}

theorem Lapsed.mono {now' : Instant} (h : r.Lapsed now) (hle : now ≤ now') : r.Lapsed now' := by
  obtain ⟨row, hrow, hs, hd, hu⟩ := h
  exact ⟨row, hrow, hs, hd.mono hle, hu.mono hle⟩

/-- What `claim_next` passes over is past its deadline or deferred. -/
theorem overdue_of_not_eligible (h : ¬ r.Eligible now row) (hq : r.Queued now row) (hd : ¬ r.Deferred now row) :
    row.Overdue now := by
  by_contra hn
  have hahead : ∀ d ∈ row.deadlineAt, now < d := fun d hd' => not_le.mp fun hle => hn ⟨d, hd', hle⟩
  rcases hq with hs | ⟨hs, hu⟩
  · have hne : row.status ≠ .running := by
      rcases List.mem_pair.mp hs with hs | hs <;> simp [hs]
    refine h ⟨.inl ?_, hahead, .inl ⟨hs, fun t ht => ?_⟩⟩
    · by_contra hc
      exact hd ⟨hne, .inl hc⟩
    · exact not_lt.mp fun hlt => hd ⟨hne, .inr ⟨t, ht, hlt⟩⟩
  · exact h ⟨.inr hs, hahead, .inr ⟨hs, hu⟩⟩

/-- Only `expire_deadlines` and a request to cancel it do anything to an execution that has lapsed. -/
theorem Step.of_lapsed (h : Step store now id op r r') (hr : r.Lapsed now) :
    op = .expireDeadlines ∨ ∃ reason, op = .requestCancellation id reason := by
  obtain ⟨row, hrow, hs, ⟨d, hd, due⟩, hu⟩ := hr
  cases h with
  | submit absent => cases absent.symm.trans hrow
  | claim hrow' elig =>
    cases hrow.symm.trans hrow'
    exact absurd due (not_le.mpr (elig.2.1 d hd))
  | renew _ guard => exact absurd hu guard.not_unleased
  | release _ guard => exact absurd hu guard.not_unleased
  | expire => exact .inl rfl
  | startStep _ _ h => exact absurd hu h.guard.not_unleased
  | completeStep _ _ h => exact absurd hu h.guard.not_unleased
  | yieldExecution _ h => exact absurd hu h.guard.not_unleased
  | skipStep _ h => exact absurd hu h.guard.not_unleased
  | failStepDeadline _ _ h => exact absurd hu h.guard.not_unleased
  | failStep _ _ _ h => exact absurd hu h.guard.not_unleased
  | retryStep _ _ _ h => exact absurd hu h.guard.not_unleased
  | markUnknown _ _ h => exact absurd hu h.guard.not_unleased
  | resolveStep _ _ h => exact absurd hu h.guard.not_unleased
  | completeExecution _ _ h => exact absurd hu h.guard.not_unleased
  | failExecution _ h => exact absurd hu h.guard.not_unleased
  | timeOutExecution _ h => exact absurd hu h.guard.not_unleased
  | requestLive => exact .inr ⟨_, rfl⟩
  | requestFinish => exact .inr ⟨_, rfl⟩
  | acknowledge _ _ _ guard => exact absurd hu guard.not_unleased
  | markWaiting _ h => exact absurd hu h.guard.not_unleased
  | resume hrow' waiting =>
    cases hrow.symm.trans hrow'
    rw [waiting] at hs
    exact absurd hs (by decide)

theorem Step.timedOut (h : Step store now id .expireDeadlines r r') :
    r'.row.map ExecutionRow.status = some .timedOut := by
  cases h with
  | expire hrow => simp [hrow]

end Lapsed

end Record

/-! ## What workers call -/

/-- Workers do not ask for a cancellation, and do not look for deadlines. -/
def Op.ByWorker : Op V → Prop
  | requestCancellation _ _ => False
  | expireDeadlines => False
  | _ => True

def Request.ByWorker : Request V → Prop
  | .store op => op.ByWorker
  | _ => True

theorem Op.Under.byWorker {op : Op V} {c : Claim V} (h : op.Under c) : op.ByWorker := by
  cases op with
  | requestCancellation id reason => cases h
  | expireDeadlines => cases h
  | _ => trivial

theorem Request.Under.byWorker {q : Request V} {c : Claim V} (h : q.Under c) : q.ByWorker := by
  cases q with
  | store op => exact Op.Under.byWorker h
  | _ => trivial

theorem byWorker_runOnce (w : DurableWorker V) : w.runOnce.Only Request.ByWorker := by
  refine .bind (only_request trivial) fun claim? => ?_
  cases claim? with
  | none => exact only_pure _
  | some claim => exact (only_work.mono fun _ h => h.byWorker).bind fun _ => only_pure _

section Recovery

variable {store : JournalStore V} {claim : Claim V} {policies : String → ActivityPolicy}
  {definitions : DefinitionLookup V} {owner : String} {ttl : Option Duration}

theorem only_recoverOne : (recoverOne store claim policies definitions).Only (Request.Under claim) := by
  unfold recoverOne
  split_ifs
  · exact .bind (only_call rfl) fun _ => only_pure _
  refine .bind (only_call rfl) fun running => ?_
  split_ifs
  · exact .bind (only_call rfl) fun _ => only_pure _
  · exact (only_ofExcept _).bind fun _ => .bind (only_call rfl) fun _ => .bind (only_call rfl) fun _ =>
      (only_ofExcept _).bind fun _ => only_resolveInterrupted.bind fun _ => only_pure _

theorem byWorker_recoverEach {ids : List String} {report : RecoveryReport} :
    (recoverEach store definitions policies owner ttl ids report).Only Request.ByWorker := by
  induction ids generalizing report with
  | nil => exact only_pure _
  | cons id rest ih =>
    refine .bind (only_request trivial) fun claim? => ?_
    cases claim? with
    | none => exact only_pure _
    | some claim =>
      dsimp only
      split_ifs
      · exact only_pure _
      · refine .bind (.attempt (only_recoverOne.mono fun _ h => h.byWorker)) fun decided => ?_
        cases decided with
        | ok decision => exact ih
        | error error =>
          dsimp only
          split_ifs
          · exact .bind (only_request trivial) fun _ => ih
          · exact only_raise _

theorem byWorker_recover (w : DurableWorker V) : w.recover.Only Request.ByWorker :=
  .bind (only_request trivial) fun _ => byWorker_recoverEach

end Recovery

theorem byWorker_heartbeat {h : Heartbeat V} {ttl : Duration} {op : Op V} (hop : h.op? ttl = some op) : op.ByWorker := by
  unfold Heartbeat.op? at hop
  split at hop <;> cases hop <;> trivial

/-! ## Histories -/

namespace System

variable {f : Fleet V} {s : System V} {a : Action V} {id : String} {now : Instant}

/-- What the workers of the system go on to call. -/
def ByWorkers (s : System V) : Prop := ∀ i, (s.sessions i).main.Only Request.ByWorker

theorem ByWorkers.setSession (h : s.ByWorkers) {i : ℕ} {session : Session V Unit}
    (hi : session.main.Only Request.ByWorker) : (s.setSession i session).ByWorkers := by
  intro i'
  by_cases he : i' = i
  · rw [he, setSession_self]
    exact hi
  · rw [setSession_of_ne _ he]
    exact h i'

theorem ByWorkers.exec (h : s.ByWorkers) (a : Action V) : (s.exec f a).ByWorkers := by
  cases a with
  | runOnce i => exact h.setSession ((byWorker_runOnce _).bind fun _ => only_pure ())
  | recover i => exact h.setSession ((byWorker_recover _).bind fun _ => only_pure ())
  | main i now env =>
    refine h.setSession ?_
    have hi := h i
    unfold Session.mainTurn
    split
    · rename_i q k hmain
      rw [hmain] at hi
      exact hi.2 _
    · exact hi
  | heartbeat i now =>
    refine h.setSession ?_
    rw [Session.heartbeatTurn_main]
    exact h i
  | crash i => exact h.setSession (only_pure ())
  | operate c now => exact h

theorem byWorkers_run (l : List (Action V)) : (runActions f l).ByWorkers :=
  after_invariant (fun _ => only_pure ()) fun _ a h => h.exec a

end System

/-- The operator neither cancels the execution nor looks for deadlines. -/
def OperatorCall.Spares (id : String) : OperatorCall V → Prop
  | .requestCancellation id' _ => id' ≠ id
  | .expireDeadlines => False
  | _ => True

/-- The action happens at `now` or later; one of an operator spares the execution. -/
def Action.Spares (id : String) (now : Instant) : Action V → Prop
  | .main _ t _ => now ≤ t
  | .heartbeat _ t => now ≤ t
  | .operate c t => now ≤ t ∧ c.Spares id
  | _ => True

theorem OperatorCall.Spares.op_ne {c : OperatorCall V} {id : String} (h : c.Spares id) :
    c.op ≠ .expireDeadlines ∧ ∀ reason, c.op ≠ .requestCancellation id reason := by
  cases c with
  | requestCancellation id' reason =>
    refine ⟨by simp [op], fun reason' he => ?_⟩
    cases he
    exact h rfl
  | expireDeadlines => exact h.elim
  | _ => simp [op]

theorem Op.ByWorker.op_ne {op : Op V} (h : op.ByWorker) (id : String) :
    op ≠ .expireDeadlines ∧ ∀ reason, op ≠ .requestCancellation id reason := by
  cases op with
  | requestCancellation id' reason => exact h.elim
  | expireDeadlines => exact h.elim
  | _ => simp

namespace System

variable {f : Fleet V} {s : System V} {a : Action V} {id : String} {now : Instant}

/-- A call at a later time leaves an execution that has lapsed as it is. -/
theorem record_call_of_lapsed {store : JournalStore V} {j : Journal} {op : Op V} {t : Instant}
    (hr : (j.record id).Lapsed now) (hle : now ≤ t)
    (hop : op ≠ .expireDeadlines ∧ ∀ reason, op ≠ .requestCancellation id reason) :
    (Call.exec store j ⟨op, t⟩).record id = j.record id := by
  rcases Call.exec_moves store j ⟨op, t⟩ id with he | hs
  · exact he
  · rcases hs.of_lapsed (hr.mono hle) with he | ⟨reason, he⟩
    · exact absurd he hop.1
    · exact absurd he (hop.2 reason)

theorem record_exec_of_lapsed (hs : s.ByWorkers) (hr : (s.journal.record id).Lapsed now) (ha : a.Spares id now) :
    (s.exec f a).journal.record id = s.journal.record id := by
  cases a with
  | runOnce i => rfl
  | recover i => rfl
  | main i t env =>
    have hi := hs i
    show ((s.sessions i).mainTurn f.store t env s.journal).1.record id = _
    unfold Session.mainTurn
    split
    · rename_i q k hmain
      rw [hmain] at hi
      cases q with
      | store op => exact record_call_of_lapsed hr ha (Op.ByWorker.op_ne hi.1 id)
      | _ => rfl
    · rfl
  | heartbeat i t =>
    show ((s.sessions i).heartbeatTurn f.store (f.worker i).leaseTtl t s.journal).1.record id = _
    rcases (s.sessions i).heartbeatTurn_journal f.store (f.worker i).leaseTtl t s.journal with he | ⟨h, op, -, hop, he⟩
    · rw [he]
    · rw [he]
      exact record_call_of_lapsed hr ha ((byWorker_heartbeat hop).op_ne id)
  | crash i => rfl
  | operate c t => exact record_call_of_lapsed hr ha.1 ha.2.op_ne

/-- An execution that has lapsed stays as it is. -/
theorem record_after_of_lapsed (hs : s.ByWorkers) (hr : (s.journal.record id).Lapsed now) {l : List (Action V)}
    (hl : ∀ a ∈ l, a.Spares id now) : (after (exec f) s l).journal.record id = s.journal.record id := by
  induction l generalizing s with
  | nil => rfl
  | cons a l ih =>
    have he := record_exec_of_lapsed (f := f) hs hr (hl a List.mem_cons_self)
    have hrest : ∀ b ∈ l, b.Spares id now := fun b hb => hl b (List.mem_cons_of_mem _ hb)
    rw [after_cons, ih (hs.exec a) (by rwa [he]) hrest, he]

end System

/-! ## Finding nothing -/

/-- `run_once` is called at `now` and returns `None`. -/
def DurableWorker.FindsNothing (w : DurableWorker V) (j : Journal) (now : Instant) : Prop :=
  ∃ env, (({ main := w.runOnce } : Session V (Option WorkOutcome)).mainTurn w.store now env j).2.main = .ret none

/-- From `now` on, `expire_deadlines` records the execution as timed out. -/
def Journal.TimesOut (store : JournalStore V) (j : Journal) (id : String) (now : Instant) : Prop :=
  ∀ t, now ≤ t → ((Call.exec store j ⟨.expireDeadlines, t⟩).record id).row.map ExecutionRow.status = some .timedOut

/-- A coroutine that goes on after its claim does not return `None`. -/
theorem bind_some_ne_none {p : Coroutine V α} : (p.bind fun a => .ret (some a)) ≠ .ret none := by
  cases p <;> simp [Proc.bind]

/-- `run_once` from the answer of `claim_next` on. -/
def DurableWorker.afterClaim (w : DurableWorker V) : Option (Claim V) → Coroutine V (Option WorkOutcome)
  | none => .ret none
  | some claim => (w.work claim).bind fun outcome => .ret (some outcome)

theorem DurableWorker.findsNothing_iff {w : DurableWorker V} {j : Journal} {now : Instant} : w.FindsNothing j now ↔
    (((Op.claimNext w.owner (some w.leaseTtl)).txn w.store now).commit j).1 = .ok none := by
  have hturn : ∀ env : Env V, (({ main := w.runOnce } : Session V (Option WorkOutcome)).mainTurn w.store now env j).2.main =
      (Proc.ofExcept (((Op.claimNext w.owner (some w.leaseTtl)).txn w.store now).commit j).1).bind w.afterClaim := by
    intro env
    show ((Proc.ofExcept (((Op.claimNext w.owner (some w.leaseTtl)).txn w.store now).commit j).1).bind _) = _
    congr 1
  constructor
  · rintro ⟨env, h⟩
    rw [hturn env] at h
    cases hc : (((Op.claimNext w.owner (some w.leaseTtl)).txn w.store now).commit j).1 with
    | error e =>
      rw [hc] at h
      cases h
    | ok claim? =>
      rw [hc] at h
      cases claim? with
      | none => rfl
      | some claim => exact absurd h bind_some_ne_none
  · intro hc
    refine ⟨⟨0, .error (durableStateError ""), .error (durableStateError "")⟩, ?_⟩
    rw [hturn, hc]
    rfl

/-- A live execution past its deadline. -/
theorem timesOut_of_overdue (store : JournalStore V) {j : Journal} {id : String} {now : Instant} {row : ExecutionRow}
    (hrow : (j.record id).row = some row) (live : ¬ row.status.IsTerminal) (hd : row.Overdue now) :
    j.TimesOut store id now := by
  intro t hle
  obtain ⟨d, hd, due⟩ := hd
  obtain ⟨a, j', hrun⟩ := JournalStore.exists_run_expireDeadlines t j
  have hstep := (Moves.expireDeadlines_overdue store hrun).1 row d hrow live hd (due.trans hle)
  rw [Call.exec_of_run (x := ⟨.expireDeadlines, t⟩) hrun]
  exact hstep.timedOut

/-- **Overdue executions wait for `expire_deadlines`.**  When a worker finds nothing to do, an execution that is PENDING,
RETRYING, or RUNNING under a lease that has expired is past its deadline, or its cancellation was requested, or its retry
is not due.  If it is past its deadline and nobody's, it stays as it is whatever the workers go on to do, until somebody
calls `expire_deadlines`, which records it as timed out. -/
theorem overdue_left (f : Fleet V) (l : List (Action V)) (i : ℕ) (now : Instant)
    (hnone : (f.worker i).FindsNothing (runActions f l).journal now) (id : String) (row : ExecutionRow)
    (hrow : ((runActions f l).journal.record id).row = some row)
    (hq : ((runActions f l).journal.record id).Queued now row) :
    (row.Overdue now ∨ ((runActions f l).journal.record id).Deferred now row) ∧
    (row.Overdue now → (runActions f l).journal.TimesOut f.store id now ∧
      (((runActions f l).journal.record id).Unleased now → ∀ l' : List (Action V), (∀ a ∈ l', a.Spares id now) →
        (after (System.exec f) (runActions f l) l').journal.record id = (runActions f l).journal.record id ∧
        (after (System.exec f) (runActions f l) l').journal.TimesOut f.store id now)) := by
  have hs : row.status ∈ [ExecutionStatus.pending, .retrying, .running] := by
    rcases hq with hs | ⟨hs, -⟩
    · rcases List.mem_pair.mp hs with hs | hs <;> simp [hs]
    · simp [hs]
  have live : ¬ row.status.IsTerminal := by
    intro ht
    revert hs ht
    cases row.status <;> decide
  constructor
  · by_cases hd : ((runActions f l).journal.record id).Deferred now row
    · exact .inr hd
    · have hclaim := Txn.run_of_commit (DurableWorker.findsNothing_iff.mp hnone)
      have helig : ¬ ((runActions f l).journal.record id).Eligible now row :=
        JournalStore.not_eligible_of_run hclaim hrow
      exact .inl (Record.overdue_of_not_eligible helig hq hd)
  · intro hd
    refine ⟨timesOut_of_overdue f.store hrow live hd, fun hu l' hl' => ?_⟩
    have hrecord := System.record_after_of_lapsed (f := f) (System.byWorkers_run l) ⟨row, hrow, hs, hd, hu⟩ hl'
    have hrow' : ((after (System.exec f) (runActions f l) l').journal.record id).row = some row := by
      rw [hrecord, hrow]
    exact ⟨hrecord, timesOut_of_overdue f.store hrow' live hd⟩

/-- Workers that have the definition of `oneStep`. -/
def oneStepFleet : Fleet String where
  store := textStore
  definitions _ _ := some oneStep
  activities _ := .idempotent
  owner _ := "o"

/-- `"e"` is submitted with a timeout of five seconds, and the recovery pass of a worker comes a second too late. -/
def deadlineMissed : List (Action String) :=
  [.operate (.submit oneStep "null" (some 5) "e" none) 0, .recover 0,
   .main 0 6000000 ⟨0, .ok "null", .error (durableStateError "")⟩]

theorem deadlineMissed_pending : ∃ row, ((runActions oneStepFleet deadlineMissed).journal.record "e").row = some row ∧
    row.status = .pending ∧ row.deadlineAt = some 5000000 := by
  have hrow : (((runActions oneStepFleet deadlineMissed).journal.record "e").row.map fun row =>
      (row.status, row.deadlineAt)) = some (.pending, some 5000000) := by decide +kernel
  obtain ⟨row, hrow, h⟩ := Option.map_eq_some_iff.mp hrow
  exact ⟨row, hrow, congrArg Prod.fst h, congrArg Prod.snd h⟩

theorem deadlineMissed_findsNothing :
    (oneStepFleet.worker 0).FindsNothing (runActions oneStepFleet deadlineMissed).journal 6000000 := by
  rw [DurableWorker.findsNothing_iff]
  decide +kernel

/-- What is left of `"e"` is recorded as timed out as soon as somebody calls `expire_deadlines`. -/
theorem overdue_left_pending : (runActions oneStepFleet deadlineMissed).journal.TimesOut textStore "e" 6000000 := by
  obtain ⟨row, hrow, hs, hd⟩ := deadlineMissed_pending
  have hover : row.Overdue 6000000 := ⟨5000000, hd, by decide⟩
  exact ((overdue_left oneStepFleet deadlineMissed 0 6000000 deadlineMissed_findsNothing "e" row hrow
    (.inl (by simp [hs]))).2 hover).1

/-- **A worker that finds nothing to do leaves overdue executions behind**, after its own recovery pass. -/
theorem deadline_not_enforced : ((runActions oneStepFleet deadlineMissed).sessions 0).main.ended = some (.ok ()) ∧
    (oneStepFleet.worker 0).FindsNothing (runActions oneStepFleet deadlineMissed).journal 6000000 ∧
    ¬ ∀ id row, ((runActions oneStepFleet deadlineMissed).journal.record id).row = some row →
      ((runActions oneStepFleet deadlineMissed).journal.record id).Queued 6000000 row → ¬ row.Overdue 6000000 := by
  refine ⟨by decide +kernel, deadlineMissed_findsNothing, fun h => ?_⟩
  obtain ⟨row, hrow, hs, hd⟩ := deadlineMissed_pending
  exact h "e" row hrow (.inl (by simp [hs])) ⟨5000000, hd, by decide⟩

end Xyberos.Durable
