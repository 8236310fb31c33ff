import Xyberos.Base.Run
import Xyberos.Durable.Runs
import Mathlib.Data.List.GetD

/-!
# Xyberos.Durable.History — operations whose reads may be stale

`SqliteDatabase.transaction` issues no `BEGIN`, so a transaction of the driver starts at the first write: a `SELECT`
before it may see an older committed state, and everything from the first write to the commit is atomic.  A history
holds the current journal and the committed states before it; a stale call says which of them each of its early
reads sees.  `Evolves` is what no statement of the store undoes, however stale the reads it was decided on.
-/

set_option autoImplicit false

namespace Xyberos.Durable

open Txn

variable {V : Type} {store : JournalStore V}

/-! ## What is never undone -/

/-- The status of a terminal execution, a recorded request, and the deadline stay. -/
structure RowEvolves (r r' : ExecutionRow) : Prop where
  terminal : r.status.IsTerminal → r'.status = r.status
  requested : r.cancellationRequestedAt ≠ none → r'.cancellationRequestedAt ≠ none
  deadline : r'.deadlineAt = r.deadlineAt

/-- Rows of executions stay, and evolve. -/
def Evolves (j j' : Journal) : Prop :=
  ∀ id row, j.executions.get? id = some row → ∃ row', j'.executions.get? id = some row' ∧ RowEvolves row row'

section Evolves

variable {j j' j'' : Journal} {id : String}

theorem RowEvolves.refl (r : ExecutionRow) : RowEvolves r r := ⟨fun _ => rfl, fun h => h, rfl⟩

theorem Evolves.refl (j : Journal) : Evolves j j := fun _ row hrow => ⟨row, hrow, .refl row⟩

theorem Evolves.trans (j j' j'' : Journal) (h : Evolves j j') (h' : Evolves j' j'') : Evolves j j'' := by
  intro id row hrow
  obtain ⟨row', hrow', e⟩ := h id row hrow
  obtain ⟨row'', hrow'', e'⟩ := h' id row' hrow'
  refine ⟨row'', hrow'', fun ht => ?_, fun hq => e'.requested (e.requested hq), e'.deadline.trans e.deadline⟩
  have hs := e.terminal ht
  exact (e'.terminal (hs ▸ ht)).trans hs

theorem Evolves.of_eq (h : j'.executions = j.executions) : Evolves j j' :=
  fun _ row hrow => ⟨row, h ▸ hrow, .refl row⟩

theorem evolves_updateExecution (j : Journal) (id : String) {p : ExecutionRow → Prop} [DecidablePred p]
    {f : ExecutionRow → ExecutionRow} (h : ∀ r, p r → RowEvolves r (f r)) :
    Evolves j (j.updateExecution id p f).1 := by
  intro id' row hrow
  have hget : (j.updateExecution id p f).1.executions.get? id' = _ := Table.get?_update (f := f) (p := p) id'
  rw [hget]
  by_cases he : id' = id
  · subst he
    rw [if_pos rfl, hrow, Option.map_some]
    refine ⟨_, rfl, ?_⟩
    split_ifs with hp
    · exact h row hp
    · exact .refl row
  · rw [if_neg he]
    exact ⟨row, hrow, .refl row⟩

theorem evolves_insert {executions : Table String ExecutionRow} {row : ExecutionRow}
    (h : j.executions.insert? id row = some executions) : Evolves j { j with executions := executions } := by
  intro id' row' hrow'
  refine ⟨row', ?_, .refl row'⟩
  show executions.get? id' = some row'
  rw [Table.get?_insert? h, if_neg ?_]
  · exact hrow'
  · rintro rfl
    cases (Table.get?_of_insert? h).symm.trans hrow'

end Evolves

/-! ## Every statement evolves the journal -/

section Respects

variable {α : Type} {c : Claim V} {now : Instant} {k : Unit → Tx α}

theorem respects_appendEvent (e : EventRow) : (appendEvent e).Respects Evolves :=
  respects_bind_write (fun _ => .of_eq rfl) fun _ => trivial

theorem respects_bind_appendEvent {e : EventRow} (hk : (k ()).Respects Evolves) :
    (appendEvent e >>= k).Respects Evolves :=
  (respects_appendEvent e).bind fun _ => hk

theorem respects_bind_executionRow {id : String} {k : ExecutionRow → Tx α} (hk : ∀ row, (k row).Respects Evolves) :
    (executionRow id >>= k).Respects Evolves := by
  refine Respects.bind (respects_bind_select fun row? => ?_) hk
  cases row? <;> trivial

theorem respects_bind_stepRow {id s : String} {k : StepRow → Tx α} (hk : ∀ row, (k row).Respects Evolves) :
    (stepRow id s >>= k).Respects Evolves := by
  refine Respects.bind (respects_bind_select fun row? => ?_) hk
  cases row? <;> trivial

theorem respects_explainRefusedWrite (expected : String) (allow : Bool) :
    (explainRefusedWrite (α := α) c now expected allow).Respects Evolves := by
  refine respects_bind_select fun row? => ?_
  cases row? with
  | none => trivial
  | some row =>
    dsimp only
    split_ifs
    · trivial
    · refine respects_bind_select fun lease? => ?_
      cases lease? with
      | none => trivial
      | some l =>
        dsimp only
        split_ifs <;> trivial

theorem respects_bind_releaseLease' (hk : (k ()).Respects Evolves) : (releaseLease' c now >>= k).Respects Evolves :=
  Respects.bind (respects_bind_write (fun _ => .of_eq rfl) fun _ => trivial) fun _ => hk

/-- An `UPDATE` of an execution. -/
theorem respects_bind_updateExecution {id : String} {p : Journal → ExecutionRow → Prop} [∀ j, DecidablePred (p j)]
    {f : ExecutionRow → ExecutionRow} {k : ℕ → Tx α} (h : ∀ j r, p j r → RowEvolves r (f r))
    (hk : ∀ n, (k n).Respects Evolves) :
    (execute (fun j => .ok (j.updateExecution id (p j) f)) >>= k).Respects Evolves :=
  respects_bind_write (fun j => evolves_updateExecution j id (h j)) hk

theorem respects_bind_deleteRetry {id : String} {k : ℕ → Tx α} (hk : ∀ n, (k n).Respects Evolves) :
    (execute (fun j => .ok (j.deleteRetry id, 1)) >>= k).Respects Evolves :=
  respects_bind_write (fun _ => .of_eq rfl) hk

/-- The write of a status restates the status that was read, so a terminal one is not left. -/
theorem respects_bind_setExecutionStatus {target : ExecutionStatus} {f : ExecutionRow → ExecutionRow} {allow : Bool}
    (hk : (k ()).Respects Evolves) (hq : ∀ r, (f r).cancellationRequestedAt = r.cancellationRequestedAt)
    (hd : ∀ r, (f r).deadlineAt = r.deadlineAt) :
    (setExecutionStatus c target now f allow >>= k).Respects Evolves := by
  refine Respects.bind (respects_bind_executionRow fun row => respects_bind_ofExcept fun u hu => ?_) fun _ => hk
  have live := not_isTerminal_of_mem (requireExecutionTransition_ok.mp hu)
  refine respects_bind_updateExecution (fun j r hr => ⟨fun ht => ?_, fun h => ?_, ?_⟩) fun n => ?_
  · rw [hr.1] at ht
    exact absurd ht live
  · rwa [hq]
  · rw [hd]
  · split_ifs
    · exact respects_explainRefusedWrite _ _
    · trivial

theorem respects_bind_setStepState {s : String} {target : StepState} {f : StepRow → StepRow}
    {allowed : Option (List StepState)} (hk : (k ()).Respects Evolves) :
    (setStepState c s target now f allowed >>= k).Respects Evolves := by
  refine Respects.bind (respects_bind_stepRow fun row => respects_bind_ofExcept fun _ _ => ?_) fun _ => hk
  refine respects_bind_write (fun j => .of_eq rfl) fun n => ?_
  split_ifs
  · exact respects_explainRefusedWrite _ _
  · trivial

end Respects

namespace JournalStore

section Respects

variable {c : Claim V} {now : Instant} {id : String} {reason : Option String}

theorem respects_registerDefinition {w : Workflow V} : (store.registerDefinition w now).Respects Evolves := by
  unfold registerDefinition
  refine respects_bind_ofExcept fun _ _ => respects_bind_ofExcept fun _ _ => respects_bind_select fun existing => ?_
  cases existing with
  | some existing =>
    dsimp only
    split_ifs <;> trivial
  | none =>
    refine Respects.bind (respects_execute fun j j' n h => ?_) fun _ => trivial
    split at h
    · cases h
      exact .of_eq rfl
    · cases h

theorem respects_insertStep {s : String} : (insertStep id s).Respects Evolves := by
  unfold insertStep
  refine Respects.bind (respects_execute fun j j' n h => ?_) fun _ => trivial
  split at h
  · cases h
    exact .of_eq rfl
  · cases h

theorem respects_submit {w : Workflow V} {input : V} {timeout : Option ℚ} {key : Option String} :
    (store.submit w input timeout id key now).Respects Evolves := by
  unfold submit
  refine respects_bind_ofExcept fun payload _ => ?_
  dsimp only
  split_ifs
  · trivial
  · refine respects_bind_select fun existing => ?_
    cases existing with
    | some existing =>
      dsimp only
      split_ifs <;> trivial
    | none =>
      refine Respects.bind (respects_execute fun j j' n h => ?_) fun _ =>
        (respects_forEach (fun _ => respects_insertStep) _).bind fun _ => respects_bind_appendEvent trivial
      split at h
      · rename_i t ht
        cases h
        exact evolves_insert ht
      · cases h

theorem respects_claimCandidate {owner : String} {expires : Instant} :
    (store.claimCandidate owner id expires now).Respects Evolves := by
  unfold claimCandidate
  refine respects_bind_updateExecution (fun j r hr => ⟨fun ht => ?_, fun h => h, rfl⟩) fun n => ?_
  · exfalso
    have hs := hr.1
    revert hs ht
    cases r.status <;> decide
  · split_ifs
    · trivial
    · refine respects_bind_write (fun _ => .of_eq rfl) fun _ => respects_bind_select fun lease? =>
        respects_bind_deleteRetry fun _ => respects_bind_executionRow fun row => ?_
      cases lease? with
      | none => trivial
      | some l => exact respects_bind_appendEvent trivial

theorem respects_claimNext {owner : String} {ttl : Option Duration} :
    (store.claimNext owner ttl now).Respects Evolves := by
  unfold claimNext
  split_ifs
  · trivial
  refine respects_bind_select fun candidate => ?_
  cases candidate with
  | none => trivial
  | some id => exact respects_claimCandidate

theorem respects_expireDeadlines : (expireDeadlines now).Respects Evolves := by
  unfold expireDeadlines
  refine respects_bind_select fun ids => (respects_forEach (fun id => ?_) _).bind fun _ => trivial
  unfold expireDeadline
  refine respects_bind_updateExecution (fun j r hr => ⟨fun ht => absurd ht hr, fun h => h, rfl⟩) fun _ => ?_
  exact respects_bind_deleteRetry fun _ => respects_appendEvent _

theorem respects_startStep {s : String} {key : Option String} : (startStep c s key now).Respects Evolves := by
  unfold startStep
  refine respects_bind_stepRow fun row => respects_bind_setStepState ?_
  refine respects_bind_updateExecution (fun j r _ => ⟨fun _ => rfl, fun h => h, rfl⟩) fun n => ?_
  split_ifs
  · exact respects_explainRefusedWrite _ _
  · exact respects_bind_appendEvent trivial

theorem respects_completeStep {s : String} {output : V} : (store.completeStep c s output now).Respects Evolves := by
  unfold completeStep
  refine respects_bind_ofExcept fun _ _ => respects_bind_stepRow fun row => respects_bind_setStepState ?_
  exact respects_bind_updateExecution (fun j r _ => ⟨fun _ => rfl, fun h => h, rfl⟩) fun _ => respects_appendEvent _

theorem respects_timeOutExecution {message : String} : (timeOutExecution c message now).Respects Evolves := by
  unfold timeOutExecution
  exact respects_bind_setExecutionStatus (respects_bind_appendEvent trivial) (fun _ => rfl) fun _ => rfl

theorem respects_failStep {s type message : String} {retryAt : Option Instant} :
    (failStep c s type message retryAt reason now).Respects Evolves := by
  unfold failStep
  split_ifs
  · exact respects_timeOutExecution
  · refine respects_bind_stepRow fun row => ?_
    cases retryAt with
    | none =>
      exact respects_bind_setStepState (respects_bind_setExecutionStatus
        (respects_bind_appendEvent (respects_bind_appendEvent trivial)) (fun _ => rfl) fun _ => rfl)
    | some due =>
      refine respects_bind_setStepState (respects_bind_write (fun _ => .of_eq rfl) fun _ => ?_)
      exact respects_bind_setExecutionStatus
        (respects_bind_appendEvent (respects_bind_releaseLease' (respects_bind_appendEvent trivial)))
        (fun _ => rfl) fun _ => rfl

theorem respects_finishCancelled : (finishCancelled id now reason).Respects Evolves := by
  unfold finishCancelled
  refine respects_bind_executionRow fun row => ?_
  split_ifs with ht
  · trivial
  · refine respects_bind_ofExcept fun _ _ => respects_bind_updateExecution (fun j r hr => ⟨fun h => ?_, fun _ => ?_, rfl⟩)
      fun _ => respects_bind_deleteRetry fun _ => respects_appendEvent _
    · rw [hr] at h
      exact absurd h ht
    · exact Option.some_ne_none _

theorem respects_finishUnlessOwned : (finishUnlessOwned id reason now).Respects Evolves := by
  refine respects_bind_select fun lease? => ?_
  split_ifs
  · trivial
  · exact respects_finishCancelled

theorem respects_writeRequest {status : ExecutionStatus} : (writeRequest id status reason now).Respects Evolves :=
  respects_bind_updateExecution (fun _ _ _ => ⟨fun _ => rfl, fun _ => Option.some_ne_none _, rfl⟩)
    fun _ => respects_appendEvent _

theorem respects_requestCancellation : (requestCancellation id reason now).Respects Evolves := by
  unfold requestCancellation
  refine respects_bind_executionRow fun row => ?_
  dsimp only
  split_ifs
  · trivial
  · exact respects_writeRequest.bind fun _ => respects_finishUnlessOwned
  · exact respects_finishUnlessOwned

theorem respects_acknowledgeCancellation : (acknowledgeCancellation c reason now).Respects Evolves := by
  unfold acknowledgeCancellation
  refine respects_bind_select fun row? => ?_
  cases row? with
  | none => trivial
  | some row =>
    refine Respects.bind ?_ fun _ => respects_bind_setExecutionStatus
      (respects_bind_deleteRetry fun _ => respects_appendEvent _) (fun _ => rfl) fun _ => rfl
    split_ifs
    · exact respects_bind_updateExecution (fun j r _ => ⟨fun _ => rfl, fun _ => Option.some_ne_none _, rfl⟩)
        fun _ => respects_appendEvent _
    · trivial

theorem respects_resumeWaiting : (resumeWaiting id reason now).Respects Evolves := by
  unfold resumeWaiting
  refine respects_bind_executionRow fun row => ?_
  split_ifs
  · trivial
  · refine respects_bind_updateExecution (fun j r hr => ⟨fun ht => ?_, fun h => h, rfl⟩) fun _ => respects_appendEvent _
    rw [hr] at ht
    exact absurd ht (by decide)

end Respects

end JournalStore

open JournalStore

/-- **Every operation evolves the journal**, whatever its early reads saw. -/
theorem txn_respects (op : Op V) (now : Instant) : (op.txn store now).Respects Evolves := by
  cases op with
  | registerDefinition w => exact respects_registerDefinition
  | submit w input timeout id key => exact respects_submit
  | claimNext owner ttl => exact respects_claimNext
  | renewLease c ttl =>
    show (store.renewLease c ttl now).Respects Evolves
    unfold renewLease
    refine respects_bind_write (fun _ => .of_eq rfl) fun n => ?_
    split_ifs
    · exact respects_explainRefusedWrite _ _
    · exact respects_bind_appendEvent trivial
  | releaseLease c =>
    show (releaseLease c now).Respects Evolves
    unfold releaseLease
    refine respects_bind_write (fun _ => .of_eq rfl) fun n => ?_
    split_ifs
    · exact respects_explainRefusedWrite _ _
    · trivial
  | expireDeadlines => exact respects_expireDeadlines
  | startStep c s key => exact respects_startStep
  | completeStep c s output => exact respects_completeStep
  | yieldExecution c reason =>
    exact respects_bind_setExecutionStatus (respects_bind_releaseLease' (respects_appendEvent _))
      (fun _ => rfl) fun _ => rfl
  | skipStep c s reason => exact respects_bind_setStepState (respects_appendEvent _)
  | failStep c s type message retryAt reason => exact respects_failStep
  | markStepOutcomeUnknown c s reason =>
    exact respects_bind_stepRow fun row => respects_bind_setStepState (respects_bind_setExecutionStatus
      (respects_bind_appendEvent (respects_appendEvent _)) (fun _ => rfl) fun _ => rfl)
  | resolveStep c s state output detail =>
    exact respects_bind_ofExcept fun _ _ => respects_bind_setStepState (respects_bind_setExecutionStatus
      (respects_bind_releaseLease' (respects_appendEvent _)) (fun _ => rfl) fun _ => rfl)
  | completeExecution c outputs =>
    exact respects_bind_ofExcept fun _ _ =>
      respects_bind_setExecutionStatus (respects_appendEvent _) (fun _ => rfl) fun _ => rfl
  | failExecution c kind message =>
    exact respects_bind_setExecutionStatus (respects_appendEvent _) (fun _ => rfl) fun _ => rfl
  | timeOutExecution c message => exact respects_timeOutExecution
  | requestCancellation id reason => exact respects_requestCancellation
  | acknowledgeCancellation c reason => exact respects_acknowledgeCancellation
  | markWaiting c reason =>
    exact respects_bind_setExecutionStatus (respects_appendEvent _) (fun _ => rfl) fun _ => rfl
  | resumeWaiting id reason => exact respects_resumeWaiting
  | stepStates id => exact respects_select _
  | runningSteps id => exact respects_select _
  | completedOutputs id => exact respects_select _
  | cancellationRequested id =>
    refine respects_bind_select fun row? => ?_
    cases row? <;> trivial
  | inspect id =>
    exact respects_bind_executionRow fun row => respects_bind_select fun _ => respects_bind_select fun _ =>
      respects_bind_select fun _ => trivial
  | expiredLeases => exact respects_select _

/-! ## Histories -/

/-- The committed states, the current one and those before it, the latest first. -/
structure History where
  current : Journal := {}
  older : List Journal := []

/-- A call of the store: before its first write, its `i`-th read sees the state `reads[i]` commits ago. -/
structure StaleCall (V : Type) where
  op : Op V
  now : Instant
  reads : List ℕ := []

namespace StaleCall

/-- The states that the reads of a call see. -/
def snapshots (x : StaleCall V) (h : History) : List Journal :=
  x.reads.map fun n => (h.current :: h.older).getD n h.current

/-- What the transaction of a call returns and commits. -/
def result (store : JournalStore V) (h : History) (x : StaleCall V) : Except Exc (x.op.Reply × Journal) :=
  (x.op.txn store x.now).runStale (x.snapshots h) h.current

def exec (store : JournalStore V) (h : History) (x : StaleCall V) : History :=
  match x.result store h with
  | .ok (_, j) => ⟨j, h.current :: h.older⟩
  | .error _ => h

end StaleCall

/-- The journal evolved from every older state. -/
def History.Ordered (h : History) : Prop := ∀ j ∈ h.older, Evolves j h.current

theorem StaleCall.exec_ordered {h : History} (hh : h.Ordered) (x : StaleCall V) : (x.exec store h).Ordered := by
  unfold exec
  cases hr : x.result store h with
  | error e => exact hh
  | ok r =>
    have he : Evolves h.current r.2 := (txn_respects x.op x.now).runStale Evolves.refl Evolves.trans hr
    intro j hj
    rcases List.mem_cons.mp hj with rfl | hj
    · exact he
    · exact (hh j hj).trans _ _ _ he

theorem getD_of_forall {α : Type} {P : α → Prop} {l : List α} {d : α} (h : ∀ a ∈ l, P a) (hd : P d) (i : ℕ) :
    P (l.getD i d) := by
  by_cases hi : i < l.length
  · rw [List.getD_eq_getElem _ _ hi]
    exact h _ (List.getElem_mem hi)
  · rw [List.getD_eq_default _ _ (not_lt.mp hi)]
    exact hd

theorem History.Ordered.snapshot {h : History} (hh : h.Ordered) (x : StaleCall V) (i : ℕ) :
    Evolves ((x.snapshots h).getD i h.current) h.current := by
  refine getD_of_forall (P := (Evolves · h.current)) (fun j hj => ?_) (.refl _) i
  obtain ⟨n, -, rfl⟩ := List.mem_map.mp hj
  refine getD_of_forall (P := (Evolves · h.current)) (fun j hj => ?_) (.refl _) n
  rcases List.mem_cons.mp hj with rfl | hj
  · exact .refl _
  · exact hh j hj

end Xyberos.Durable
