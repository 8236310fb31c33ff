import Xyberos.Durable.Runs

/-!
# Xyberos.Durable.Transitions — which status changes the store makes

The transition tables of `models.py` are the contract; `_set_execution_status` and `_set_step_state` check them,
while `claim_next`, `expire_deadlines`, the cancellation path and `resume_waiting` write the status with their own
SQL.  `legal_iff_no_resume`: the changes of a run are all in the tables exactly when no step resumes a parked
execution, for `resume_waiting` moves it from WAITING to PENDING, which the table does not have.
-/

set_option autoImplicit false

namespace Xyberos.Durable

variable {V : Type}

namespace Record

/-- A change of the status of the execution is in `EXECUTION_TRANSITIONS`. -/
def RowLegal (r r' : Record) : Prop :=
  ∀ row row', r.row = some row → r'.row = some row' → row.status ≠ row'.status →
    row'.status ∈ executionTransitions row.status

/-- A change of the state of a step is in `STEP_TRANSITIONS`. -/
def StepsLegal (r r' : Record) : Prop :=
  ∀ s st st', r.steps s = some st → r'.steps s = some st' → st.state ≠ st'.state →
    st'.state ∈ stepTransitions st.state

section Legal

variable {r r' : Record}

theorem RowLegal.of_eq (h : r'.row = r.row) : RowLegal r r' := by
  intro row row' hrow hrow' hne
  rw [h, hrow] at hrow'
  cases hrow'
  exact absurd rfl hne

theorem RowLegal.of_none (h : r.row = none) : RowLegal r r' := by
  intro row row' hrow
  rw [h] at hrow
  cases hrow

theorem RowLegal.of_some {row row' : ExecutionRow} (hrow : r.row = some row) (hrow' : r'.row = some row')
    (h : row'.status = row.status ∨ row'.status ∈ executionTransitions row.status) : RowLegal r r' := by
  intro a a' ha ha' hne
  rw [hrow] at ha
  rw [hrow'] at ha'
  cases ha
  cases ha'
  exact h.resolve_left hne.symm

/-- An `UPDATE` of the row. -/
theorem RowLegal.of_map {f : ExecutionRow → ExecutionRow} {row : ExecutionRow} (hrow : r.row = some row)
    (h' : r'.row = r.row.map f)
    (h : (f row).status = row.status ∨ (f row).status ∈ executionTransitions row.status) : RowLegal r r' :=
  .of_some hrow (by rw [h', hrow, Option.map_some]) h

/-- An `UPDATE` that does not set the status. -/
theorem RowLegal.of_same {f : ExecutionRow → ExecutionRow} (h' : r'.row = r.row.map f)
    (h : ∀ row, (f row).status = row.status) : RowLegal r r' := by
  cases hrow : r.row with
  | none => exact .of_none hrow
  | some row => exact .of_map hrow h' (.inl (h row))

theorem StepsLegal.of_eq (h : r'.steps = r.steps) : StepsLegal r r' := by
  intro s st st' hst hst' hne
  rw [h, hst] at hst'
  cases hst'
  exact absurd rfl hne

/-- A guarded write of one step. -/
theorem StepsLegal.of_accepts {c : Claim V} {now : Instant} {s : String} {st : StepRow} {target : StepState}
    {f : StepRow → StepRow} (h : r.AcceptsStep c now s st target) (h' : r'.steps = (r.modifyStep s f).steps)
    (hf : (f st).state = target) : StepsLegal r r' := by
  intro s' a a' ha ha' hne
  rw [h', modifyStep_steps] at ha'
  by_cases hs : s' = s
  · subst hs
    rw [if_pos rfl, h.step_eq, Option.map_some] at ha'
    rw [h.step_eq] at ha
    cases ha
    cases ha'
    rw [hf]
    exact h.legal
  · rw [if_neg hs, ha] at ha'
    cases ha'
    exact absurd rfl hne

end Legal

/-- Every move but the resumption of a parked execution changes status and states along the tables. -/
theorem Step.legal {store : JournalStore V} {now : Instant} {id : String} {op : Op V} {r r' : Record}
    (h : Step store now id op r r') (hop : ∀ reason, op ≠ .resumeWaiting id reason) :
    RowLegal r r' ∧ StepsLegal r r' := by
  cases h with
  | submit absent fresh =>
    refine ⟨.of_none absent, fun s st st' hst hst' hne => ?_⟩
    rw [log_steps] at hst'
    dsimp only at hst'
    split_ifs at hst' with hs
    · rw [fresh s hs] at hst
      cases hst
    · rw [hst] at hst'
      cases hst'
      exact absurd rfl hne
  | claim hrow elig =>
    refine ⟨.of_some hrow rfl (.inr ?_), .of_eq rfl⟩
    show ExecutionStatus.running ∈ _
    obtain ⟨-, -, ⟨hs, -⟩ | ⟨hs, -⟩⟩ := elig
    · rcases List.mem_pair.mp hs with hs | hs <;> rw [hs] <;> decide
    · rw [hs]
      decide
  | renew => exact ⟨.of_eq rfl, .of_eq rfl⟩
  | release => exact ⟨.of_eq rfl, .of_eq rfl⟩
  | expire hrow live => exact ⟨.of_map hrow rfl (.inr ((timedOut_mem_iff _).mpr live)), .of_eq rfl⟩
  | startStep _ _ h => exact ⟨.of_same rfl fun _ => rfl, .of_accepts h rfl rfl⟩
  | completeStep _ _ h => exact ⟨.of_same rfl fun _ => rfl, .of_accepts h rfl rfl⟩
  | yieldExecution _ h => exact ⟨.of_map h.row_eq rfl (.inr h.legal), .of_eq rfl⟩
  | skipStep _ h => exact ⟨.of_eq rfl, .of_accepts h rfl rfl⟩
  | failStepDeadline _ _ h => exact ⟨.of_map h.row_eq rfl (.inr h.legal), .of_eq rfl⟩
  | failStep _ _ hs h => exact ⟨.of_map h.row_eq rfl (.inr h.legal), .of_accepts hs rfl rfl⟩
  | retryStep _ _ hs h => exact ⟨.of_map h.row_eq rfl (.inr h.legal), .of_accepts hs rfl rfl⟩
  | markUnknown _ hs h => exact ⟨.of_map h.row_eq rfl (.inr h.legal), .of_accepts hs rfl rfl⟩
  | resolveStep _ hs h => exact ⟨.of_map h.row_eq rfl (.inr h.legal), .of_accepts hs rfl rfl⟩
  | completeExecution _ _ h => exact ⟨.of_map h.row_eq rfl (.inr h.legal), .of_eq rfl⟩
  | failExecution _ h => exact ⟨.of_map h.row_eq rfl (.inr h.legal), .of_eq rfl⟩
  | timeOutExecution _ h => exact ⟨.of_map h.row_eq rfl (.inr h.legal), .of_eq rfl⟩
  | requestLive hrow =>
    exact ⟨.of_some hrow (recordRequest_row hrow) (.inl (by split_ifs <;> rfl)), .of_eq recordRequest_steps⟩
  | requestFinish hrow live =>
    exact ⟨.of_some hrow (congrArg (Option.map _) (recordRequest_row hrow))
      (.inr ((cancelled_mem_iff _).mpr live)), .of_eq recordRequest_steps⟩
  | acknowledge _ hrow legal =>
    exact ⟨.of_some hrow (congrArg (Option.map _) (recordOwnRequest_row hrow)) (.inr legal),
      .of_eq recordOwnRequest_steps⟩
  | markWaiting _ h => exact ⟨.of_map h.row_eq rfl (.inr h.legal), .of_eq rfl⟩
  | resume => exact absurd rfl (hop _)

theorem Step.waiting {store : JournalStore V} {now : Instant} {id : String} {reason : Option String} {r r' : Record}
    (h : Step store now id (.resumeWaiting id reason) r r') : ∃ row, r.row = some row ∧ row.status = .waiting := by
  cases h with
  | resume hrow hw => exact ⟨_, hrow, hw⟩

end Record

/-! ## Runs -/

/-- Every change of a status or a state between two journals is in the tables. -/
def LegalChanges (j j' : Journal) : Prop :=
  ∀ id, (j.record id).RowLegal (j'.record id) ∧ (j.record id).StepsLegal (j'.record id)

/-- The call resumes an execution that is WAITING. -/
def Call.Resumes (x : Call V) (j : Journal) : Prop :=
  ∃ id reason row, x.op = .resumeWaiting id reason ∧ j.executions.get? id = some row ∧ row.status = .waiting

/-- A call keeps to the tables exactly when it does not resume a parked execution. -/
theorem legalChanges_iff (store : JournalStore V) (j : Journal) (x : Call V) :
    LegalChanges j (x.exec store j) ↔ ¬ x.Resumes j := by
  obtain ⟨op, now⟩ := x
  constructor
  · rintro h ⟨id, reason, row, hop, hrow, hw⟩
    cases hop
    have hrun : (JournalStore.resumeWaiting id reason now).run j = .ok ((), _) :=
      JournalStore.run_resumeWaiting.mpr ⟨row, hrow, hw, rfl⟩
    have hrow' : (((⟨.resumeWaiting id reason, now⟩ : Call V).exec store j).record id).row =
        some { row with status := .pending, updatedAt := now } := by
      rw [Call.exec_of_run (x := ⟨.resumeWaiting id reason, now⟩) hrun, record_appendEvent_self rfl, record_modifyExecution_self]
      simp [hrow]
    -- WAITING became PENDING
    have hmem := (h id).1 row _ hrow hrow' (by rw [hw]; exact ExecutionStatus.noConfusion)
    rw [hw] at hmem
    revert hmem
    show ExecutionStatus.pending ∉ _
    decide
  · intro hn id
    rcases Call.exec_moves store j ⟨op, now⟩ id with he | hs
    · rw [he]
      exact ⟨.of_eq rfl, .of_eq rfl⟩
    · refine hs.legal ?_
      rintro reason rfl
      obtain ⟨row, hrow, hw⟩ := hs.waiting
      exact hn ⟨id, reason, row, rfl, hrow, hw⟩

/-- **Legal changes.**  The status changes of a run are all in the transition tables exactly when no step of it
resumes a WAITING execution. -/
theorem legal_iff_no_resume (store : JournalStore V) (l : List (Call V)) :
    Steps (Call.exec store) (fun j x => LegalChanges j (x.exec store j)) {} l ↔
      Steps (Call.exec store) (fun j x => ¬ x.Resumes j) {} l :=
  steps_iff_of_invariant (I := fun _ => True) trivial (fun _ _ _ => trivial) fun j x _ => legalChanges_iff store j x

/-- `"e"` is parked and resumed. -/
def parkedAndResumed : List (Call String) :=
  claimedOnce ++ [⟨.markWaiting (oneStepClaim 1 1) "an operator decides", 2⟩, ⟨.resumeWaiting "e" none, 3⟩]

theorem resume_illegal :
    ¬ Steps (Call.exec textStore) (fun j x => LegalChanges j (x.exec textStore j)) {} parkedAndResumed := by
  rintro ⟨-, -, -, hl, -⟩
  exact absurd ((hl "e").1 _ _ rfl rfl (by decide)) (by decide)

end Xyberos.Durable
