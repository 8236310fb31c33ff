import Xyberos.Durable.Runs

/-!
# Xyberos.Durable.Terminal — what can still change about a terminal execution

A guarded write of a status checks the transition table, and nothing leaves a terminal status.  A guarded write of a
step checks the lease and the state of the step, but not the status of the execution, and neither `expire_deadlines`
nor an operator's cancellation takes the lease away.  `frozen_iff_no_overwrite`: in a run, the rows of terminal
executions stay as they are exactly when no step is such a write.
-/

set_option autoImplicit false

namespace Xyberos.Durable

variable {V : Type} {store : JournalStore V}

/-- The row and the step rows are the same. -/
def Record.SameRows (r r' : Record) : Prop := r'.row = r.row ∧ r'.steps = r.steps

/-- The row of every terminal execution and the rows of its steps are the same. -/
def Frozen (j j' : Journal) : Prop :=
  ∀ id row, j.executions.get? id = some row → row.status.IsTerminal → (j.record id).SameRows (j'.record id)

/-- The call writes a step of a terminal execution: its claim names the live lease, and the step is in a state that
`start_step`, `complete_step` (of a payload the journal accepts) or `skip_step` goes on from. -/
def Call.Overwrites (store : JournalStore V) (x : Call V) (j : Journal) : Prop :=
  ∃ (c : Claim V) (s : String) (row : ExecutionRow) (st : StepRow),
    j.executions.get? c.executionId = some row ∧ row.status.IsTerminal ∧ j.LeaseGuard c x.now ∧
    j.steps.get? (c.executionId, s) = some st ∧
    ((∃ key, x.op = .startStep c s key ∧ st.state ∈ [StepState.pending, .running]) ∨
     (∃ output payload, x.op = .completeStep c s output ∧ .succeeded ∈ stepTransitions st.state ∧
        store.dump output s!"output of step {reprStr s}" = .ok payload) ∨
     (∃ reason, x.op = .skipStep c s reason ∧ .skipped ∈ stepTransitions st.state))

/-! ## What keeps a terminal execution -/

namespace Record

theorem Accepts.not_terminal {r : Record} {c : Claim V} {now : Instant} {row row' : ExecutionRow}
    {target : ExecutionStatus} (h : r.Accepts c now row target) (hrow : r.row = some row') :
    ¬ row'.status.IsTerminal := by
  cases h.row_eq.symm.trans hrow
  exact not_isTerminal_of_mem h.legal

/-- A move of a terminal execution that is none of the three step writes changes no row. -/
theorem Step.sameRows {now : Instant} {id : String} {op : Op V} {r r' : Record} {row : ExecutionRow}
    (h : Step store now id op r r') (hrow : r.row = some row) (ht : row.status.IsTerminal)
    (hstart : ∀ c s key, op ≠ .startStep c s key) (hcomplete : ∀ c s output, op ≠ .completeStep c s output)
    (hskip : ∀ c s reason, op ≠ .skipStep c s reason) : r.SameRows r' := by
  have hlive : ∀ {row'}, r.row = some row' → ¬ row'.status.IsTerminal → False := by
    intro row' hrow' hn
    cases hrow.symm.trans hrow'
    exact hn ht
  cases h with
  | submit absent => cases hrow.symm.trans absent
  | claim hrow' elig =>
    obtain ⟨-, -, ⟨hs, -⟩ | ⟨hs, -⟩⟩ := elig
    · refine (hlive hrow' ?_).elim
      rcases List.mem_pair.mp hs with hs | hs <;> rw [hs] <;> decide
    · refine (hlive hrow' ?_).elim
      rw [hs]
      decide
  | renew => exact ⟨rfl, rfl⟩
  | release => exact ⟨rfl, rfl⟩
  | expire hrow' live => exact (hlive hrow' live).elim
  | startStep => exact absurd rfl (hstart _ _ _)
  | completeStep => exact absurd rfl (hcomplete _ _ _)
  | yieldExecution _ h => exact absurd ht (h.not_terminal hrow)
  | skipStep => exact absurd rfl (hskip _ _ _)
  | failStepDeadline _ _ h => exact absurd ht (h.not_terminal hrow)
  | failStep _ _ _ h => exact absurd ht (h.not_terminal hrow)
  | retryStep _ _ _ h => exact absurd ht (h.not_terminal hrow)
  | markUnknown _ _ h => exact absurd ht (h.not_terminal hrow)
  | resolveStep _ _ h => exact absurd ht (h.not_terminal hrow)
  | completeExecution _ _ h => exact absurd ht (h.not_terminal hrow)
  | failExecution _ h => exact absurd ht (h.not_terminal hrow)
  | timeOutExecution _ h => exact absurd ht (h.not_terminal hrow)
  | requestLive hrow' live => exact (hlive hrow' live).elim
  | requestFinish hrow' live => exact (hlive hrow' live).elim
  | acknowledge _ hrow' legal => exact (hlive hrow' (not_isTerminal_of_mem legal)).elim
  | markWaiting _ h => exact absurd ht (h.not_terminal hrow)
  | resume hrow' waiting =>
    refine (hlive hrow' ?_).elim
    rw [waiting]
    decide

section Inversion

variable {now : Instant} {id s : String} {c : Claim V} {r r' : Record}

theorem Step.of_startStep {key : Option String} (h : Step store now id (.startStep c s key) r r') :
    c.executionId = id ∧ ∃ st, r.AcceptsStep c now s st .running ∧ st.state ∈ [StepState.pending, .running] := by
  cases h with
  | startStep hc _ h source => exact ⟨hc, _, h, source⟩

theorem Step.of_completeStep {output : V} (h : Step store now id (.completeStep c s output) r r') :
    c.executionId = id ∧ ∃ st payload, r.AcceptsStep c now s st .succeeded ∧
      store.dump output s!"output of step {reprStr s}" = .ok payload := by
  cases h with
  | completeStep hc hp h => exact ⟨hc, _, _, h, hp⟩

theorem Step.of_skipStep {reason : String} (h : Step store now id (.skipStep c s reason) r r') :
    c.executionId = id ∧ ∃ st, r.AcceptsStep c now s st .skipped := by
  cases h with
  | skipStep hc h => exact ⟨hc, _, h⟩

end Inversion

end Record

/-! ## Runs -/

/-- An accepted overwrite changes the row of its step. -/
theorem not_frozen_of_overwrites {j : Journal} {x : Call V} (h : x.Overwrites store j) :
    ¬ Frozen j (x.exec store j) := by
  obtain ⟨op, now⟩ := x
  obtain ⟨c, s, row, st, hrow, ht, hg, hst, hop⟩ := h
  intro hf
  obtain ⟨-, hsteps⟩ := hf c.executionId row hrow ht
  -- the step row before is the one after
  have hs : ((Call.exec store j ⟨op, now⟩).record c.executionId).steps s = some st := by
    rw [hsteps]
    exact hst
  rcases hop with ⟨key, hop, hsource⟩ | ⟨output, payload, hop, hlegal, hp⟩ | ⟨reason, hop, hlegal⟩
  · cases hop
    have hlegal : StepState.running ∈ stepTransitions st.state := by
      rcases List.mem_pair.mp hsource with h | h <;> rw [h] <;> decide
    have hrun : (JournalStore.startStep c s key now).run j = .ok (_, _) :=
      JournalStore.run_startStep.mpr ⟨row, st, hrow, ⟨hst, hlegal, hg⟩, hsource, rfl, rfl⟩
    rw [Call.exec_of_run (x := ⟨.startStep c s key, now⟩) hrun] at hs
    have ha := congrArg (Option.map StepRow.attempts) hs
    simp [hst] at ha
  · cases hop
    have hrun : (store.completeStep c s output now).run j = .ok ((), _) :=
      JournalStore.run_completeStep.mpr ⟨payload, st, hp, ⟨hst, hlegal, hg⟩, rfl⟩
    rw [Call.exec_of_run (x := ⟨.completeStep c s output, now⟩) hrun] at hs
    have hstate := congrArg (Option.map StepRow.state) hs
    simp [hst] at hstate
    rw [← hstate] at hlegal
    exact absurd hlegal (by decide)
  · cases hop
    have hrun : (JournalStore.skipStep c s reason now).run j = .ok ((), _) :=
      JournalStore.run_skipStep.mpr ⟨st, ⟨hst, hlegal, hg⟩, rfl⟩
    rw [Call.exec_of_run (x := ⟨.skipStep c s reason, now⟩) hrun] at hs
    have hstate := congrArg (Option.map StepRow.state) hs
    simp [hst] at hstate
    rw [← hstate] at hlegal
    exact absurd hlegal (by decide)

/-- A call leaves terminal executions as they are exactly when it overwrites none of their steps. -/
theorem frozen_iff (j : Journal) (x : Call V) : Frozen j (x.exec store j) ↔ ¬ x.Overwrites store j := by
  refine ⟨fun hf h => not_frozen_of_overwrites h hf, fun hn id row hrow ht => ?_⟩
  obtain ⟨op, now⟩ := x
  rcases Call.exec_moves store j ⟨op, now⟩ id with he | hs
  · rw [he]
    exact ⟨rfl, rfl⟩
  · refine hs.sameRows hrow ht ?_ ?_ ?_
    · rintro c s key rfl
      obtain ⟨rfl, st, h, hsource⟩ := hs.of_startStep
      exact hn ⟨c, s, row, st, hrow, ht, h.guard, h.step_eq, .inl ⟨key, rfl, hsource⟩⟩
    · rintro c s output rfl
      obtain ⟨rfl, st, payload, h, hp⟩ := hs.of_completeStep
      exact hn ⟨c, s, row, st, hrow, ht, h.guard, h.step_eq, .inr (.inl ⟨output, payload, rfl, h.legal, hp⟩)⟩
    · rintro c s reason rfl
      obtain ⟨rfl, st, h⟩ := hs.of_skipStep
      exact hn ⟨c, s, row, st, hrow, ht, h.guard, h.step_eq, .inr (.inr ⟨reason, rfl, h.legal⟩)⟩

/-- **Terminal executions.**  In a run, every call leaves the rows of the terminal executions and of their steps as
they are exactly when no call overwrites a step of one. -/
theorem frozen_iff_no_overwrite (store : JournalStore V) (l : List (Call V)) :
    Steps (Call.exec store) (fun j x => Frozen j (x.exec store j)) {} l ↔
      Steps (Call.exec store) (fun j x => ¬ x.Overwrites store j) {} l :=
  steps_iff_of_invariant (I := fun _ => True) trivial (fun _ _ _ => trivial) fun j x _ => frozen_iff j x

/-- The deadline of `"e"` passes under its owner's lease, and the owner starts its step all the same. -/
def startedAfterDeadline : List (Call String) :=
  [⟨.submit oneStep "null" (some 5) "e" none, 0⟩, ⟨.claimNext "o" none, 1⟩, ⟨.expireDeadlines, 6000000⟩,
   ⟨.startStep { oneStepClaim 1 1 with deadlineAt := some 5000000 } "a" none, 7000000⟩]

theorem terminal_overwritten :
    ¬ Steps (Call.exec textStore) (fun j x => Frozen j (x.exec textStore j)) {} startedAfterDeadline := by
  rintro ⟨-, -, -, hf, -⟩
  obtain ⟨row, hrow, ht⟩ : ∃ row ∈ (runCalls textStore (startedAfterDeadline.take 3)).executions.get? "e",
      row.status.IsTerminal := by decide +kernel
  exact absurd (congrFun (hf "e" row hrow ht).2 "a") (by decide +kernel)

end Xyberos.Durable
