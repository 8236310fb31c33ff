import Xyberos.Durable.Definitions
import Xyberos.Durable.Transitions

/-!
# Xyberos.Durable.Completion — COMPLETED and the states of the steps

`fail_step` fails the execution together with the step; `resolve_step` marks a step FAILED and puts the execution back
into the queue, where `plan_next` takes the step for resolved like any other.  Without the second, a COMPLETED
execution has only SUCCEEDED and SKIPPED steps (`completed_steps`); with it, it may have a FAILED one
(`completed_with_failure`).
-/

set_option autoImplicit false

namespace Xyberos.Durable

variable {V : Type}

namespace Record

/-- A FAILED step fails the execution, and the steps of a COMPLETED execution are SUCCEEDED or SKIPPED. -/
structure EndsWell (r : Record) : Prop where
  failed : ∀ row s st, r.row = some row → r.steps s = some st → st.state = .failed → row.status = .failed
  completed : ∀ row s st, r.row = some row → row.status = .completed → r.steps s = some st →
    st.state = .succeeded ∨ st.state = .skipped

section EndsWell

variable {store : JournalStore V} {now : Instant} {id s : String} {op : Op V} {r r' : Record}

/-- The ways a step becomes FAILED. -/
theorem Step.of_failed (h : Step store now id op r r') {st' : StepRow} (hst' : r'.steps s = some st')
    (hf : st'.state = .failed) : (∃ st, r.steps s = some st ∧ st.state = .failed) ∨
      (∀ row', r'.row = some row' → row'.status = .failed) ∨
      ∃ c output detail, op = .resolveStep c s .failed output detail := by
  have same : r'.steps = r.steps → (∃ st, r.steps s = some st ∧ st.state = .failed) := fun he => ⟨st', he ▸ hst', hf⟩
  -- a step that is written
  have written : ∀ {s' : String} {f : StepRow → StepRow}, r'.steps = (r.modifyStep s' f).steps →
      (∃ st, r.steps s = some st ∧ st.state = .failed) ∨ s = s' ∧ ∃ st, (f st).state = .failed := by
    intro s' f he
    rw [he, modifyStep_steps] at hst'
    split_ifs at hst' with hs
    · obtain ⟨st, -, rfl⟩ := Option.map_eq_some_iff.mp hst'
      exact .inr ⟨hs, st, hf⟩
    · exact .inl ⟨st', hst', hf⟩
  cases h with
  | submit absent =>
    rw [log_steps] at hst'
    dsimp only at hst'
    split_ifs at hst'
    · cases hst'
      cases hf
    · exact .inl ⟨st', hst', hf⟩
  | startStep => exact .inl ((written rfl).resolve_right fun ⟨_, _, h⟩ => by cases h)
  | completeStep => exact .inl ((written rfl).resolve_right fun ⟨_, _, h⟩ => by cases h)
  | skipStep => exact .inl ((written rfl).resolve_right fun ⟨_, _, h⟩ => by cases h)
  | retryStep => exact .inl ((written rfl).resolve_right fun ⟨_, _, h⟩ => by cases h)
  | markUnknown => exact .inl ((written rfl).resolve_right fun ⟨_, _, h⟩ => by cases h)
  | failStep =>
    refine .inr (.inl fun row' hrow' => ?_)
    obtain ⟨row, -, rfl⟩ := Option.map_eq_some_iff.mp hrow'
    rfl
  | resolveStep =>
    rcases written rfl with h | ⟨rfl, st, hstate⟩
    · exact .inl h
    · dsimp only at hstate
      subst hstate
      exact .inr (.inr ⟨_, _, _, rfl⟩)
  | requestLive => exact .inl (same recordRequest_steps)
  | requestFinish => exact .inl (same recordRequest_steps)
  | acknowledge => exact .inl (same recordOwnRequest_steps)
  | _ => exact .inl (same rfl)

/-- An execution becomes COMPLETED by `complete_execution`. -/
theorem Step.of_completed (h : Step store now id op r r') {row' : ExecutionRow} (hrow' : r'.row = some row')
    (hs : row'.status = .completed) : (∃ row, r.row = some row ∧ row.status = .completed) ∨
      ∃ c outputs row, op = .completeExecution c outputs ∧ c.executionId = id ∧ r'.steps = r.steps ∧
        r.Accepts c now row .completed := by
  have same : ∀ {f : ExecutionRow → ExecutionRow}, r'.row = r.row.map f → (∀ row, (f row).status = row.status) →
      ∃ row, r.row = some row ∧ row.status = .completed := by
    intro f hf hsame
    rw [hf] at hrow'
    obtain ⟨row, hrow, rfl⟩ := Option.map_eq_some_iff.mp hrow'
    exact ⟨row, hrow, (hsame row).symm.trans hs⟩
  have other : ∀ {row : Option ExecutionRow} {f : ExecutionRow → ExecutionRow}, r'.row = row.map f →
      (∀ row, (f row).status ≠ .completed) → False := by
    intro row f hf hne
    rw [hf] at hrow'
    obtain ⟨row, -, rfl⟩ := Option.map_eq_some_iff.mp hrow'
    exact hne row hs
  cases h with
  | submit =>
    cases hrow'
    cases hs
  | claim =>
    cases hrow'
    cases hs
  | renew => exact .inl ⟨row', hrow', hs⟩
  | release => exact .inl ⟨row', hrow', hs⟩
  | startStep => exact .inl (same rfl fun _ => rfl)
  | completeStep => exact .inl (same rfl fun _ => rfl)
  | skipStep => exact .inl ⟨row', hrow', hs⟩
  | completeExecution hc _ h => exact .inr ⟨_, _, _, rfl, hc, rfl, h⟩
  | requestLive hrow =>
    rw [recordRequest_row hrow, Option.some.injEq] at hrow'
    refine .inl ⟨_, hrow, ?_⟩
    rw [← hs, ← hrow']
    split_ifs <;> rfl
  | _ => exact (other rfl fun _ h => by cases h).elim

/-- **An operation keeps it**, unless it resolves a step as FAILED; and a completion has to find every step resolved. -/
theorem Step.endsWell (h : Step store now id op r r') (hroot : r.Rooted) (hr : r.EndsWell)
    (hresolve : ∀ c s output detail, op ≠ .resolveStep c s .failed output detail)
    (hcomplete : ∀ c outputs, op = .completeExecution c outputs → c.executionId = id →
      ∀ row, r.Accepts c now row .completed → ∀ s st, r.steps s = some st → st.state.IsTerminal) : r'.EndsWell := by
  have hg := h.grows
  constructor
  · intro row' s st' hrow' hst' hf
    rcases h.of_failed hst' hf with ⟨st, hst, hfst⟩ | hall | ⟨c, output, detail, hop⟩
    · cases hrow : r.row with
      | none =>
        rw [hroot hrow] at hst
        cases hst
      | some row =>
        have hfailed := hr.failed row s st hrow hst hfst
        rw [hg.ended row row' hrow hrow' (hfailed ▸ by decide), hfailed]
    · exact hall row' hrow'
    · exact absurd hop (hresolve c s output detail)
  · intro row' s st' hrow' hs hst'
    rcases h.of_completed hrow' hs with ⟨row, hrow, hrs⟩ | ⟨c, outputs, row, hop, hid, hsteps, ha⟩
    · have hsome : r.steps s ≠ none := by
        rw [ne_eq, hg.steps_none (by simp [hrow]) s, hst']
        simp
      obtain ⟨st, hst⟩ := Option.ne_none_iff_exists'.mp hsome
      have hwell := hr.completed row s st hrow hrs hst
      obtain ⟨st'', hst'', hstate, -⟩ := hg.resolved s st hst (by rcases hwell with h | h <;> rw [h] <;> decide)
      cases hst'.symm.trans hst''
      rwa [hstate]
    · rw [hsteps] at hst'
      have hterminal := hcomplete c outputs hop hid row ha s st' hst'
      -- a FAILED step would have failed the execution
      have hne : st'.state ≠ .failed := by
        intro hf
        have hfailed := hr.failed row s st' ha.row_eq hst' hf
        have hlegal := ha.legal
        rw [hfailed] at hlegal
        cases hlegal
      revert hterminal hne
      cases st'.state <;> decide

end EndsWell

end Record

/-! ## Histories -/

section History

variable (f : Fleet V)

/-- The request is a `resolve_step` that marks a step FAILED, and the journal accepts it. -/
def Request.marksFailed (store : JournalStore V) (j : Journal) (now : Instant) : Request V → Bool
  | .store (.resolveStep c s .failed output detail) =>
    (((Op.resolveStep c s .failed output detail).txn store now).commit j).1.toBool
  | _ => false

/-- In the turn of a worker, `resolve_step` marks a step FAILED. -/
def Roster.marksFailed {κ γ : Type} (store : JournalStore V) (s : Roster V κ γ) : Action V → Bool
  | .main i now _ => (s.asks i).any (Request.marksFailed store s.system.journal now)
  | _ => false

/-- Workers that each hold definitions of their own, as long as `resolve_step` marks no step FAILED. -/
def withoutFailedResolution : Planned V (DefinitionLookup V) where
  store := f.store
  fleet d := { f with definitions := d }
  inv x := ∀ id, (x.record id).EndsWell
  fair x _ now q := Request.marksFailed f.store x.journal now q = false

variable {f}

/-- A worker that completes an execution found all its steps resolved. -/
theorem resolved_of_completes (hdigest : Function.Injective f.store.digest) {k : DefinitionLookup V}
    {x : Station V (Notes V)} {now : Instant} {c : Claim V} {outputs : V} {row : ExecutionRow} {s : String} {st : StepRow}
    (hx : x.scene.Proper f.store)
    (hmay : (withoutFailedResolution f).may k x (.store (.completeExecution c outputs)))
    (ha : (x.scene.record c.executionId).Accepts c now row .completed)
    (hst : (x.scene.record c.executionId).steps s = some st) : st.state.IsTerminal := by
  obtain ⟨-, hhas, hgrounded⟩ := hmay c rfl
  obtain ⟨w, hw⟩ := hgrounded (.inl trivial)
  obtain ⟨plan, ⟨outs, hplan, -⟩, hcarries⟩ := hw.decided trivial ha.guard.fence_eq
  cases plan <;> try exact hcarries.elim
  obtain ⟨submitted, hsub, -, hmatches⟩ := matches_of_required hdigest hx hhas.about hw.definition
  obtain ⟨w', hsub', -, -, -, hsteps⟩ := hx.submitted _ row ha.row_eq
  cases hsub.symm.trans hsub'
  have hmem : s ∈ w.stepIds := by
    rw [hmatches.stepIds]
    by_contra hn
    rw [(hsteps s).mpr hn] at hst
    cases hst
  obtain ⟨step, hstep, rfl⟩ := List.mem_map.mp hmem
  have hres := planNext_complete hplan step hstep
  unfold Resolved statesOf at hres
  rwa [hst] at hres

theorem withoutFailedResolution_kept (hdigest : Function.Injective f.store.digest) :
    (withoutFailedResolution f).discipline.Kept (withoutFailedResolution f).fleet := by
  refine Planned.kept _ (fun _ => rfl) (fun id => ⟨?_, ?_⟩) ?_ ?_
  · intro row s st hrow
    cases hrow
  · intro row s st hrow
    cases hrow
  · intro x y hinv hw id
    rcases Scene.call_cases f.store x y id with he | hstep
    · show (((x.call f.store y).record id)).EndsWell
      rw [he]
      exact hinv.2 id
    · refine hstep.endsWell (hinv.1.rooted id) (hinv.2 id) (fun c s output detail hop => ?_) fun c outputs hop => ?_
      · rw [hop] at hw
        cases hw
      · rw [hop] at hw
        cases hw
  · intro k x now op c hinv hw hmay hfair id
    rcases Scene.call_cases f.store x.scene ⟨op, now⟩ id with he | hstep
    · show (((x.scene.call f.store ⟨op, now⟩).record id)).EndsWell
      rw [he]
      exact hinv.2 id
    · rcases Txn.commit_cases (op.txn f.store now) x.scene.journal with ⟨a, j', -, hcommit⟩ | ⟨e, -, hcommit⟩
      · refine hstep.endsWell (hinv.1.rooted id) (hinv.2 id) (fun c' s output detail hop => ?_)
          fun c' outputs hop hid row ha s st hst => ?_
        · subst hop
          have hrefused : (((Op.resolveStep c' s .failed output detail).txn f.store now).commit
            x.scene.journal).1.toBool = false := hfair
          rw [hcommit] at hrefused
          cases hrefused
        · subst hop hid
          cases hw
          exact resolved_of_completes hdigest hinv.1 hmay ha hst
      · have hsame : (x.scene.call f.store ⟨op, now⟩).record id = x.scene.record id :=
          congrArg (fun r : Except Exc op.Reply × Journal => r.2.record id) hcommit
        rw [show (withoutFailedResolution f).store = f.store from rfl, hsame]
        exact hinv.2 id

end History

/-- **COMPLETED means every step resolved well**, as long as `resolve_step` marks no step FAILED. -/
theorem completed_steps (f : Fleet V) (hdigest : Function.Injective f.store.digest) (d : DefinitionLookup V)
    (l : List (DefinitionLookup V × Action V))
    (hl : Steps (Roster.exec (withoutFailedResolution f).discipline (withoutFailedResolution f).fleet)
      (fun s x => s.marksFailed f.store x.2 = false) (Roster.empty (withoutFailedResolution f).discipline d) l)
    (id : String) (row : ExecutionRow)
    (hrow : ((after (Roster.exec (withoutFailedResolution f).discipline (withoutFailedResolution f).fleet)
      (Roster.empty (withoutFailedResolution f).discipline d) l).system.journal.record id).row = some row)
    (hs : row.status = .completed) (s : String) (st : StepRow)
    (hst : ((after (Roster.exec (withoutFailedResolution f).discipline (withoutFailedResolution f).fleet)
      (Roster.empty (withoutFailedResolution f).discipline d) l).system.journal.record id).steps s = some st) :
    st.state = .succeeded ∨ st.state = .skipped := by
  have hfair : Steps (Roster.exec (withoutFailedResolution f).discipline (withoutFailedResolution f).fleet)
      (Roster.Fair (withoutFailedResolution f).discipline) (Roster.empty (withoutFailedResolution f).discipline d) l := by
    refine hl.mono ?_
    rintro s ⟨k, a⟩ hx
    cases a with
    | main i now env =>
      intro q hq
      dsimp only [Roster.marksFailed] at hx
      rw [hq] at hx
      exact hx
    | _ => trivial
  obtain ⟨held, h⟩ := Roster.sound (withoutFailedResolution_kept hdigest) d l hfair
  exact (h.inv.2 id).completed row s st hrow hs hst

/-- A worker runs the step of `oneStep` and completes the execution. -/
def completedOnce : List (DefinitionLookup String × Action String) :=
  (fun _ _ => none, .operate (.submit oneStep "null" none "e" none) 0) :: (fun _ _ => some oneStep, .runOnce 0) ::
    List.replicate 12 (fun _ _ => none, .main 0 1 ⟨0, .ok "null", .ok (.other "NoneType")⟩)

theorem completed_steps_once : ∃ st,
    ((after (Roster.exec (withoutFailedResolution digestFleet).discipline (withoutFailedResolution digestFleet).fleet)
      (Roster.empty (withoutFailedResolution digestFleet).discipline fun _ _ => none)
      completedOnce).system.journal.record "e").steps "a" = some st ∧ (st.state = .succeeded ∨ st.state = .skipped) := by
  have hrow : ((after (Roster.exec (withoutFailedResolution digestFleet).discipline
      (withoutFailedResolution digestFleet).fleet) (Roster.empty (withoutFailedResolution digestFleet).discipline
      fun _ _ => none) completedOnce).system.journal.record "e").row.map ExecutionRow.status = some .completed := by
    decide +kernel
  have hst : (((after (Roster.exec (withoutFailedResolution digestFleet).discipline
      (withoutFailedResolution digestFleet).fleet) (Roster.empty (withoutFailedResolution digestFleet).discipline
      fun _ _ => none) completedOnce).system.journal.record "e").steps "a").map StepRow.attempts = some 1 := by
    decide +kernel
  obtain ⟨row, hrow, hs⟩ := Option.map_eq_some_iff.mp hrow
  obtain ⟨st, hst, -⟩ := Option.map_eq_some_iff.mp hst
  exact ⟨st, hst, completed_steps digestFleet oneStepDigest_injective (fun _ _ => none) completedOnce (by decide +kernel)
    "e" row hrow hs "a" st hst⟩

/-- Workers that ask a reconciler about the step of `oneStep`. -/
def reconciledFleet : Fleet String where
  store := textStore
  definitions _ _ := some oneStep
  activities _ := .reconcile
  owner _ := "o"

/-- A reconciler that says that the attempt failed. -/
def reconciledAsFailed : Env String where
  draw := 0
  outcome := .ok "null"
  reconciled := .ok (.decided ⟨.failed, "null", none, by decide⟩)

/-- `"e"` is submitted, and its step is started by a worker that dies; the next worker has it reconciled, and the one after
finds nothing left to do. -/
def failureReconciled : List (Action String) :=
  .operate (.submit oneStep "null" none "e" none) 0 :: .runOnce 0 :: List.flatten
    [List.replicate 5 (.main 0 1 reconciledAsFailed), [.crash 0, .runOnce 1],
     List.replicate 8 (.main 1 40000000 reconciledAsFailed), [.runOnce 1],
     List.replicate 5 (.main 1 40000001 reconciledAsFailed)]

theorem completed_with_failure : ¬ ∀ row s st,
    ((runActions reconciledFleet failureReconciled).journal.record "e").row = some row → row.status = .completed →
    ((runActions reconciledFleet failureReconciled).journal.record "e").steps s = some st →
    st.state = .succeeded ∨ st.state = .skipped := by
  intro h
  have hrow : ((runActions reconciledFleet failureReconciled).journal.record "e").row.map ExecutionRow.status =
    some .completed := by decide +kernel
  have hst : (((runActions reconciledFleet failureReconciled).journal.record "e").steps "a").map StepRow.state =
    some .failed := by decide +kernel
  obtain ⟨row, hrow, hs⟩ := Option.map_eq_some_iff.mp hrow
  obtain ⟨st, hst, hf⟩ := Option.map_eq_some_iff.mp hst
  rcases h row "a" st hrow hs hst with hgood | hgood <;> cases hf.symm.trans hgood

end Xyberos.Durable
