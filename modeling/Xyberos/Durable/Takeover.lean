import Xyberos.Durable.Alone
import Xyberos.Durable.Obligations

/-!
# Xyberos.Durable.Takeover — a worker takes over an interrupted attempt

`resolve_step` returns the execution to the queue and ends the lease, and `run_once` goes on under the same claim: whatever
`plan_next` says about the new states, the next thing it does is a guarded write that the lease does not cover any more.
So a takeover is sound only when an exception of another kind stops it before that (`takeover_sound_iff`).
-/

set_option autoImplicit false

namespace Xyberos

/-- The lease error or the state error. -/
def Exc.Refuses (e : Exc) : Prop :=
  e.isInstance "DurableLeaseError" = true ∨ e.isInstance "DurableStateError" = true

instance (e : Exc) : Decidable e.Refuses := inferInstanceAs (Decidable (_ ∨ _))

namespace Durable

open Proc (Runs)

variable {V α : Type}

/-! ## The claim -/

/-- The worker holds the claim on a RUNNING execution with these steps, and there is no heartbeat. -/
structure Desk.Holds (c : Claim V) (steps : String → Option StepRow) (s : Desk V) : Prop where
  idle : s.heartbeat = none
  row : ∃ row, (s.record c.executionId).row = some row ∧ row.status = .running ∧ row.cancellationRequestedAt = none
  steps : (s.record c.executionId).steps = steps
  lease : ∃ l, (s.record c.executionId).lease = some l ∧ l.owner = c.owner ∧ l.fence = c.fence ∧ l.expiresAt = c.expiresAt

/-- The worker has let the claim go: the lease has ended. -/
structure Desk.LetGo (c : Claim V) (states : String → Option StepState) (s : Desk V) : Prop where
  idle : s.heartbeat = none
  steps : statesOf (s.record c.executionId).steps = states
  ended : (s.record c.executionId).Unleased s.clock

section Holds

variable {store : JournalStore V} {c : Claim V} {steps : String → Option StepRow} {s : Desk V}

theorem Desk.Holds.wait (h : s.Holds c steps) (delay : ℕ) : (s.wait delay).Holds c steps :=
  ⟨h.idle, h.row, h.steps, h.lease⟩

theorem Desk.Holds.guard (h : s.Holds c steps) (hfresh : s.clock < c.expiresAt) :
    (s.record c.executionId).Guard c s.clock := by
  obtain ⟨l, hl, howner, hfence, hexpires⟩ := h.lease
  exact ⟨l, hl, howner, hfence, hexpires ▸ hfresh⟩

theorem Desk.Holds.leased (h : s.Holds c steps) (hfresh : s.clock < c.expiresAt) :
    ¬ (s.record c.executionId).Unleased s.clock := by
  obtain ⟨l, hl, -, -, hexpires⟩ := h.lease
  exact fun hu => absurd hfresh (not_lt.mpr (hexpires ▸ hu l hl))

theorem Desk.LetGo.wait {states : String → Option StepState} (h : s.LetGo c states) (delay : ℕ) :
    (s.wait delay).LetGo c states :=
  ⟨h.idle, h.steps, fun l hl => (h.ended l hl).trans (by simp)⟩

/-- A claim that is handed out on an abandoned execution. -/
theorem holds_of_claim {owner : String} {ttl : Option Duration} {row : ExecutionRow} (hs : s.heartbeat = none)
    (hc : (((Op.claimNext owner ttl).txn store s.clock).commit s.journal).1 = .ok (some c))
    (hrow : (s.record c.executionId).row = some row) (hq : row.cancellationRequestedAt = none) (hd : row.deadlineAt = none) :
    (s.call store (.claimNext owner ttl)).Holds c (s.record c.executionId).steps ∧ c.cancellationRequested = false ∧
      c.deadlineAt = none := by
  have hrun := Txn.run_of_commit hc
  obtain ⟨h, -⟩ | ⟨id, row', hrow', -, hclaim, hj⟩ := JournalStore.run_claimNext hrun
  · cases h
  · cases hclaim
    obtain rfl : row = row' := Option.some.inj (hrow.symm.trans hrow')
    rw [Desk.call_of_run hrun]
    have hrecord : ({ s with journal := (((Op.claimNext owner ttl).txn store s.clock).commit s.journal).2 } : Desk V).record
        (JournalStore.claimOf store id row (Record.claimLease owner s.clock (s.clock + ttl.getD store.leaseTtl)
          (s.journal.leases.get? id))).executionId = _ := (congrArg (Journal.record · id) hj).trans (Moves.record_claimed_self hrow')
    refine ⟨⟨hs, ?_, ?_, ?_⟩, ?_, hd⟩
    · rw [hrecord]
      exact ⟨_, rfl, rfl, hq⟩
    · rw [hrecord]
      rfl
    · rw [hrecord]
      exact ⟨_, rfl, rfl, rfl, rfl⟩
    · simp [JournalStore.claimOf, hq]

end Holds

/-! ## What a run keeps to -/

/-- The guarded writes of a run are under a live lease, and no step is called. -/
def Quiet (c : Claim V) (l : List (Request V × Desk V)) : Prop :=
  (∀ op y, (Request.store op, y) ∈ l → op.writer? = some c → ¬ (y.record c.executionId).Unleased y.clock) ∧
    ∀ call y, (Request.runStep call, y) ∉ l

/-- A guarded write of a run is under a lease that has ended. -/
def WritesUnleased (c : Claim V) (l : List (Request V × Desk V)) : Prop :=
  ∃ op y, (Request.store op, y) ∈ l ∧ op.writer? = some c ∧ (y.record c.executionId).Unleased y.clock

section Runs

variable {store : JournalStore V} {ttl : Duration} {fair : Env V → Prop} {c : Claim V}
  {steps : String → Option StepRow} {states : String → Option StepState} {s t : Desk V} {l l' : List (Request V × Desk V)}

theorem quiet_nil : Quiet c [] := ⟨by simp, by simp⟩

theorem Quiet.append (h : Quiet c l) (h' : Quiet c l') : Quiet c (l ++ l') := by
  constructor
  · intro op y hy
    exact (List.mem_append.mp hy).elim (h.1 op y) (h'.1 op y)
  · intro call y hy
    exact (List.mem_append.mp hy).elim (h.2 call y) (h'.2 call y)

theorem quiet_read {op : Op V} {y : Desk V} (hop : op.writer? = none) : Quiet c [(.store op, y)] := by
  refine ⟨fun op' y' hy hw => ?_, by simp⟩
  cases List.mem_singleton.mp hy
  cases hop.symm.trans hw

theorem quiet_write {op : Op V} {y : Desk V} (hy : ¬ (y.record c.executionId).Unleased y.clock) :
    Quiet c [(.store op, y)] := by
  refine ⟨fun op' y' hy' _ => ?_, by simp⟩
  cases List.mem_singleton.mp hy'
  exact hy

theorem WritesUnleased.right (h : WritesUnleased c l') : WritesUnleased c (l ++ l') := by
  obtain ⟨op, y, hy, hrest⟩ := h
  exact ⟨op, y, List.mem_append_right _ hy, hrest⟩

/-- What starts with a guarded write after the claim was let go. -/
theorem writes_of_call (hs : s.LetGo c states) {op : Op V} (hop : op.writer? = some c) {f : op.Reply → Coroutine V α}
    {r : Except Exc α} (h : Runs (alone store ttl fair) (call op >>= f) s l r t) : WritesUnleased c l := by
  have first : ∀ {l' r' t'}, Runs (alone store ttl fair) (call op) s l' r' t' → WritesUnleased c l' := by
    intro l' r' t' h'
    obtain ⟨delay, rfl, -, -⟩ := runs_call hs.idle h'
    exact ⟨op, s.wait delay, List.mem_singleton_self _, hop, (hs.wait delay).ended⟩
  rcases Proc.runs_bind.mp h with ⟨e, -, h'⟩ | ⟨a, s', l₁, l₂, rfl, h', -⟩
  · exact first h'
  · obtain ⟨op', y, hy, hrest⟩ := first h'
    exact ⟨op', y, List.mem_append_left _ hy, hrest⟩

/-! ## The interrupted attempt -/

/-- The payload `resolve_step` stores. -/
def resolvedPayload (store : JournalStore V) (step : String) (state : StepState) (output : V) :
    Except Exc (Option String) :=
  if state = .succeeded then (store.dump output s!"output of step {reprStr step}").map some else .ok none

/-- `resolve_step` of a RUNNING step, under a live lease. -/
theorem runs_resolveStep (hs : s.Holds c steps) {step : String} {st : StepRow} (hst : steps step = some st)
    (hrunning : st.state = .running) {state : StepState} (hstate : state ∈ [StepState.succeeded, .pending, .failed])
    {output : V} {detail : Option String} {r : Except Exc Unit} (hfresh : t.clock < c.expiresAt)
    (h : Runs (alone store ttl fair) (call (.resolveStep c step state output detail)) s l r t) : Quiet c l ∧
      ((∃ e, resolvedPayload store step state output = .error e ∧ r = .error e) ∨
        (∃ payload, resolvedPayload store step state output = .ok payload) ∧ r = .ok () ∧
          t.LetGo c (mark (statesOf steps) step state)) := by
  obtain ⟨delay, rfl, rfl, rfl⟩ := runs_call hs.idle h
  have hs' := hs.wait delay
  have hguard := hs'.guard hfresh
  refine ⟨quiet_write (hs'.leased hfresh), ?_⟩
  cases hp : resolvedPayload store step state output with
  | error e =>
    refine .inl ⟨e, rfl, ?_⟩
    have hrun : ((Op.resolveStep c step state output detail).txn store (s.clock + delay)).run s.journal = .error e := by
      show (JournalStore.resolveStep store c step state output detail (s.clock + delay)).run s.journal = .error e
      unfold JournalStore.resolveStep
      rw [show (if state = .succeeded then (store.dump output s!"output of step {reprStr step}").map some else .ok none) = _
        from hp]
      rfl
    rw [Txn.commit_of_error hrun]
  | ok payload =>
    obtain ⟨row, hrow, hrs, hq⟩ := hs.row
    have hstep : (s.record c.executionId).AcceptsStep c (s.clock + delay) step st state := by
      refine ⟨hs.steps ▸ hst, ?_, hguard⟩
      rw [hrunning]
      revert hstate
      cases state <;> decide
    have hrun : ∃ j, ((Op.resolveStep c step state output detail).txn store (s.clock + delay)).run s.journal =
        .ok ((), j) := ⟨_, JournalStore.run_resolveStep.mpr
      ⟨payload, row, st, hp, hstep, ⟨hrow, by rw [hrs]; decide, hq, hguard⟩, rfl⟩⟩
    obtain ⟨j, hrun⟩ := hrun
    have hcall := Desk.call_of_run (s := s.wait delay) hrun
    obtain ⟨payload', row', st', -, -, -, hj⟩ := JournalStore.run_resolveStep.mp hrun
    have hrecord : j.record c.executionId = _ := congrArg (Journal.record · c.executionId) hj
    simp only [record_appendEvent_self, record_modifyLease_self, record_modifyExecution_self,
      record_modifyStep_self] at hrecord
    refine .inr ⟨⟨payload, rfl⟩, by rw [Txn.commit_of_ok hrun], ?_⟩
    rw [hcall]
    refine ⟨hs'.idle, ?_, ?_⟩
    · show statesOf (j.record c.executionId).steps = _
      rw [hrecord]
      refine (statesOf_modifyStep (r := s.record c.executionId) hstep.step_eq).trans ?_
      rw [hs.steps]
    · show (j.record c.executionId).Unleased (s.clock + delay)
      rw [hrecord]
      intro l hl
      obtain ⟨l', -, rfl⟩ := Option.map_eq_some_iff.mp hl
      exact le_refl _

/-- The state a policy decides on, if the reconciler answers that. -/
def ActivityPolicy.state (d : Reconciliation V) : ActivityPolicy → StepState
  | .idempotent => .pending
  | .reconcile => d.state
  | .undeclared => .outcomeUnknown

theorem ActivityPolicy.state_mem {policy : ActivityPolicy} {d : Reconciliation V} (h : policy.state d ≠ .outcomeUnknown) :
    policy.state d ∈ [StepState.succeeded, .pending, .failed] := by
  have hd : policy.state d ∈ [StepState.succeeded, .pending, .failed, .outcomeUnknown] := by
    cases policy with
    | idempotent => simp [state]
    | reconcile => exact d.decides
    | undeclared => simp [state]
  revert h hd
  cases policy.state d <;> decide

/-- An interrupted attempt that is decided. -/
theorem runs_resolveInterruptedAttempt {activities : String → ActivityPolicy} {d : Reconciliation V}
    (hs : s.Holds c steps) {step : String} {value : V} {st : StepRow} (hst : steps step = some st)
    (hrunning : st.state = .running) (hdecides : (activities step).state d ≠ .outcomeUnknown) {r : Except Exc StepState}
    (hfresh : t.clock < c.expiresAt)
    (h : Runs (alone store ttl fun env => env.reconciled = .ok (.decided d))
      (resolveInterruptedAttempt store c activities step value) s l r t) : Quiet c l ∧
      ((∃ e, resolvedPayload store step ((activities step).state d) d.output = .error e ∧ r = .error e) ∨
        (∃ payload, resolvedPayload store step ((activities step).state d) d.output = .ok payload) ∧
          r = .ok ((activities step).state d) ∧ t.LetGo c (mark (statesOf steps) step ((activities step).state d))) := by
  have hmem := ActivityPolicy.state_mem hdecides
  unfold resolveInterruptedAttempt at h
  cases hpolicy : activities step with
  | undeclared =>
    rw [hpolicy] at hdecides
    exact absurd rfl hdecides
  | idempotent =>
    rw [hpolicy] at h hmem
    dsimp only at h
    obtain ⟨x, hx, rfl⟩ := Proc.runs_bind_pure.mp h
    obtain ⟨hquiet, ⟨e, hp, -⟩ | ⟨hp, rfl, hgo⟩⟩ := runs_resolveStep hs hst hrunning hmem hfresh hx
    · cases hp
    · exact ⟨hquiet, .inr ⟨⟨none, rfl⟩, rfl, hgo⟩⟩
  | reconcile =>
    rw [hpolicy] at h hmem hdecides
    dsimp only at h
    rcases Proc.runs_bind.mp h with ⟨e, -, h'⟩ | ⟨reconciled, s', l₁, l₂, rfl, h', h⟩
    · obtain ⟨delay, env, henv, -, hr, -⟩ := runs_reconcile hs.idle h'
      cases hr.trans henv
    · obtain ⟨delay, env, henv, rfl, hr, rfl⟩ := runs_reconcile hs.idle h'
      cases hr.trans henv
      dsimp only at h
      rw [if_neg (show d.state ≠ .outcomeUnknown from hdecides)] at h
      obtain ⟨x, hx, rfl⟩ := Proc.runs_bind_pure.mp h
      obtain ⟨hquiet, hends⟩ := runs_resolveStep (hs.wait delay) hst hrunning hmem hfresh hx
      refine ⟨Quiet.append ⟨by simp, by simp⟩ hquiet, hends.imp ?_ ?_⟩
      · rintro ⟨e, hp, rfl⟩
        exact ⟨e, hp, rfl⟩
      · rintro ⟨hp, rfl, hgo⟩
        exact ⟨hp, rfl, hgo⟩

/-! ## What comes after -/

/-- After the claim was let go, the loop writes once more, if there is a plan. -/
theorem runs_advance {w : DurableWorker V} {workflow : Workflow V} {outputs : String → Option V} {n : ℕ}
    (hs : s.LetGo c states) {r : Except Exc WorkOutcome}
    (h : Runs (alone store ttl fair) (w.advance c workflow outputs (n + 1) states) s l r t) :
    (∃ e, planNext workflow w.store.values.null states outputs = .error e ∧ r = .error e ∧ l = []) ∨
      (∃ plan, planNext workflow w.store.values.null states outputs = .ok plan) ∧ WritesUnleased c l := by
  unfold DurableWorker.advance at h
  rcases Proc.runs_bind.mp h with ⟨e, rfl, h'⟩ | ⟨plan, s', l₁, l₂, rfl, h', h⟩
  · obtain ⟨rfl, hplan, -⟩ := Proc.runs_ofExcept.mp h'
    exact .inl ⟨e, hplan.symm, rfl, rfl⟩
  · obtain ⟨rfl, hplan, rfl⟩ := Proc.runs_ofExcept.mp h'
    refine .inr ⟨⟨plan, hplan.symm⟩, WritesUnleased.right ?_⟩
    cases plan with
    | complete results reason => exact writes_of_call hs rfl h
    | conflict step sources reason => exact writes_of_call hs rfl h
    | needsDecision step reason => exact writes_of_call hs rfl h
    | skipStep step reason => exact writes_of_call hs rfl h
    | runStep step value sources =>
      have hmem := planNext_mem hplan.symm rfl
      obtain ⟨found, hfound⟩ : ∃ found, workflow.stepById step.id = .ok found := by
        unfold Workflow.stepById
        split
        · exact ⟨_, rfl⟩
        · rename_i hnone
          exact absurd (List.find?_eq_none.mp hnone step hmem) (by simp)
      dsimp only at h
      unfold DurableWorker.runStep at h
      rw [hfound] at h
      exact writes_of_call hs rfl h

/-- What is computed between the claim and the first write after the attempt was resolved. -/
def replan (w : DurableWorker V) (workflow : Workflow V) (steps : String → Option StepRow) (step : String)
    (d : Reconciliation V) : Except Exc (Plan V) := do
  let _ ← planNext workflow w.store.values.null (statesOf steps) (outputsOf w.store steps)
  let _ ← resolvedPayload w.store step ((w.activities step).state d) d.output
  planNext workflow w.store.values.null (mark (statesOf steps) step ((w.activities step).state d)) (outputsOf w.store steps)

section Replan

variable {w : DurableWorker V} {workflow : Workflow V} {step : String} {d : Reconciliation V} {plan : Plan V} {e : Exc}

theorem replan_of_error (hplan : planNext workflow w.store.values.null (statesOf steps) (outputsOf w.store steps) =
    .error e) : replan w workflow steps step d = .error e := by
  rw [replan, hplan]
  rfl

theorem replan_of_payload_error (hplan : planNext workflow w.store.values.null (statesOf steps) (outputsOf w.store steps) =
    .ok plan) (hp : resolvedPayload w.store step ((w.activities step).state d) d.output = .error e) :
    replan w workflow steps step d = .error e := by
  rw [replan, hplan, hp]
  rfl

theorem replan_of_ok (hplan : planNext workflow w.store.values.null (statesOf steps) (outputsOf w.store steps) = .ok plan)
    {payload : Option String} (hp : resolvedPayload w.store step ((w.activities step).state d) d.output = .ok payload) :
    replan w workflow steps step d = planNext workflow w.store.values.null
      (mark (statesOf steps) step ((w.activities step).state d)) (outputsOf w.store steps) := by
  rw [replan, hplan, hp]
  rfl

end Replan

/-- The RUNNING steps, if there is one. -/
theorem runningSteps_eq {j : Journal} {id step : String} (h : ∀ s, (j.record id).Running s ↔ s = step) :
    (j.steps.select fun k r => k.1 = id ∧ r.state = .running).map (fun x => x.1.2) = [step] := by
  refine List.perm_singleton.mp ((List.perm_ext_iff_of_nodup (nodup_runningSteps j id) (List.nodup_singleton _)).mpr ?_)
  intro s
  rw [mem_runningSteps, List.mem_singleton]
  exact h s

theorem Desk.Holds.run_stepStates (hs : s.Holds c steps) (now : Instant) :
    ((Op.stepStates c.executionId).txn store now).run s.journal = .ok (statesOf steps, s.journal) := by
  rw [← hs.steps]
  rfl

theorem Desk.Holds.run_completedOutputs (hs : s.Holds c steps) (now : Instant) :
    ((Op.completedOutputs c.executionId).txn store now).run s.journal = .ok (outputsOf store steps, s.journal) := by
  rw [← hs.steps]
  rfl

theorem runs_resumeWork {w : DurableWorker V} {workflow : Workflow V} {d : Reconciliation V} (hs : s.Holds c steps)
    {step : String} (hone : ∀ s', (s.record c.executionId).Running s' ↔ s' = step)
    (hdecides : (w.activities step).state d ≠ .outcomeUnknown) {r : Except Exc WorkOutcome} (hfresh : t.clock < c.expiresAt)
    (h : Runs (alone w.store ttl fun env => env.reconciled = .ok (.decided d)) (w.resumeWork c workflow) s l r t) :
    (∃ e, replan w workflow steps step d = .error e ∧ r = .error e ∧ Quiet c l) ∨
      (∃ plan, replan w workflow steps step d = .ok plan) ∧ WritesUnleased c l := by
  obtain ⟨st, hst, hrunning⟩ := (hone step).mpr rfl
  have hst' : steps step = some st := hs.steps ▸ hst
  have hrows : ∀ now, ((Op.runningSteps c.executionId : Op V).txn w.store now).run s.journal = .ok ([step], s.journal) := by
    intro now
    rw [← runningSteps_eq hone]
    rfl
  unfold DurableWorker.resumeWork at h
  dsimp only at h
  obtain ⟨d₁, l₁, rfl, h₁⟩ := runs_read_bind hs.idle hs.run_stepStates h
  have hs₁ := hs.wait d₁
  obtain ⟨d₂, l₂, rfl, h₂⟩ := runs_read_bind hs₁.idle hs₁.run_completedOutputs h₁
  have hs₂ := hs₁.wait d₂
  obtain ⟨d₃, l₃, rfl, h₃⟩ := runs_read_bind hs₂.idle (a := [step]) hrows h₂
  have hs₃ := hs₂.wait d₃
  have reads : Quiet c ([(Request.store (.stepStates c.executionId), s.wait d₁)] ++
      ([(Request.store (.completedOutputs c.executionId), (s.wait d₁).wait d₂)] ++
        [(Request.store (.runningSteps c.executionId), ((s.wait d₁).wait d₂).wait d₃)])) :=
    (quiet_read rfl).append ((quiet_read rfl).append (quiet_read rfl))
  rw [if_neg (List.cons_ne_nil _ _)] at h₃
  rcases Proc.runs_bind.mp h₃ with ⟨e, rfl, h₄⟩ | ⟨plan, s', l₄, l₅, rfl, h₄, h₅⟩
  · -- there is no plan that says what the step received
    obtain ⟨rfl, hplan, rfl⟩ := Proc.runs_ofExcept.mp h₄
    exact .inl ⟨e, replan_of_error hplan.symm, rfl, reads⟩
  obtain ⟨rfl, hplan, rfl⟩ := Proc.runs_ofExcept.mp h₄
  have attempt : ∀ {l' r' t'}, t'.clock < c.expiresAt →
      Runs (alone w.store ttl fun env => env.reconciled = .ok (.decided d))
        (resolveInterrupted w.store c w.activities plan [step]) (((s.wait d₁).wait d₂).wait d₃) l' r' t' →
      Quiet c l' ∧ ((∃ e, resolvedPayload w.store step ((w.activities step).state d) d.output = .error e ∧ r' = .error e) ∨
        (∃ payload, resolvedPayload w.store step ((w.activities step).state d) d.output = .ok payload) ∧
          r' = .ok [(w.activities step).state d] ∧
          t'.LetGo c (mark (statesOf steps) step ((w.activities step).state d))) := by
    intro l' r' t' hfresh' h'
    obtain ⟨x, hx, rfl⟩ := (Proc.runs_bind_pure (g := fun state : StepState => [state])).mp h'
    obtain ⟨hquiet, hends⟩ := runs_resolveInterruptedAttempt hs₃ hst' hrunning hdecides hfresh' hx
    refine ⟨hquiet, hends.imp ?_ ?_⟩
    · rintro ⟨e, hp, rfl⟩
      exact ⟨e, hp, rfl⟩
    · rintro ⟨hp, rfl, hgo⟩
      exact ⟨hp, rfl, hgo⟩
  rcases Proc.runs_bind.mp h₅ with ⟨e, rfl, h₆⟩ | ⟨outcomes, s', l₆, l₇, rfl, h₆, h₇⟩
  · obtain ⟨hquiet, ⟨e', hp, hr⟩ | ⟨-, hr, -⟩⟩ := attempt hfresh h₆
    · cases hr
      refine .inl ⟨e, replan_of_payload_error hplan.symm hp, rfl, ?_⟩
      simpa using reads.append hquiet
    · cases hr
  · obtain ⟨hquiet, ⟨e', -, hr⟩ | ⟨⟨payload, hp⟩, hr, hgo⟩⟩ :=
      attempt (lt_of_le_of_lt (clock_le_of_runs h₇).1 hfresh) h₆
    · cases hr
    · cases hr
      rw [if_neg (by simpa using hdecides.symm)] at h₇
      obtain ⟨d₈, l₈, rfl, h₈⟩ := runs_read_bind hgo.idle (a := mark (statesOf steps) step ((w.activities step).state d))
        (fun _ => by rw [← hgo.steps]; rfl) h₇
      rw [replan_of_ok hplan.symm hp]
      rcases runs_advance (hgo.wait d₈) h₈ with ⟨e, hplan', rfl, rfl⟩ | ⟨hplan', hwrites⟩
      · refine .inl ⟨e, hplan', rfl, ?_⟩
        simpa using reads.append (hquiet.append (quiet_read rfl))
      · refine .inr ⟨hplan', ?_⟩
        exact hwrites.right.right.right.right.right.right

theorem runs_work {w : DurableWorker V} {d : Reconciliation V} (hs : s.Holds c steps)
    (hcancel : c.cancellationRequested = false) (hdeadline : c.deadlineAt = none)
    {step : String} (hone : ∀ s', (s.record c.executionId).Running s' ↔ s' = step)
    (hdecides : (w.activities step).state d ≠ .outcomeUnknown) {r : Except Exc WorkOutcome} (hfresh : t.clock < c.expiresAt)
    (h : Runs (alone w.store ttl fun env => env.reconciled = .ok (.decided d)) (w.work c) s l r t) :
    (∃ e, requireDefinition w.store w.definitions c = .error e ∧ (∃ outcome, r = .ok outcome) ∧ Quiet c l) ∨
      ∃ workflow, requireDefinition w.store w.definitions c = .ok workflow ∧
        ((∃ e, replan w workflow steps step d = .error e ∧ r = .error e ∧ Quiet c l) ∨
          (∃ plan, replan w workflow steps step d = .ok plan) ∧ WritesUnleased c l) := by
  unfold DurableWorker.work at h
  rw [if_neg (by simp [hcancel])] at h
  cases hdef : requireDefinition w.store w.definitions c with
  | ok workflow =>
    rw [hdef] at h
    have hpassed : DurableWorker.deadlinePassed c = (pure false : Coroutine V Bool) := by
      rw [DurableWorker.deadlinePassed, hdeadline]
    have hresume : Runs (alone w.store ttl fun env => env.reconciled = .ok (.decided d)) (w.resumeWork c workflow) s l r t := by
      dsimp only at h
      rw [hpassed] at h
      exact h
    exact .inr ⟨workflow, rfl, runs_resumeWork hs hone hdecides hfresh hresume⟩
  | error e =>
    rw [hdef] at h
    obtain ⟨x, hx, rfl⟩ := Proc.runs_bind_pure.mp h
    obtain ⟨delay, rfl, rfl, rfl⟩ := runs_call hs.idle hx
    have hs' := hs.wait delay
    obtain ⟨row, hrow, hrs, hq⟩ := hs.row
    have hrun : ∃ j, ((Op.failExecution c .incompatibleDefinition e.message).txn w.store (s.clock + delay)).run s.journal =
        .ok ((), j) := ⟨_, JournalStore.run_failExecution.mpr
      ⟨row, ⟨hrow, by rw [hrs]; decide, hq, hs'.guard hfresh⟩, rfl⟩⟩
    obtain ⟨j, hrun⟩ := hrun
    refine .inl ⟨e, rfl, ⟨_, by rw [Txn.commit_of_ok hrun]; rfl⟩, quiet_write (hs'.leased hfresh)⟩

end Runs

/-! ## Takeovers -/

/-- A call of `run_once` that is handed a claim, the interrupted step of the execution, and what the reconciler answers
about it. -/
structure Takeover (V : Type) where
  worker : DurableWorker V
  journal : Journal
  clock : Instant
  trace : List (Request V × Desk V)
  result : Except Exc (Option WorkOutcome)
  finish : Desk V
  claim : Claim V
  stepId : String
  decision : Reconciliation V

namespace Takeover

variable (x : Takeover V)

/-- The call is made by a worker alone, which is handed the claim on an execution that was left RUNNING, without a deadline
or a request, in an attempt of the step; the policy of the step decides the attempt, and the lease of the claim does not
expire by itself before the call ends. -/
structure TakesOver : Prop where
  runs : Runs (alone x.worker.store x.worker.leaseTtl fun env => env.reconciled = .ok (.decided x.decision))
    x.worker.runOnce ⟨x.journal, x.clock, none, none⟩ x.trace x.result x.finish
  claimed : ∃ y, x.trace.head? = some (.store (.claimNext x.worker.owner (some x.worker.leaseTtl)), y) ∧
    (((Op.claimNext x.worker.owner (some x.worker.leaseTtl)).txn x.worker.store y.clock).commit y.journal).1 =
      .ok (some x.claim)
  abandoned : ∃ row, (x.journal.record x.claim.executionId).row = some row ∧ row.status = .running ∧
    row.cancellationRequestedAt = none ∧ row.deadlineAt = none
  interrupted : ∀ s, (x.journal.record x.claim.executionId).Running s ↔ s = x.stepId
  decides : (x.worker.activities x.stepId).state x.decision ≠ .outcomeUnknown
  fresh : x.finish.clock < x.claim.expiresAt

/-- The call raises neither the lease error nor the state error, no guarded write is made under a lease that has ended, and
what a step is called with is what the plan of the journal says. -/
structure Sound : Prop where
  raises : ∀ e, x.result = .error e → ¬ e.Refuses
  leased : ∀ op y, (Request.store op, y) ∈ x.trace → op.writer? = some x.claim →
    ¬ (y.record x.claim.executionId).Unleased y.clock
  inputs : ∀ call y, (Request.runStep call, y) ∈ x.trace → ∃ workflow step value sources,
    requireDefinition x.worker.store x.worker.definitions x.claim = .ok workflow ∧
    planNext workflow x.worker.store.values.null (statesOf (y.record x.claim.executionId).steps)
      (outputsOf x.worker.store (y.record x.claim.executionId).steps) = .ok (.runStep step value sources) ∧
    call.step.id = step.id ∧ call.value = if sources = [] then x.claim.input else value

/-- What the call computes before it writes once more after the resolution: the definition, the plan that says what the
step received, the payload of its output, and the plan for the new states. -/
def replans : Except Exc (Plan V) := do
  let workflow ← requireDefinition x.worker.store x.worker.definitions x.claim
  replan x.worker workflow (x.journal.record x.claim.executionId).steps x.stepId x.decision

end Takeover

theorem not_refuses_durableVersionError (message : String) : ¬ (durableVersionError message).Refuses := by
  show ¬ (false = true ∨ false = true)
  decide

theorem not_refuses_of_requireDefinition {store : JournalStore V} {lookup : DefinitionLookup V} {c : Claim V} {e : Exc}
    (h : requireDefinition store lookup c = .error e) : ¬ e.Refuses := by
  unfold requireDefinition at h
  split at h
  · cases h
    exact not_refuses_durableVersionError _
  · split at h <;> cases h
    exact not_refuses_durableVersionError _

namespace Takeover

variable {x : Takeover V} {e : Exc}

theorem replans_of_definition (h : requireDefinition x.worker.store x.worker.definitions x.claim = .error e) :
    x.replans = .error e := by
  rw [replans, h]
  rfl

theorem replans_of_workflow {workflow : Workflow V}
    (h : requireDefinition x.worker.store x.worker.definitions x.claim = .ok workflow) :
    x.replans = replan x.worker workflow (x.journal.record x.claim.executionId).steps x.stepId x.decision := by
  rw [replans, h]
  rfl

/-- A quiet call that raises neither error is sound. -/
theorem sound_of_quiet (h : Quiet x.claim x.trace) (hraises : ∀ e, x.result = .error e → ¬ e.Refuses) : x.Sound :=
  ⟨hraises, h.1, fun call y hy => absurd hy (h.2 call y)⟩

theorem not_sound_of_writes (h : WritesUnleased x.claim x.trace) : ¬ x.Sound := by
  obtain ⟨op, y, hy, hop, hended⟩ := h
  exact fun hs => hs.leased op y hy hop hended

/-- The three ways in which a takeover ends. -/
theorem TakesOver.ends (h : x.TakesOver) :
    (∃ e, requireDefinition x.worker.store x.worker.definitions x.claim = .error e ∧ (∃ outcome, x.result = .ok outcome) ∧
      Quiet x.claim x.trace) ∨
    ∃ workflow, requireDefinition x.worker.store x.worker.definitions x.claim = .ok workflow ∧
      ((∃ e, x.replans = .error e ∧ x.result = .error e ∧ Quiet x.claim x.trace) ∨
        (∃ plan, x.replans = .ok plan) ∧ WritesUnleased x.claim x.trace) := by
  have hruns := h.runs
  obtain ⟨y, hhead, hclaimed⟩ := h.claimed
  obtain ⟨row, hrow, -, hq, hd⟩ := h.abandoned
  unfold DurableWorker.runOnce at hruns
  rcases Proc.runs_bind.mp hruns with ⟨e, -, hcall⟩ | ⟨claim?, s', l, l', hl, hcall, hwork⟩
  · -- the claim was handed out
    obtain ⟨delay, hl, hr, -⟩ := runs_call rfl hcall
    rw [hl] at hhead
    cases hhead
    cases hr.trans hclaimed
  obtain ⟨delay, rfl, hr, rfl⟩ := runs_call rfl hcall
  rw [hl] at hhead
  cases hhead
  cases hr.trans hclaimed
  obtain ⟨result, hwork, hresult⟩ := Proc.runs_bind_pure.mp hwork
  obtain ⟨hs, hcancel, hdeadline⟩ := holds_of_claim rfl hclaimed hrow hq hd
  have hone : ∀ s, ((((⟨x.journal, x.clock, none, none⟩ : Desk V).wait delay).call x.worker.store
      (.claimNext x.worker.owner (some x.worker.leaseTtl))).record x.claim.executionId).Running s ↔ s = x.stepId := by
    intro s
    rw [← h.interrupted s, Record.Running, hs.steps]
    rfl
  have hclaim : Quiet x.claim [(Request.store (.claimNext x.worker.owner (some x.worker.leaseTtl)),
      (⟨x.journal, x.clock, none, none⟩ : Desk V).wait delay)] := quiet_read rfl
  rcases runs_work hs hcancel hdeadline hone h.decides h.fresh hwork with
    ⟨e, hdef, ⟨outcome, rfl⟩, hquiet⟩ | ⟨workflow, hdef, hends⟩
  · refine .inl ⟨e, hdef, ⟨some outcome, hresult⟩, ?_⟩
    rw [hl]
    exact hclaim.append hquiet
  · refine .inr ⟨workflow, hdef, ?_⟩
    rw [replans_of_workflow hdef, hl]
    refine hends.imp ?_ (And.imp_right WritesUnleased.right)
    rintro ⟨e, hplan, rfl, hquiet⟩
    exact ⟨e, hplan, hresult, hclaim.append hquiet⟩

end Takeover

/-- **A takeover is sound only when it is cut short**: exactly when the definition, a branch predicate or the payload
raises, and not the lease error or the state error. -/
theorem takeover_sound_iff (x : Takeover V) (h : x.TakesOver) :
    x.Sound ↔ ∃ e, x.replans = .error e ∧ ¬ e.Refuses := by
  rcases h.ends with ⟨e, hdef, ⟨outcome, hok⟩, hquiet⟩ | ⟨workflow, hdef, ⟨e, hplan, hresult, hquiet⟩ | ⟨⟨plan, hplan⟩, hwrites⟩⟩
  · refine iff_of_true (Takeover.sound_of_quiet hquiet ?_)
      ⟨e, Takeover.replans_of_definition hdef, not_refuses_of_requireDefinition hdef⟩
    intro e' he'
    cases hok.symm.trans he'
  · constructor
    · exact fun hsound => ⟨e, hplan, hsound.raises e hresult⟩
    · rintro ⟨e', hplan', hrefuses⟩
      cases hplan.symm.trans hplan'
      refine Takeover.sound_of_quiet hquiet ?_
      intro e' he'
      cases hresult.symm.trans he'
      exact hrefuses
  · refine iff_of_false (Takeover.not_sound_of_writes hwrites) ?_
    rintro ⟨e, hplan', -⟩
    cases hplan.symm.trans hplan'

/-- `"e"` was left RUNNING in the attempt of its step. -/
def leftRunning : Journal :=
  runCalls textStore (claimedOnce ++ [⟨.startStep (oneStepClaim 1 1) "a" none, 1⟩])

/-- A worker that may repeat the step, with the definitions it has. -/
def repeatingWorker (definitions : DefinitionLookup String) : DurableWorker String where
  store := textStore
  definitions := definitions
  activities _ := .idempotent
  owner := "o"

/-- An answer of the reconciler that nobody asks for. -/
def unasked : Reconciliation String := ⟨.succeeded, "null", none, by decide⟩

def unaskedEnv : Env String := ⟨0, .ok "null", .ok (.decided unasked)⟩

/-- The worker takes `"e"` over ten seconds after the lease expired. -/
def takeover (definitions : DefinitionLookup String) : Takeover String :=
  let run := drive textStore unaskedEnv (repeatingWorker definitions).runOnce ⟨leftRunning, 40000000, none, none⟩
  ⟨repeatingWorker definitions, leftRunning, 40000000, run.1, run.2.1, run.2.2, oneStepClaim 2 40000000, "a", unasked⟩

theorem takeover_takesOver (definitions : DefinitionLookup String) (h : (takeover definitions).finish.clock = 40000000) :
    (takeover definitions).TakesOver where
  runs := runs_drive unaskedEnv (by rfl) _ _
  claimed := by
    have hclaim : (((Op.claimNext "o" (some 30000000)).txn textStore 40000000).commit leftRunning).1 =
      .ok (some (oneStepClaim 2 40000000)) := by decide +kernel
    exact ⟨_, rfl, hclaim⟩
  abandoned := by
    have hrow : ((leftRunning.record "e").row.map fun row =>
        (row.status, row.cancellationRequestedAt, row.deadlineAt)) = some (.running, none, none) := by decide +kernel
    obtain ⟨row, hrow, h⟩ := Option.map_eq_some_iff.mp hrow
    exact ⟨row, hrow, congrArg Prod.fst h, congrArg (·.2.1) h, congrArg (·.2.2) h⟩
  interrupted := by
    intro s
    have hrunning : (leftRunning.steps.select fun k r => k.1 = "e" ∧ r.state = .running).map (fun x => x.1.2) = ["a"] := by
      decide +kernel
    show (leftRunning.record "e").Running s ↔ s = "a"
    rw [← List.mem_singleton, ← hrunning, mem_runningSteps]
    rfl
  decides := by
    show StepState.pending ≠ .outcomeUnknown
    decide
  fresh := by
    rw [h]
    show 40000000 < 70000000
    decide

theorem takeover_sound : (takeover fun _ _ => none).Sound :=
  (takeover_sound_iff (takeover fun _ _ => none) (takeover_takesOver _ (by decide +kernel))).mpr
    ⟨_, rfl, not_refuses_durableVersionError _⟩

/-- **A worker that takes an attempt over writes under the lease it has ended**, and the call raises the lease error. -/
theorem takeover_not_sound : (takeover fun _ _ => some oneStep).TakesOver ∧ ¬ (takeover fun _ _ => some oneStep).Sound := by
  refine ⟨takeover_takesOver _ (by decide +kernel), fun h => ?_⟩
  have hraised : (match (takeover fun _ _ => some oneStep).result with
    | .ok _ => false
    | .error e => decide e.Refuses) = true := by decide +kernel
  cases hr : (takeover fun _ _ => some oneStep).result with
  | ok outcome =>
    rw [hr] at hraised
    cases hraised
  | error e =>
    rw [hr] at hraised
    exact h.raises e hr (of_decide_eq_true hraised)

end Durable

end Xyberos
