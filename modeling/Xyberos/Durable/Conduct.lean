import Xyberos.Durable.Worker

/-!
# Xyberos.Durable.Conduct — which operations a worker calls

After its claim, `run_once` calls nothing but reads of the execution and guarded operations under that claim
(`only_work`).  Most parts of it start and resolve no step; these are the requests called `Mild`.
-/

set_option autoImplicit false

namespace Xyberos.Durable

open Proc

variable {V α : Type}

/-- A read of the execution of the claim, or a guarded operation under it. -/
def Op.Under (c : Claim V) : Op V → Prop
  | stepStates id => id = c.executionId
  | runningSteps id => id = c.executionId
  | completedOutputs id => id = c.executionId
  | inspect id => id = c.executionId
  | op => op.claim? = some c

/-- The claim of an operation that may make a step RUNNING, or PENDING again without a failure. -/
def Op.starter? : Op V → Option (Claim V)
  | startStep c _ _ => some c
  | resolveStep c _ _ _ _ => some c
  | _ => none

def Request.Under (c : Claim V) : Request V → Prop
  | .store op => op.Under c
  | .startHeartbeat c' => c' = c
  | _ => True

/-- The request starts and resolves no step. -/
def Request.Mild : Request V → Prop
  | .store op => op.starter? = none
  | _ => True

section Mild

variable {c : Claim V} {w : DurableWorker V}

/-- Both. -/
def Request.UnderMild (c : Claim V) (q : Request V) : Prop := q.Under c ∧ q.Mild

theorem only_call {op : Op V} (h : op.Under c) : (call op).Only (Request.Under c) := only_request h

theorem only_mildCall {op : Op V} (h : op.Under c) (hop : op.starter? = none) :
    (call op).Only (Request.UnderMild c) :=
  only_request ⟨h, hop⟩

theorem only_recordFailure {step : Step V} {attempt : ℕ} {error : Exc} {retryAt : Option Instant} {detail : String} :
    (DurableWorker.recordFailure c step attempt error retryAt detail).Only (Request.UnderMild c) :=
  .bind (only_mildCall rfl rfl) fun _ => .bind (only_mildCall rfl rfl) fun _ => only_pure _

theorem only_drawFor {backoff : Backoff} :
    (DurableWorker.drawFor backoff : Coroutine V ℚ).Only (Request.UnderMild c) := by
  unfold DurableWorker.drawFor
  split
  · exact only_pure _
  · exact only_request ⟨trivial, trivial⟩

theorem only_retryAt {step : Step V} {attempt : ℕ} {error : Exc} :
    (DurableWorker.retryAt step attempt error).Only (Request.UnderMild c) := by
  unfold DurableWorker.retryAt
  split
  · exact only_pure _
  · split
    · exact only_pure _
    · exact only_drawFor.bind fun _ => (only_ofExcept _).bind fun _ => .bind (only_request ⟨trivial, trivial⟩) fun _ =>
        only_pure _

theorem only_attemptBudget {timeout : Option ℚ} :
    (DurableWorker.attemptBudget c timeout).Only (Request.UnderMild c) := by
  unfold DurableWorker.attemptBudget
  split
  · exact only_pure _
  · exact .bind (only_request ⟨trivial, trivial⟩) fun _ => only_pure _

theorem only_deadlinePassed : (DurableWorker.deadlinePassed c).Only (Request.UnderMild c) := by
  unfold DurableWorker.deadlinePassed
  split
  · exact only_pure _
  · exact .bind (only_request ⟨trivial, trivial⟩) fun _ => only_pure _

theorem only_attemptRaised {step : Step V} {attempt : ℕ} {budget : Option ℚ} {error : Exc} :
    (w.attemptRaised c step attempt budget error).Only (Request.UnderMild c) := by
  unfold DurableWorker.attemptRaised
  split_ifs
  · exact only_recordFailure
  · exact .bind (only_mildCall rfl rfl) fun _ => only_pure _
  · exact .bind (only_mildCall rfl rfl) fun _ => only_pure _
  · exact only_retryAt.bind fun _ => only_recordFailure
  · exact only_raise _

theorem only_attemptStep {workflow : Workflow V} {step : Step V} {attempt : ℕ} {budget : Option ℚ} {value : V} :
    (w.attemptStep c workflow step attempt budget value).Only (Request.UnderMild c) := by
  refine .bind (.attempt (only_request ⟨trivial, trivial⟩)) fun x => ?_
  cases x with
  | ok output => exact only_pure _
  | error error => exact only_attemptRaised.bind fun _ => only_pure _

theorem only_afterStep {workflow : Workflow V} {stepId : String} {attempt : ℕ} :
    (w.afterStep c workflow stepId attempt).Only (Request.UnderMild c) := by
  refine .bind (only_mildCall rfl rfl) fun _ => .bind (only_mildCall rfl rfl) fun _ =>
    (only_ofExcept _).bind fun plan => ?_
  cases plan <;> exact .bind (only_mildCall rfl rfl) fun _ => only_pure _

/-- `_run_step` after the start of the step. -/
theorem only_startedStep {workflow : Workflow V} {step : Step V} {attempt : ℕ} {value : V} :
    (w.startedStep c workflow step attempt value).Only (Request.UnderMild c) := by
  refine only_attemptBudget.bind fun budget => ?_
  split_ifs
  · exact .bind (only_mildCall rfl rfl) fun _ => only_pure _
  · refine .bind (only_request ⟨rfl, trivial⟩) fun _ =>
      .bind (.finally' only_attemptStep (only_request ⟨trivial, trivial⟩)) fun ended => ?_
    cases ended with
    | inr outcome => exact only_pure _
    | inl output => exact .bind (only_mildCall rfl rfl) fun _ => only_afterStep

end Mild

/-! ## `run_once` after the claim -/

section Work

variable {c : Claim V} {w : DurableWorker V}

theorem only_runStep {workflow : Workflow V} {stepId : String} {value : V} :
    (w.runStep c workflow stepId value).Only (Request.Under c) :=
  (only_ofExcept _).bind fun _ => .bind (only_call rfl) fun _ => only_startedStep.mono fun _ h => h.1

theorem only_advance {workflow : Workflow V} {outputs : String → Option V} {n : ℕ}
    {states : String → Option StepState} : (w.advance c workflow outputs n states).Only (Request.Under c) := by
  induction n generalizing states with
  | zero => exact only_raise _
  | succ n ih =>
    refine (only_ofExcept _).bind fun plan => ?_
    cases plan with
    | runStep step value sources => exact only_runStep
    | skipStep step reason => exact .bind (only_call rfl) fun _ => ih
    | complete outputs reason => exact .bind (only_call rfl) fun _ => only_pure _
    | conflict step sources reason => exact .bind (only_call rfl) fun _ => only_pure _
    | needsDecision step reason => exact .bind (only_call rfl) fun _ => only_pure _

theorem only_resolveInterruptedAttempt {store : JournalStore V} {activities : String → ActivityPolicy}
    {stepId : String} {input : V} :
    (resolveInterruptedAttempt store c activities stepId input).Only (Request.Under c) := by
  unfold resolveInterruptedAttempt
  split
  · exact .bind (only_call rfl) fun _ => only_pure _
  · refine .bind (only_request trivial) fun reconciled => ?_
    split
    · exact only_raise _
    · split_ifs
      · exact .bind (only_call rfl) fun _ => only_pure _
      · exact .bind (only_call rfl) fun _ => only_pure _
  · exact .bind (only_call rfl) fun _ => only_pure _

theorem only_resolveInterrupted {store : JournalStore V} {activities : String → ActivityPolicy} {plan : Plan V}
    {interrupted : List String} :
    (resolveInterrupted store c activities plan interrupted).Only (Request.Under c) := by
  induction interrupted with
  | nil => exact only_pure _
  | cons stepId rest ih => exact only_resolveInterruptedAttempt.bind fun _ => ih.bind fun _ => only_pure _

/-- **A worker acts under its claim.** -/
theorem only_work : (w.work c).Only (Request.Under c) := by
  unfold DurableWorker.work
  split_ifs
  · exact .bind (only_call rfl) fun _ => only_pure _
  · split
    · exact .bind (only_call rfl) fun _ => only_pure _
    · refine (only_deadlinePassed.mono fun _ h => h.1).bind fun passed => ?_
      split_ifs
      · exact .bind (only_call rfl) fun _ => only_pure _
      · refine .bind (only_call rfl) fun _ => .bind (only_call rfl) fun _ => .bind (only_call rfl) fun _ => ?_
        split_ifs
        · exact only_advance
        · refine (only_ofExcept _).bind fun _ => only_resolveInterrupted.bind fun _ => ?_
          split_ifs
          · exact only_pure _
          · exact .bind (only_call rfl) fun _ => only_advance

end Work

end Xyberos.Durable
