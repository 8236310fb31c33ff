import Xyberos.Execution.Course
import Xyberos.Execution.Policies

/-!
# Xyberos.Execution.Attempts — what `_execute_step` reports of its attempts

`Ended` is what the end of an attempt does to the attempts kept so far, and `Tried` the attempts at a step one after
another.  Every exit but one keeps the attempt it ends with: a cancelled attempt is not in the report.
-/

set_option autoImplicit false

namespace Xyberos.Execution

open Proc WorkflowExecutor

variable {V : Type}

/-- How an attempt ended. -/
def statusOf (c : Trial V) : StepStatus :=
  match c.2 with
  | .uncalled _ => .failed
  | .returned _ => .succeeded
  | .raised error =>
    if error.isInstance "WorkflowCancelledError" then .cancelled
    else if error.isInstance "WorkflowTimeoutError" then .timedOut
    else .failed
  | .cancelled => .cancelled
  | .stopped cancelled _ => if cancelled then .cancelled else .timedOut

/-- The error of an attempt that failed, if the policy of the step is asked about it. -/
def failureOf (x : WorkflowExecutor V) (step : Step V) (c : Trial V) : Option Exc :=
  (x.raceResult c.1 c.2).toOption.bind (x.failure step)

/-- The policy of the step allows another attempt after this error. -/
def Allows (step : Step V) (error : Exc) : Prop := ∃ retry ∈ step.retry, retry.allows error

/-- `max_attempts` of `_execute_step`. -/
def maxAttempts (step : Step V) : ℕ := step.retry.elim 1 Retry.maxAttempts

/-- The entry of an attempt: its number and its status. -/
def Attempt.Of (a : Attempt) (number : ℕ) (c : Trial V) : Prop := a.number = number ∧ a.status = statusOf c

/-- The aborts of a step that gave up. -/
def AbortKind.GaveUp (kind : AbortKind) : Prop := kind = .failed ∨ kind = .stepTimeout ∨ kind = .retryExhausted

/-- An attempt with an error to retry was not cancelled. -/
theorem status_of_failure {x : WorkflowExecutor V} {step : Step V} {c : Trial V} {error : Exc}
    (h : error ∈ failureOf x step c) : statusOf c ≠ .cancelled := by
  obtain ⟨call, ended⟩ := c
  cases ended with
  | uncalled message => simp [statusOf]
  | returned output => simp [statusOf]
  | cancelled => simp [failureOf, WorkflowExecutor.failure, raceResult, Except.toOption] at h
  | raised e =>
    have h : error ∈ (some e).filter fun e =>
        !e.isInstance "WorkflowCancelledError" && !e.isInstance "WorkflowTimeoutError" := h
    obtain ⟨he, hnot⟩ := Option.filter_eq_some_iff.mp h
    obtain rfl := Option.some.inj he
    simp only [Bool.and_eq_true, Bool.not_eq_true'] at hnot
    simp [statusOf, hnot.1, hnot.2]
  | stopped cancelled now =>
    cases cancelled with
    | true => simp [failureOf, WorkflowExecutor.failure, raceResult, stopReason, Except.toOption] at h
    | false => simp [statusOf]

/-- The end of an attempt, with the attempts kept before: an outcome, the attempts kept now, or an exception. -/
inductive Ended (x : WorkflowExecutor V) (step : Step V) (number : ℕ) (before : List Attempt) (c : Trial V) :
    Except (Thrown V) (StepOutcome V ⊕ List Attempt) → Prop
  | succeeded {o : StepOutcome V} {a : Attempt} (of : a.Of number c) (status : statusOf c = .succeeded)
      (kept : o.attempts = before ++ [a]) : Ended x step number before c (.ok (.inl o))
  | cancelled {abort : Abort} (status : statusOf c = .cancelled) (kind : abort.kind = .cancelled)
      (kept : abort.attempts = before) : Ended x step number before c (.error (.abort abort))
  | timedOut {abort : Abort} {a : Attempt} (of : a.Of number c) (status : statusOf c = .timedOut)
      (kind : abort.kind = .timedOut) (kept : abort.attempts = before ++ [a]) :
      Ended x step number before c (.error (.abort abort))
  | gaveUp {abort : Abort} {a : Attempt} {error : Exc} (fails : error ∈ failureOf x step c)
      (of : a.Of number c) (final : ¬ Retries step number error) (kind : abort.kind.GaveUp)
      (exhausted : abort.kind = .retryExhausted ↔ Allows step error) (kept : abort.attempts = before ++ [a]) :
      Ended x step number before c (.error (.abort abort))
  | retried {a : Attempt} {error : Exc} (fails : error ∈ failureOf x step c) (of : a.Of number c)
      (retries : Retries step number error) : Ended x step number before c (.ok (.inr (before ++ [a])))
  | interrupted {abort : Abort} {a : Attempt} {error : Exc} (fails : error ∈ failureOf x step c)
      (of : a.Of number c) (kind : abort.kind = .cancelled ∨ abort.kind = .timedOut)
      (kept : abort.attempts = before ++ [a]) : Ended x step number before c (.error (.abort abort))
  | escaped {e : Exc} (live : statusOf c ≠ .cancelled) (unlike : e.cls.name ≠ "AssertionError") :
      Ended x step number before c (.error (.other e))

/-- The attempts at a step, with the numbers that are left and the attempts kept before. -/
inductive Tried (x : WorkflowExecutor V) (step : Step V) :
    ℕ → ℕ → List Attempt → List (Trial V) → Except (Thrown V) (StepOutcome V) → Prop
  | none {number : ℕ} {before : List Attempt} : Tried x step 0 number before []
      (.error (.other (assertionError "unreachable: the retry loop always returns or raises")))
  | done {left number : ℕ} {before : List Attempt} {c : Trial V} {o : StepOutcome V}
      (ended : Ended x step number before c (.ok (.inl o))) : Tried x step (left + 1) number before [c] (.ok o)
  | raised {left number : ℕ} {before : List Attempt} {c : Trial V} {e : Thrown V}
      (ended : Ended x step number before c (.error e)) : Tried x step (left + 1) number before [c] (.error e)
  | again {left number : ℕ} {before kept : List Attempt} {c : Trial V} {cs : List (Trial V)}
      {r : Except (Thrown V) (StepOutcome V)} (ended : Ended x step number before c (.ok (.inr kept)))
      (rest : Tried x step left (number + 1) kept cs r) : Tried x step (left + 1) number before (c :: cs) r

/-! ## The parts of `_execute_step` -/

section Parts

variable {A : (q : Request V) → q.Reply → Prop} {deadline : Option ℚ} {step : Step V} {number : ℕ}

namespace WorkflowExecutor

/-- `_pause` keeps the attempts when it ends the run. -/
theorem yields_pause_kept (delay : ℚ) (w : Workflow V) (stepId : String) (attempts : List Attempt) :
    Yields A (pause delay deadline w stepId attempts) fun l r => trials l = [] ∧
      (r = .ok () ∨ ∃ a, r = .error (.abort a) ∧ (a.kind = .cancelled ∨ a.kind = .timedOut) ∧ a.attempts = attempts) := by
  refine yields_bind.mpr ((yields_pauseBudget delay).mono ?_)
  rintro l r ⟨hl, q, rfl⟩
  refine yields_ask_then.mpr fun _ _ => yields_ask_then.mpr fun c _ => ?_
  have hl' : trials (l ++ [⟨.sleep (max q 0), ()⟩, ⟨.cancelled, c⟩]) = [] := by
    rw [trials_append, hl.2]
    rfl
  cases c with
  | true =>
    rw [if_pos rfl]
    exact yields_abort.mpr ⟨hl', .inr ⟨_, rfl, .inl rfl, rfl⟩⟩
  | false =>
    rw [if_neg Bool.false_ne_true]
    refine yields_bind.mpr (yields_pastDeadline.mono ?_)
    rintro k r ⟨hk, b, rfl, -⟩
    have hlk : trials ((l ++ [⟨.sleep (max q 0), ()⟩, ⟨.cancelled, false⟩]) ++ k) = [] := by
      rw [trials_append, hl', hk.2]
      rfl
    rw [List.append_assoc] at hlk
    rw [ends_ok]
    split_ifs
    · exact yields_abort.mpr ⟨by simpa using hlk, .inr ⟨_, rfl, .inr rfl, rfl⟩⟩
    · exact yields_pure.mpr ⟨by simpa using hlk, .inl rfl⟩

theorem yields_delayFor_kept (backoff : Backoff) : Yields A (delayFor backoff number) fun l r => trials l = [] ∧
    ((∃ delay, r = .ok delay) ∨ ∃ e : Exc, e.cls.name ≠ "AssertionError" ∧ r = .error (.other e)) := by
  have hlift : ∀ draw, Yields A (lift (V := V) (backoff.delayFor number draw)) fun l r => l = [] ∧
      ((∃ delay, r = .ok delay) ∨ ∃ e : Exc, e.cls.name ≠ "AssertionError" ∧ r = .error (.other e)) := by
    intro draw
    rw [yields_lift]
    refine ⟨rfl, ?_⟩
    unfold Backoff.delayFor
    split_ifs
    · exact .inr ⟨_, by decide, rfl⟩
    · exact .inr ⟨_, by decide, rfl⟩
    · exact .inl ⟨_, rfl⟩
    · exact .inl ⟨_, rfl⟩
  unfold delayFor
  split_ifs
  · refine yields_bind.mpr (yields_pure.mpr ((hlift 0).mono ?_))
    rintro l r ⟨rfl, h⟩
    exact ⟨rfl, h⟩
  · refine yields_bind_request.mpr fun draw _ => (hlift draw).mono ?_
    rintro l r ⟨rfl, h⟩
    exact ⟨rfl, h⟩

variable (x : WorkflowExecutor V)

/-- What a failed attempt leads to, whose entry is kept. -/
theorem yields_afterFailure_kept (w : Workflow V) (attempts : List Attempt) (error : Exc) :
    Yields A (x.afterFailure w step deadline number attempts error) fun l r => trials l = [] ∧
      (Retries step number error ∧
          (r = .ok () ∨
            (∃ a, r = .error (.abort a) ∧ (a.kind = .cancelled ∨ a.kind = .timedOut) ∧ a.attempts = attempts) ∨
            ∃ e : Exc, e.cls.name ≠ "AssertionError" ∧ r = .error (.other e)) ∨
        ¬ Retries step number error ∧ ∃ a, r = .error (.abort a) ∧ a.kind.GaveUp ∧
          (a.kind = .retryExhausted ↔ Allows step error) ∧ a.attempts = attempts) := by
  unfold afterFailure
  cases hretry : step.retry.filter fun retry => retry.allows error with
  | none =>
    have hno : ¬ Allows step error := by
      rintro ⟨retry, hr, h⟩
      have := Option.filter_eq_none_iff.mp hretry retry hr
      exact this h
    have hstop : ¬ Retries step number error := fun ⟨retry, hr, h, _⟩ => hno ⟨retry, hr, h⟩
    dsimp only
    split_ifs
    · exact yields_abort.mpr ⟨rfl, .inr ⟨hstop, _, rfl, .inr (.inl rfl), by simp [hno], rfl⟩⟩
    · exact yields_abort.mpr ⟨rfl, .inr ⟨hstop, _, rfl, .inl rfl, by simp [hno], rfl⟩⟩
  | some retry =>
    obtain ⟨hr, hallows⟩ := Option.filter_eq_some_iff.mp hretry
    dsimp only
    by_cases hmore : number < retry.maxAttempts
    · rw [if_pos hmore, yields_bind]
      have hretries : Retries step number error := ⟨retry, hr, hallows, hmore⟩
      refine (yields_delayFor_kept retry.backoff).mono ?_
      rintro l r ⟨hl, ⟨delay, rfl⟩ | ⟨e, he, rfl⟩⟩
      · rw [ends_ok, yields_emit_then]
        intro t _
        refine (yields_pause_kept delay w step.id attempts).mono ?_
        rintro k r ⟨hk, hend⟩
        refine ⟨by simp [hl, hk], .inl ⟨hretries, ?_⟩⟩
        rcases hend with rfl | habort
        · exact .inl rfl
        · exact .inr (.inl habort)
      · exact ⟨hl, .inl ⟨hretries, .inr (.inr ⟨e, he, rfl⟩)⟩⟩
    · rw [if_neg hmore]
      have hstop : ¬ Retries step number error := by
        rintro ⟨retry', hr', -, h⟩
        rw [Option.mem_unique hr' hr] at h
        exact hmore h
      have hpolicy : step.retry = some retry := hr
      exact yields_abort.mpr ⟨rfl, .inr ⟨hstop, _, rfl, .inr (.inr rfl), by simp [Allows, hpolicy, hallows], rfl⟩⟩

/-- The end of an attempt that failed. -/
private theorem yields_failed_kept (w : Workflow V) (before : List Attempt) {a : Attempt} {c : Trial V} {error : Exc}
    (hfails : error ∈ failureOf x step c) (hof : a.Of number c) (e : Emission) :
    Yields A (do emit e; x.afterFailure w step deadline number (before ++ [a]) error; return .inr (before ++ [a]))
      fun l r => trials l = [] ∧ Ended x step number before c r := by
  refine yields_emit_then.mpr fun t _ => yields_bind.mpr ((x.yields_afterFailure_kept w _ error).mono ?_)
  rintro l r ⟨hl, ⟨hretries, rfl | ⟨abort, rfl, hkind, hkept⟩ | ⟨e, he, rfl⟩⟩ | ⟨hstop, abort, rfl, hkind, hex, hkept⟩⟩
  · rw [ends_ok, yields_pure]
    exact ⟨by simp [hl], .retried hfails hof hretries⟩
  · exact ⟨by simpa using hl, .interrupted hfails hof hkind hkept⟩
  · exact ⟨by simpa using hl, .escaped (status_of_failure hfails) he⟩
  · exact ⟨by simpa using hl, .gaveUp hfails hof hstop hkind hex hkept⟩

theorem yields_judge_kept (w : Workflow V) (started duration : ℚ) (before : List Attempt) (c : Trial V)
    {result : AttemptResult V} (hraced : x.raceResult c.1 c.2 = .ok result) :
    Yields A (x.judge w step deadline number started duration before result) fun l r =>
      trials l = [] ∧ Ended x step number before c r := by
  obtain ⟨call, ended⟩ := c
  cases ended <;> obtain ⟨⟩ := hraced
  case returned output =>
    refine yields_emit_then.mpr fun t _ => yields_ask_then.mpr fun now _ => yields_pure.mpr ⟨rfl, ?_⟩
    exact .succeeded ⟨rfl, rfl⟩ rfl rfl
  case cancelled =>
    refine yields_emit_then.mpr fun t _ => yields_ask_then.mpr fun reason _ => yields_abort.mpr ⟨rfl, ?_⟩
    exact .cancelled rfl rfl rfl
  case raised error =>
    unfold judge
    dsimp only
    by_cases hcancelled : error.isInstance "WorkflowCancelledError"
    · rw [if_pos hcancelled]
      refine yields_emit_then.mpr fun t _ => yields_abort.mpr ⟨rfl, ?_⟩
      exact .cancelled (if_pos hcancelled) rfl rfl
    · rw [if_neg hcancelled]
      by_cases htimed : error.isInstance "WorkflowTimeoutError"
      · rw [if_pos htimed]
        refine yields_emit_then.mpr fun t _ => yields_abort.mpr ⟨rfl, ?_⟩
        have hstatus : statusOf ((call, .raised error) : Trial V) = .timedOut :=
          (if_neg hcancelled).trans (if_pos htimed)
        exact .timedOut ⟨rfl, hstatus.symm⟩ hstatus rfl rfl
      · rw [if_neg htimed]
        have hstatus : statusOf ((call, .raised error) : Trial V) = .failed :=
          (if_neg hcancelled).trans (if_neg htimed)
        have hof : Attempt.Of ⟨number, .failed, duration, some error.cls.name⟩ number ((call, .raised error) : Trial V) :=
          ⟨rfl, hstatus.symm⟩
        refine x.yields_failed_kept w before ?_ hof _
        simp [failureOf, failure, raceResult, hcancelled, htimed, Except.toOption]
  case stopped cancelled now =>
    unfold judge
    dsimp only
    cases cancelled with
    | true =>
      refine yields_emit_then.mpr fun t _ => yields_ask_then.mpr fun reason _ => yields_abort.mpr ⟨rfl, ?_⟩
      exact .cancelled rfl rfl rfl
    | false =>
      by_cases hpast : ∃ d ∈ call.deadline, d ≤ now
      · have hstop : stopReason false now call.deadline = .timedOut := by
          rw [stopReason, if_neg Bool.false_ne_true, if_pos hpast]
        rw [hstop]
        refine yields_emit_then.mpr fun t _ => yields_abort.mpr ⟨rfl, ?_⟩
        exact .timedOut ⟨rfl, rfl⟩ rfl rfl rfl
      · have hstop : stopReason false now call.deadline = .stepTimeout := by
          rw [stopReason, if_neg Bool.false_ne_true, if_neg hpast]
        rw [hstop]
        dsimp only
        cases htimeout : step.timeout with
        | none => exact yields_bind.mpr (yields_raise.mpr ⟨rfl, .escaped (by simp [statusOf]) (by decide)⟩)
        | some timeout =>
          refine yields_bind.mpr (yields_pure.mpr ?_)
          have hof : Attempt.Of ⟨number, .timedOut, duration, none⟩ number ((call, .stopped false now) : Trial V) :=
            ⟨rfl, rfl⟩
          refine x.yields_failed_kept w before ?_ hof _
          simp [failureOf, failure, raceResult, hstop, htimeout, Except.toOption]

theorem yields_attemptFrom_tried (w : Workflow V) (value : V) (started : ℚ) (left number : ℕ) (before : List Attempt) :
    Yields A (x.attemptFrom w step value deadline started left number before) fun l r =>
      Tried x step left number before (trials l) r := by
  induction left generalizing number before with
  | zero => exact yields_raise.mpr .none
  | succ left ih =>
    refine yields_emit_then.mpr fun t _ => yields_ask_then.mpr fun began _ => yields_bind.mpr ?_
    refine yields_attemptBudget.mono ?_
    rintro l r ⟨hl, budget, rfl⟩
    rw [ends_ok]
    refine x.yields_race_then (fun message _ => ?_) fun ended result hended hraced => ?_
    · have htrials := (uncalled_history hl (e := { type := .stepStarted, step := step.id, attempt := number }) (t := t)
        (b := began) (c := ⟨step.id, number, value, deadline, budget⟩) (r := .uncalled message)).1
      rw [htrials]
      exact .raised (.escaped (by simp [statusOf]) (by simp [typeError]))
    refine yields_ask_then.mpr fun now _ => yields_bind.mpr ?_
    refine (x.yields_judge_kept w started (now - began) before (⟨step.id, number, value, deadline, budget⟩, ended)
      hraced).mono ?_
    rintro k r ⟨hk, hjudged⟩
    have hhistory := fun k : History V => (attempt_history hl (k := k)
      (e := { type := .stepStarted, step := step.id, attempt := number }) (t := t)
      (c := ⟨step.id, number, value, deadline, budget⟩) (b := began) (r := ended) (n := now)).1
    cases r with
    | error e =>
      rw [ends_error]
      rw [hhistory k, hk]
      exact .raised hjudged
    | ok r =>
      rw [ends_ok]
      cases r with
      | inl o =>
        rw [yields_pure, List.append_nil, hhistory k, hk]
        exact .done hjudged
      | inr kept =>
        refine (ih (number + 1) kept).mono ?_
        intro k' r hrest
        rw [hhistory (k ++ k'), trials_append, hk]
        exact .again hjudged hrest

theorem yields_executeStep_tried (w : Workflow V) (value : V) :
    Yields A (x.executeStep w step value deadline) fun l r => Tried x step (maxAttempts step) 1 [] (trials l) r :=
  yields_ask_then.mpr fun started _ => x.yields_attemptFrom_tried w value started _ 1 []

end WorkflowExecutor

end Parts

/-! ## The report -/

/-- The attempts that an end reports. -/
def ReportsAttempts (r : Except (Thrown V) (StepOutcome V)) (attempts : List Attempt) : Prop :=
  (∃ o, r = .ok o ∧ attempts = o.attempts) ∨ ∃ abort, r = .error (.abort abort) ∧ attempts = abort.attempts

/-- The numbers and statuses of attempts, from a number on. -/
def entries (number : ℕ) (cs : List (Trial V)) : List (ℕ × StepStatus) :=
  cs.mapIdx fun i c => (number + i, statusOf c)

/-- Every attempt is listed with its number and status, there are no more than the policy has, each further one
follows an error the policy allows, and the policy is exhausted exactly if it allows the last error. -/
structure Preserved (x : WorkflowExecutor V) (step : Step V) (cs : List (Trial V))
    (r : Except (Thrown V) (StepOutcome V)) : Prop where
  listed : ∀ attempts, ReportsAttempts r attempts → attempts.map (fun a => (a.number, a.status)) = entries 1 cs
  bounded : cs.length ≤ maxAttempts step
  allowed : ∀ pre c post, cs = pre ++ c :: post → post ≠ [] →
    ∃ error ∈ failureOf x step c, Allows step error
  exhausted : ∀ abort, r = .error (.abort abort) → abort.kind.GaveUp →
    ∃ pre c, cs = pre ++ [c] ∧ ∃ error ∈ failureOf x step c,
      (abort.kind = .retryExhausted ↔ Allows step error) ∧
        (abort.kind = .retryExhausted → cs.length = maxAttempts step)
  reached : r ≠ .error (.other (assertionError "unreachable: the retry loop always returns or raises"))

section Reports

variable {x : WorkflowExecutor V} {step : Step V} {left number : ℕ} {before : List Attempt} {c : Trial V}
  {cs : List (Trial V)} {r : Except (Thrown V) (StepOutcome V)}

theorem reportsAttempts_ok {o : StepOutcome V} {attempts : List Attempt} :
    ReportsAttempts (.ok o) attempts ↔ attempts = o.attempts := by
  simp [ReportsAttempts]

theorem reportsAttempts_abort {abort : Abort} {attempts : List Attempt} :
    ReportsAttempts (V := V) (.error (.abort abort)) attempts ↔ attempts = abort.attempts := by
  simp [ReportsAttempts]

theorem entries_cons (number : ℕ) (c : Trial V) (cs : List (Trial V)) :
    entries number (c :: cs) = (number, statusOf c) :: entries (number + 1) cs := by
  rw [entries, List.mapIdx_cons, entries]
  refine congrArg _ (congrArg (List.mapIdx · cs) (funext fun i => funext fun d => ?_))
  rw [show number + (i + 1) = number + 1 + i by omega]

/-- The entries of the attempts kept before, and that of one more. -/
theorem map_kept {a : Attempt} (h : a.Of number c) :
    (before ++ [a]).map (fun a => (a.number, a.status)) =
      before.map (fun a => (a.number, a.status)) ++ [(number, statusOf c)] := by
  rw [List.map_append, List.map_singleton, h.1, h.2]

/-- Without a cancelled attempt all are listed. -/
theorem Tried.listed (h : Tried x step left number before cs r) (hlive : ∀ c ∈ cs, statusOf c ≠ .cancelled)
    {attempts : List Attempt} (hr : ReportsAttempts r attempts) :
    attempts.map (fun a => (a.number, a.status)) =
      before.map (fun a => (a.number, a.status)) ++ entries number cs := by
  induction h with
  | none => simp [ReportsAttempts] at hr
  | done ended =>
    obtain rfl := reportsAttempts_ok.mp hr
    cases ended with
    | succeeded of status kept =>
      rw [kept, map_kept of]
      rfl
  | raised ended =>
    cases ended with
    | cancelled status kind kept => exact absurd status (hlive _ List.mem_cons_self)
    | timedOut of status kind kept =>
      obtain rfl := reportsAttempts_abort.mp hr
      rw [kept, map_kept of]
      rfl
    | gaveUp fails of final kind exhausted kept =>
      obtain rfl := reportsAttempts_abort.mp hr
      rw [kept, map_kept of]
      rfl
    | interrupted fails of kind kept =>
      obtain rfl := reportsAttempts_abort.mp hr
      rw [kept, map_kept of]
      rfl
    | escaped live unlike => simp [ReportsAttempts] at hr
  | again ended rest ih =>
    cases ended with
    | retried fails of retries =>
      rw [ih (fun c hc => hlive c (List.mem_cons_of_mem _ hc)) hr, map_kept of, entries_cons, List.append_assoc]
      rfl

/-- A cancelled attempt is missing. -/
theorem Tried.lost (h : Tried x step left number before cs r) (hcancelled : ∃ c ∈ cs, statusOf c = .cancelled) :
    ∃ attempts, ReportsAttempts r attempts ∧ attempts.length < before.length + cs.length := by
  induction h with
  | none =>
    obtain ⟨c, hc, -⟩ := hcancelled
    exact absurd hc List.not_mem_nil
  | done ended =>
    obtain ⟨c, hc, hstatus⟩ := hcancelled
    obtain rfl := List.mem_singleton.mp hc
    cases ended with
    | succeeded of status kept =>
      rw [hstatus] at status
      cases status
  | raised ended =>
    obtain ⟨c, hc, hstatus⟩ := hcancelled
    obtain rfl := List.mem_singleton.mp hc
    cases ended with
    | cancelled status kind kept =>
      refine ⟨_, reportsAttempts_abort.mpr rfl, ?_⟩
      rw [kept, List.length_singleton]
      omega
    | timedOut of status kind kept =>
      rw [hstatus] at status
      cases status
    | gaveUp fails of final kind exhausted kept => exact absurd hstatus (status_of_failure fails)
    | interrupted fails of kind kept => exact absurd hstatus (status_of_failure fails)
    | escaped live unlike => exact absurd hstatus live
  | again ended rest ih =>
    cases ended with
    | retried fails of retries =>
      obtain ⟨c, hc, hstatus⟩ := hcancelled
      rcases List.mem_cons.mp hc with rfl | hc
      · exact absurd hstatus (status_of_failure fails)
      · obtain ⟨attempts, hr, hlt⟩ := ih ⟨c, hc, hstatus⟩
        refine ⟨attempts, hr, ?_⟩
        rw [List.length_append, List.length_singleton] at hlt
        rw [List.length_cons]
        omega

/-- The loop does not run out of numbers, and each further attempt follows an error the policy allows. -/
theorem Tried.bounded (h : Tried x step left number before cs r) (hleft : 1 ≤ left)
    (hmax : number + left = maxAttempts step + 1) : cs.length ≤ left ∧
      r ≠ .error (.other (assertionError "unreachable: the retry loop always returns or raises")) := by
  induction h with
  | none => omega
  | done ended => exact ⟨by simp, by simp⟩
  | raised ended =>
    refine ⟨by simp, ?_⟩
    rintro he
    cases ended with
    | escaped live unlike =>
      obtain rfl := Thrown.other.inj (Except.error.inj he)
      exact unlike rfl
    | cancelled | timedOut | gaveUp | interrupted => exact absurd (Except.error.inj he) (by simp)
  | again ended rest ih =>
    cases ended with
    | retried fails of retries =>
      obtain ⟨retry, hretry, -, hlt⟩ := retries
      rw [maxAttempts, Option.mem_def.mp hretry] at hmax
      obtain ⟨hlen, hr⟩ := ih (by dsimp only [Option.elim_some] at hmax; omega)
        (by rw [maxAttempts, Option.mem_def.mp hretry]; dsimp only [Option.elim_some] at hmax ⊢; omega)
      exact ⟨by rw [List.length_cons]; omega, hr⟩

theorem Tried.allowed (h : Tried x step left number before cs r) {pre post : List (Trial V)} (hcs : cs = pre ++ c :: post)
    (hpost : post ≠ []) : ∃ error ∈ failureOf x step c, Allows step error := by
  induction h generalizing pre with
  | none => simp at hcs
  | done ended =>
    cases pre with
    | nil => exact absurd (List.cons.inj hcs).2.symm hpost
    | cons d pre => simp at hcs
  | raised ended =>
    cases pre with
    | nil => exact absurd (List.cons.inj hcs).2.symm hpost
    | cons d pre => simp at hcs
  | again ended rest ih =>
    cases pre with
    | nil =>
      obtain ⟨rfl, -⟩ := List.cons.inj hcs
      cases ended with
      | retried fails of retries =>
        obtain ⟨retry, hretry, hallows, -⟩ := retries
        exact ⟨_, fails, retry, hretry, hallows⟩
    | cons d pre => exact ih (List.cons.inj hcs).2

theorem Tried.exhausted (h : Tried x step left number before cs r) (hmax : number + left = maxAttempts step + 1)
    {abort : Abort} (hr : r = .error (.abort abort)) (hkind : abort.kind.GaveUp) :
    ∃ pre c, cs = pre ++ [c] ∧ ∃ error ∈ failureOf x step c,
      (abort.kind = .retryExhausted ↔ Allows step error) ∧ (abort.kind = .retryExhausted → cs.length = left) := by
  induction h with
  | none => cases hr
  | done ended => cases hr
  | raised ended =>
    obtain rfl := Except.error.inj hr
    cases ended with
    | cancelled status kind kept => simp [AbortKind.GaveUp, kind] at hkind
    | timedOut of status kind kept => simp [AbortKind.GaveUp, kind] at hkind
    | interrupted fails of kind kept => rcases kind with kind | kind <;> simp [AbortKind.GaveUp, kind] at hkind
    | gaveUp fails of final kind exhausted kept =>
      refine ⟨[], _, rfl, _, fails, exhausted, fun hexhausted => ?_⟩
      obtain ⟨retry, hretry, hallows⟩ := exhausted.mp hexhausted
      -- the policy allows the error and has no attempt left
      rw [maxAttempts, Option.mem_def.mp hretry] at hmax
      have hlast : ¬ _ < retry.maxAttempts := fun hlt => final ⟨retry, hretry, hallows, hlt⟩
      dsimp only [Option.elim_some] at hmax
      rw [List.length_singleton]
      omega
  | again ended rest ih =>
    obtain ⟨pre, c, hcs, error, herror, hiff, hlen⟩ := ih (by omega) hr
    refine ⟨_ :: pre, c, by rw [hcs, List.cons_append], error, herror, hiff, fun h => ?_⟩
    rw [List.length_cons, hlen h]

theorem Tried.not_preserved (h : Tried x step left number [] cs r) (hcancelled : ∃ c ∈ cs, statusOf c = .cancelled) :
    ¬ Preserved x step cs r := by
  intro hp
  obtain ⟨attempts, hr, hlt⟩ := h.lost hcancelled
  have hlen := congrArg List.length (hp.listed attempts hr)
  rw [List.length_map, entries, List.length_mapIdx] at hlen
  rw [List.length_nil] at hlt
  omega

end Reports

/-- **Every attempt is preserved** unless one is cancelled. -/
theorem attempts_preserved_iff {A : (q : Request V) → q.Reply → Prop} (x : WorkflowExecutor V) (w : Workflow V)
    (step : Step V) (value : V) (deadline : Option ℚ) {h : History V} {r : Except (Thrown V) (StepOutcome V)}
    (hrun : Traced A (x.executeStep w step value deadline) h r) :
    Preserved x step (trials h) r ↔ ∀ c ∈ trials h, statusOf c ≠ .cancelled := by
  have htried := x.yields_executeStep_tried w value h r hrun
  have hone : 1 ≤ maxAttempts step := by
    unfold maxAttempts
    cases step.retry with
    | none => exact le_refl 1
    | some retry => exact retry.one_le_maxAttempts
  constructor
  · exact fun hp c hc hcancelled => htried.not_preserved ⟨c, hc, hcancelled⟩ hp
  · intro hlive
    obtain ⟨hlen, hreached⟩ := htried.bounded hone (by omega)
    exact ⟨fun attempts hr => htried.listed hlive hr, hlen, fun pre c post hcs hpost => htried.allowed hcs hpost,
      fun abort hr hkind => htried.exhausted (by omega) hr hkind, hreached⟩

/-- A step that is tried at most twice, on any exception. -/
def twice : Step ℕ where
  id := "fetch"
  retry := some ⟨2, ["Exception"], Backoff.default, by norm_num, by simp⟩

/-- The clock stands still, nobody cancels, and attempts end in this way. -/
def endsIn (ended : ℕ → RaceEnd ℕ) : (q : Request ℕ) → q.Reply
  | .monotonic => (0 : ℚ)
  | .random => (0 : ℚ)
  | .emit _ => (0 : ℚ)
  | .cancelled => false
  | .reason => (none : Option String)
  | .attempt call => ended call.number
  | .sleep _ => ()

/-- Two attempts that raise. -/
theorem attempts_preserved_twice : ∃ h r, Traced (fun _ _ => True)
    (numbers.executeStep { name := "demo", steps := [twice] } twice 0 none) h r ∧
      Preserved numbers twice (trials h) r ∧ (trials h).length = 2 := by
  let answer := endsIn fun _ => .raised (valueError "boom")
  have hrun : Traced (fun _ _ => True) (numbers.executeStep { name := "demo", steps := [twice] } twice 0 none)
      (Proc.replay answer _).1 (Proc.replay answer _).2 := traced_replay (fun _ => trivial) _
  refine ⟨_, _, hrun, (attempts_preserved_iff numbers _ twice 0 none hrun).mpr ?_, by decide +kernel⟩
  have hlive : ∀ c ∈ trials (Proc.replay answer
      (numbers.executeStep { name := "demo", steps := [twice] } twice 0 none)).1, statusOf c ≠ .cancelled := by
    decide +kernel
  exact hlive

/-- The first attempt raises, and the run is cancelled during the second: one attempt is reported. -/
theorem attempts_lost : ∃ h r, Traced (fun _ _ => True)
    (numbers.executeStep { name := "demo", steps := [twice] } twice 0 none) h r ∧ ¬ Preserved numbers twice (trials h) r := by
  let answer := endsIn fun n => if n = 1 then .raised (valueError "boom") else .stopped true 0
  have hrun : Traced (fun _ _ => True) (numbers.executeStep { name := "demo", steps := [twice] } twice 0 none)
      (Proc.replay answer _).1 (Proc.replay answer _).2 := traced_replay (fun _ => trivial) _
  have hcancelled : ∃ c ∈ trials (Proc.replay answer
      (numbers.executeStep { name := "demo", steps := [twice] } twice 0 none)).1, statusOf c = .cancelled := by
    decide +kernel
  have htried := numbers.yields_executeStep_tried _ 0 _ _ hrun
  exact ⟨_, _, hrun, htried.not_preserved hcancelled⟩

end Xyberos.Execution
