import Xyberos.Base.Traces
import Xyberos.Execution.Executor

/-!
# Xyberos.Execution.Course — what the parts of a run do

One relation for each part of a run says what it may have exchanged when it ends, and in what it ends: `Judged` for an
attempt from its race on, `StepRun` for the attempts at a step, `TurnRun` for the turn of a ready step up to the edges
that leave it.  Nothing else is known of a run in the modules that follow.
-/

set_option autoImplicit false

namespace Xyberos.Execution

open Proc

variable {V : Type}

/-! ## Histories -/

/-- What a run exchanged with its surroundings. -/
abbrev History (V : Type) := List (Exchange (Request.Reply (V := V)))

/-- An attempt, and how its race ended. -/
abbrev Trial (V : Type) := AttemptCall V × RaceEnd V

def emission? : Exchange (Request.Reply (V := V)) → Option Emission
  | ⟨.emit e, _⟩ => some e
  | _ => none

def trial? : Exchange (Request.Reply (V := V)) → Option (Trial V)
  | ⟨.attempt call, ended⟩ => some (call, ended)
  | _ => none

/-- The events written to the log. -/
def emissions (l : History V) : List Emission := l.filterMap emission?

/-- The attempts made. -/
def trials (l : History V) : List (Trial V) := l.filterMap trial?

/-- Neither an event nor an attempt. -/
def Quiet (l : History V) : Prop := emissions l = [] ∧ trials l = []

section History

variable {l l' : History V}

@[simp] theorem emissions_nil : emissions ([] : History V) = [] := rfl

@[simp] theorem trials_nil : trials ([] : History V) = [] := rfl

@[simp] theorem emissions_append : emissions (l ++ l') = emissions l ++ emissions l' := List.filterMap_append

@[simp] theorem trials_append : trials (l ++ l') = trials l ++ trials l' := List.filterMap_append

@[simp] theorem emissions_emit {e : Emission} {t : ℚ} :
    emissions ((⟨.emit e, t⟩ : Exchange (Request.Reply (V := V))) :: l) = e :: emissions l := rfl

@[simp] theorem trials_emit {e : Emission} {t : ℚ} :
    trials ((⟨.emit e, t⟩ : Exchange (Request.Reply (V := V))) :: l) = trials l := rfl

@[simp] theorem emissions_attempt {call : AttemptCall V} {ended : RaceEnd V} :
    emissions ((⟨.attempt call, ended⟩ : Exchange (Request.Reply (V := V))) :: l) = emissions l := rfl

@[simp] theorem trials_attempt {call : AttemptCall V} {ended : RaceEnd V} :
    trials ((⟨.attempt call, ended⟩ : Exchange (Request.Reply (V := V))) :: l) = (call, ended) :: trials l := rfl

theorem quiet_nil : Quiet ([] : History V) := ⟨rfl, rfl⟩

theorem Quiet.append (h : Quiet l) (h' : Quiet l') : Quiet (l ++ l') :=
  ⟨by rw [emissions_append, h.1, h'.1, List.append_nil], by rw [trials_append, h.2, h'.2, List.append_nil]⟩

/-- An exchange that is neither an event nor an attempt changes nothing. -/
theorem Quiet.of_none {x : Exchange (Request.Reply (V := V))} (he : emission? x = none) (ht : trial? x = none) :
    Quiet [x] :=
  ⟨by rw [emissions, List.filterMap_cons_none he]; rfl, by rw [trials, List.filterMap_cons_none ht]; rfl⟩

/-- A single event. -/
theorem emissions_of_quiet (h : Quiet l) (h' : Quiet l') {e : Emission} {t : ℚ} :
    emissions (l ++ ⟨.emit e, t⟩ :: l') = [e] := by
  rw [emissions_append, h.1, emissions_emit, h'.1, List.nil_append]

end History

/-! ## Rules for the requests of a run -/

section Requests

variable {α : Type} {A : (q : Request V) → q.Reply → Prop} {C : History V → Except (Thrown V) α → Prop}

theorem yields_ask_then {q : Request V} {f : q.Reply → Coroutine V α} :
    Yields A (ask q >>= f) C ↔ ∀ x, A q x → Yields A (f x) fun l r => C (⟨q, x⟩ :: l) r :=
  yields_bind_request

theorem yields_emit_then {e : Emission} {f : Unit → Coroutine V α} :
    Yields A (emit e >>= f) C ↔ ∀ t, A (.emit e) t → Yields A (f ()) fun l r => C (⟨.emit e, t⟩ :: l) r := by
  show Yields A ((ask (.emit e) >>= fun _ => pure ()) >>= f) C ↔ _
  rw [yields_bind, yields_ask_then]
  refine forall₂_congr fun t _ => ?_
  rw [yields_pure, ends_ok]
  exact Iff.rfl

theorem yields_abort {a : Abort} : Yields A (abort a : Coroutine V α) C ↔ C [] (.error (.abort a)) := yields_raise

theorem yields_lift {x : Except Exc α} : Yields A (lift x) C ↔ C [] (x.mapError .other) := by
  cases x with
  | ok a => exact yields_pure
  | error e => exact yields_raise

end Requests

/-! ## What interrupts a run -/

variable {A : (q : Request V) → q.Reply → Prop}

/-- The aborts of a run that is cancelled, or past its deadline. -/
def Interrupts (A : (q : Request V) → q.Reply → Prop) (deadline : Option ℚ) (kind : AbortKind) : Prop :=
  kind = .cancelled ∧ A .cancelled true ∨ kind = .timedOut ∧ deadline.isSome

namespace WorkflowExecutor

section Interrupts

variable {deadline : Option ℚ}

theorem yields_pastDeadline : Yields A (pastDeadline deadline) fun l r =>
    Quiet l ∧ ∃ b, r = .ok b ∧ (b = true → deadline.isSome) := by
  cases deadline with
  | none => exact yields_pure.mpr ⟨quiet_nil, false, rfl, nofun⟩
  | some d =>
    refine yields_ask_then.mpr fun now _ => yields_pure.mpr ⟨⟨rfl, rfl⟩, _, rfl, fun _ => rfl⟩

theorem yields_remaining (d : ℚ) : Yields A (remaining d) fun l r => Quiet l ∧ ∃ q, r = .ok q :=
  yields_ask_then.mpr fun _ _ => yields_pure.mpr ⟨⟨rfl, rfl⟩, _, rfl⟩

/-- `_require_live` is silent, and interrupts a run that is cancelled or out of time. -/
theorem yields_requireLive (w : Workflow V) (step : String) : Yields A (requireLive deadline w step) fun l r =>
    Quiet l ∧ (r = .ok () ∨ ∃ a, r = .error (.abort a) ∧ Interrupts A deadline a.kind) := by
  refine yields_ask_then.mpr fun c hc => ?_
  cases c with
  | true =>
    rw [if_pos rfl]
    exact yields_ask_then.mpr fun reason _ => yields_abort.mpr ⟨⟨rfl, rfl⟩, .inr ⟨_, rfl, .inl ⟨rfl, hc⟩⟩⟩
  | false =>
    rw [if_neg Bool.false_ne_true, yields_bind]
    refine yields_pastDeadline.mono ?_
    rintro l r ⟨hl, b, rfl, hb⟩
    rw [ends_ok]
    split_ifs with hpast
    · exact yields_abort.mpr ⟨(Quiet.of_none rfl rfl).append (hl.append quiet_nil), .inr ⟨_, rfl, .inr ⟨rfl, hb hpast⟩⟩⟩
    · exact yields_pure.mpr ⟨(Quiet.of_none rfl rfl).append (hl.append quiet_nil), .inl rfl⟩

theorem yields_pauseBudget (delay : ℚ) : Yields A (pauseBudget delay deadline) fun l r => Quiet l ∧ ∃ q, r = .ok q := by
  cases deadline with
  | none => exact yields_pure.mpr ⟨quiet_nil, _, rfl⟩
  | some d =>
    refine yields_bind.mpr ((yields_remaining d).mono ?_)
    rintro l r ⟨hl, q, rfl⟩
    exact yields_pure.mpr ⟨hl.append quiet_nil, _, rfl⟩

/-- `_pause` is silent, and interrupts a run that is cancelled or out of time. -/
theorem yields_pause (delay : ℚ) (w : Workflow V) (step : String) (attempts : List Attempt) :
    Yields A (pause delay deadline w step attempts) fun l r =>
      Quiet l ∧ (r = .ok () ∨ ∃ a, r = .error (.abort a) ∧ Interrupts A deadline a.kind) := by
  refine yields_bind.mpr ((yields_pauseBudget delay).mono ?_)
  rintro l r ⟨hl, q, rfl⟩
  refine yields_ask_then.mpr fun _ _ => yields_ask_then.mpr fun c hc => ?_
  have hl' : Quiet (l ++ [⟨.sleep (max q 0), ()⟩, ⟨.cancelled, c⟩]) := hl.append ⟨rfl, rfl⟩
  cases c with
  | true =>
    rw [if_pos rfl]
    exact yields_abort.mpr ⟨hl', .inr ⟨_, rfl, .inl ⟨rfl, hc⟩⟩⟩
  | false =>
    rw [if_neg Bool.false_ne_true]
    refine yields_bind.mpr (yields_pastDeadline.mono ?_)
    rintro k r ⟨hk, b, rfl, hb⟩
    have hlk := hl'.append hk
    rw [List.append_assoc] at hlk
    rw [ends_ok]
    split_ifs with hpast
    · exact yields_abort.mpr ⟨by simpa using hlk, .inr ⟨_, rfl, .inr ⟨rfl, hb hpast⟩⟩⟩
    · exact yields_pure.mpr ⟨by simpa using hlk, .inl rfl⟩

end Interrupts

/-! ## An attempt -/

variable (x : WorkflowExecutor V)

/-- The error of an attempt that failed: its retry policy is asked about it. -/
def failure (step : Step V) (result : AttemptResult V) : Option Exc :=
  match result.stop with
  | some .stepTimeout => step.timeout.map fun timeout =>
      stepTimeoutError s!"step {reprStr step.id} exceeded its timeout of {x.formatG timeout}s"
  | some _ => none
  | none => result.error.filter fun e => !e.isInstance "WorkflowCancelledError" && !e.isInstance "WorkflowTimeoutError"

end WorkflowExecutor

/-- The retry policy of the step makes another attempt after this one. -/
def Retries (step : Step V) (number : ℕ) (error : Exc) : Prop :=
  ∃ retry ∈ step.retry, retry.allows error ∧ number < retry.maxAttempts

/-- The delay before the next attempt cannot be computed. -/
def Overflows (step : Step V) (number : ℕ) : Prop :=
  ∃ retry ∈ step.retry, floatMax < retry.backoff.multiplier ^ (number - 1)

/-- The events that end an attempt. -/
def EventType.closes : EventType → Bool
  | .stepSucceeded | .stepFailed | .stepTimedOut | .stepCancelled => true
  | _ => false

/-- An event of an attempt. -/
structure Emission.Of (e : Emission) (step : String) (number : ℕ) : Prop where
  step : e.step = some step
  attempt : e.attempt = some number

/-- An attempt from its race on: the events, and the outcome of the step, the attempts made, or an exception. -/
inductive Judged (A : (q : Request V) → q.Reply → Prop) (x : WorkflowExecutor V) (step : Step V)
    (deadline : Option ℚ) (number : ℕ) (result : AttemptResult V) :
    List Emission → Except (Thrown V) (StepOutcome V ⊕ List Attempt) → Prop
  | succeeded {e : Emission} {o : StepOutcome V} (stop : result.stop = none) (error : result.error = none)
      (of : e.Of step.id number) (type : e.type = .stepSucceeded) (named : o.step = step.id)
      (status : o.status = .succeeded) (output : o.output = result.output) :
      Judged A x step deadline number result [e] (.ok (.inl o))
  | aborted {e : Emission} {a : Abort} (of : e.Of step.id number) (type : e.type.closes = true)
      (unlike : e.type ≠ .stepSucceeded) (failed : result.stop.isSome ∨ result.error.isSome)
      (timed : result.stop = some .stepTimeout → step.timeout.isSome)
      (final : ∀ error ∈ x.failure step result, ¬ Retries step number error) :
      Judged A x step deadline number result [e] (.error (.abort a))
  | retried {e e' : Emission} {error : Exc} {attempts : List Attempt} (fails : error ∈ x.failure step result)
      (retries : Retries step number error) (fits : ¬ Overflows step number) (of : e.Of step.id number)
      (type : e.type = .stepFailed ∨ e.type = .stepTimedOut) (of' : e'.Of step.id number)
      (type' : e'.type = .stepRetried) :
      Judged A x step deadline number result [e, e'] (.ok (.inr attempts))
  | interrupted {e e' : Emission} {error : Exc} {a : Abort} (fails : error ∈ x.failure step result)
      (retries : Retries step number error) (fits : ¬ Overflows step number) (of : e.Of step.id number)
      (type : e.type = .stepFailed ∨ e.type = .stepTimedOut) (of' : e'.Of step.id number)
      (type' : e'.type = .stepRetried) (kind : Interrupts A deadline a.kind) :
      Judged A x step deadline number result [e, e'] (.error (.abort a))
  | overflowed {e : Emission} {error : Exc} (fails : error ∈ x.failure step result)
      (retries : Retries step number error) (overflows : Overflows step number) (of : e.Of step.id number)
      (type : e.type = .stepFailed ∨ e.type = .stepTimedOut) :
      Judged A x step deadline number result [e] (.error (.other (overflowError "Numerical result out of range")))
  | unformatted (stop : result.stop = some .stepTimeout) (timeout : step.timeout = none) :
      Judged A x step deadline number result []
        (.error (.other (typeError "unsupported format string passed to NoneType.__format__")))

namespace WorkflowExecutor

section Attempts

variable (x : WorkflowExecutor V) {deadline : Option ℚ} {step : Step V} {number : ℕ}

theorem yields_delayFor (backoff : Backoff) (hnumber : 1 ≤ number) : Yields A (delayFor backoff number) fun l r =>
    Quiet l ∧ ((∃ delay, r = .ok delay ∧ ¬ floatMax < backoff.multiplier ^ (number - 1)) ∨
      floatMax < backoff.multiplier ^ (number - 1) ∧
        r = .error (.other (overflowError "Numerical result out of range"))) := by
  have hlift : ∀ draw, Yields A (lift (V := V) (backoff.delayFor number draw)) fun l r => l = [] ∧
      ((∃ delay, r = .ok delay ∧ ¬ floatMax < backoff.multiplier ^ (number - 1)) ∨
        floatMax < backoff.multiplier ^ (number - 1) ∧
          r = .error (.other (overflowError "Numerical result out of range"))) := by
    intro draw
    rw [yields_lift]
    refine ⟨rfl, ?_⟩
    unfold Backoff.delayFor
    rw [if_neg (by omega)]
    by_cases hover : floatMax < backoff.multiplier ^ (number - 1)
    · rw [if_pos hover]
      exact .inr ⟨hover, rfl⟩
    · rw [if_neg hover]
      exact .inl ⟨_, rfl, hover⟩
  unfold delayFor
  split_ifs
  · refine yields_bind.mpr (yields_pure.mpr ?_)
    refine (hlift 0).mono ?_
    rintro l r ⟨rfl, h⟩
    exact ⟨quiet_nil, h⟩
  · refine yields_bind_request.mpr fun draw _ => (hlift draw).mono ?_
    rintro l r ⟨rfl, h⟩
    exact ⟨⟨rfl, rfl⟩, h⟩

/-- A failed attempt is waited for or ends the run, as the retry policy says. -/
theorem yields_afterFailure (w : Workflow V) (hnumber : 1 ≤ number) (attempts : List Attempt) (error : Exc) :
    Yields A (x.afterFailure w step deadline number attempts error) fun l r => trials l = [] ∧
      ((¬ Retries step number error ∧ emissions l = [] ∧ ∃ a, r = .error (.abort a)) ∨
        Retries step number error ∧
          (Overflows step number ∧ emissions l = [] ∧
              r = .error (.other (overflowError "Numerical result out of range")) ∨
            ¬ Overflows step number ∧ ∃ e : Emission, emissions l = [e] ∧ e.Of step.id number ∧
              e.type = .stepRetried ∧ (r = .ok () ∨ ∃ a, r = .error (.abort a) ∧ Interrupts A deadline a.kind))) := by
  unfold afterFailure
  cases hretry : step.retry with
  | none =>
    have hno : ¬ Retries step number error := by
      rintro ⟨retry, hr, -⟩
      rw [hretry] at hr
      cases hr
    exact yields_abort.mpr ⟨rfl, .inl ⟨hno, rfl, _, rfl⟩⟩
  | some retry =>
    have honly : ∀ retry' ∈ step.retry, retry' = retry := by
      intro retry' hr
      rw [hretry] at hr
      exact (Option.some.inj hr).symm
    by_cases hallows : retry.allows error
    · rw [Option.filter_some, if_pos hallows]
      dsimp only
      by_cases hmore : number < retry.maxAttempts
      · have hretries : Retries step number error := ⟨retry, hretry, hallows, hmore⟩
        rw [if_pos hmore, yields_bind]
        refine (yields_delayFor retry.backoff hnumber).mono ?_
        rintro l r ⟨hl, ⟨delay, rfl, hfits⟩ | ⟨hover, rfl⟩⟩
        · rw [ends_ok, yields_emit_then]
          intro t _
          refine (yields_pause delay w step.id attempts).mono ?_
          rintro k r ⟨hk, hr⟩
          have hno : ¬ Overflows step number := by
            rintro ⟨retry', hr', h⟩
            rw [honly retry' hr'] at h
            exact hfits h
          exact ⟨by simp [hl.2, hk.2],
            .inr ⟨hretries, .inr ⟨hno, _, emissions_of_quiet hl hk, ⟨rfl, rfl⟩, rfl, hr⟩⟩⟩
        · exact ⟨hl.2, .inr ⟨hretries, .inl ⟨⟨retry, hretry, hover⟩, hl.1, rfl⟩⟩⟩
      · rw [if_neg hmore]
        have hno : ¬ Retries step number error := by
          rintro ⟨retry', hr, -, h⟩
          rw [honly retry' hr] at h
          exact hmore h
        exact yields_abort.mpr ⟨rfl, .inl ⟨hno, rfl, _, rfl⟩⟩
    · rw [Option.filter_some, if_neg hallows]
      have hno : ¬ Retries step number error := by
        rintro ⟨retry', hr, h, -⟩
        rw [honly retry' hr] at h
        exact hallows h
      exact yields_abort.mpr ⟨rfl, .inl ⟨hno, rfl, _, rfl⟩⟩

/-- An attempt that failed on the timeout of its step had one. -/
theorem timeout_of_failure {x : WorkflowExecutor V} {result : AttemptResult V} {error : Exc}
    (h : error ∈ x.failure step result) (hstop : result.stop = some .stepTimeout) : step.timeout.isSome := by
  unfold failure at h
  rw [hstop] at h
  cases htimeout : step.timeout with
  | some timeout => rfl
  | none =>
    rw [htimeout] at h
    cases h

/-- The end of an attempt that failed. -/
private theorem yields_failed (w : Workflow V) (hnumber : 1 ≤ number) (attempts : List Attempt)
    {result : AttemptResult V} {error : Exc} (hfails : error ∈ x.failure step result)
    (hfailed : result.stop.isSome ∨ result.error.isSome) {e : Emission} (hof : e.Of step.id number)
    (htype : e.type = .stepFailed ∨ e.type = .stepTimedOut) :
    Yields A (do emit e; x.afterFailure w step deadline number attempts error; return .inr attempts) fun l r =>
      trials l = [] ∧ Judged A x step deadline number result (emissions l) r := by
  refine yields_emit_then.mpr fun t _ => yields_bind.mpr ((x.yields_afterFailure w hnumber attempts error).mono ?_)
  rintro l r ⟨ht, ⟨hno, he, a, rfl⟩ | ⟨hretries, ⟨hover, he, rfl⟩ | ⟨hfits, e', he, hof', htype', rfl | ⟨a, rfl, ha⟩⟩⟩⟩
  · refine ⟨ht, ?_⟩
    rw [emissions_emit, he]
    refine .aborted hof ?_ ?_ hfailed (timeout_of_failure hfails) fun error' h => ?_
    · rcases htype with h | h <;> rw [h] <;> rfl
    · rcases htype with h | h <;> rw [h] <;> exact nofun
    · rwa [Option.mem_unique h hfails]
  · refine ⟨ht, ?_⟩
    rw [emissions_emit, he]
    exact .overflowed hfails hretries hover hof htype
  · rw [ends_ok, yields_pure]
    refine ⟨by simp [ht], ?_⟩
    rw [emissions_emit, emissions_append, he]
    exact .retried hfails hretries hfits hof htype hof' htype'
  · refine ⟨ht, ?_⟩
    rw [emissions_emit, he]
    exact .interrupted hfails hretries hfits hof htype hof' htype' ha

theorem yields_judge (w : Workflow V) (hnumber : 1 ≤ number) (started duration : ℚ) (attempts : List Attempt)
    (result : AttemptResult V) :
    Yields A (x.judge w step deadline number started duration attempts result) fun l r =>
      trials l = [] ∧ Judged A x step deadline number result (emissions l) r := by
  unfold judge
  cases hstop : result.stop with
  | some stop =>
    have hfailed : result.stop.isSome ∨ result.error.isSome := .inl (by rw [hstop]; rfl)
    cases stop with
    | cancelled =>
      refine yields_emit_then.mpr fun t _ => yields_ask_then.mpr fun reason _ => yields_abort.mpr ⟨rfl, ?_⟩
      refine .aborted ⟨rfl, rfl⟩ rfl nofun hfailed (by simp [hstop]) ?_
      simp [failure, hstop]
    | timedOut =>
      refine yields_emit_then.mpr fun t _ => yields_abort.mpr ⟨rfl, ?_⟩
      refine .aborted ⟨rfl, rfl⟩ rfl nofun hfailed (by simp [hstop]) ?_
      simp [failure, hstop]
    | stepTimeout =>
      dsimp only
      cases htimeout : step.timeout with
      | none => exact yields_bind.mpr (yields_raise.mpr ⟨rfl, .unformatted hstop htimeout⟩)
      | some timeout =>
        refine yields_bind.mpr (yields_pure.mpr ?_)
        exact x.yields_failed w hnumber _ (by simp [failure, hstop, htimeout]) hfailed ⟨rfl, rfl⟩ (.inr rfl)
  | none =>
    dsimp only
    cases herror : result.error with
    | none =>
      refine yields_emit_then.mpr fun t _ => yields_ask_then.mpr fun now _ => yields_pure.mpr ⟨rfl, ?_⟩
      exact .succeeded hstop herror ⟨rfl, rfl⟩ rfl rfl rfl rfl
    | some error =>
      have hfailed : result.stop.isSome ∨ result.error.isSome := .inr (by rw [herror]; rfl)
      dsimp only
      by_cases hcancelled : error.isInstance "WorkflowCancelledError"
      · rw [if_pos hcancelled]
        refine yields_emit_then.mpr fun t _ => yields_abort.mpr ⟨rfl, ?_⟩
        refine .aborted ⟨rfl, rfl⟩ rfl nofun hfailed (by simp [hstop]) ?_
        simp [failure, hstop, herror, hcancelled]
      · rw [if_neg hcancelled]
        by_cases htimed : error.isInstance "WorkflowTimeoutError"
        · rw [if_pos htimed]
          refine yields_emit_then.mpr fun t _ => yields_abort.mpr ⟨rfl, ?_⟩
          refine .aborted ⟨rfl, rfl⟩ rfl nofun hfailed (by simp [hstop]) ?_
          simp [failure, hstop, herror, htimed]
        · rw [if_neg htimed]
          refine x.yields_failed w hnumber _ ?_ hfailed ⟨rfl, rfl⟩ (.inl rfl)
          simp [failure, hstop, herror, hcancelled, htimed]

end Attempts

end WorkflowExecutor

/-! ## The attempts at a step -/

/-- What an attempt is given. -/
structure AttemptCall.Of (call : AttemptCall V) (step : Step V) (value : V) (deadline : Option ℚ) (number : ℕ) :
    Prop where
  step : call.step = step.id
  number : call.number = number
  value : call.value = value
  deadline : call.deadline = deadline

/-- The attempts at a step from a number on: the attempts, the events, and the outcome or an exception. -/
inductive StepRun (A : (q : Request V) → q.Reply → Prop) (x : WorkflowExecutor V) (step : Step V) (value : V)
    (deadline : Option ℚ) : ℕ → List (Trial V) → List Emission → Except (Thrown V) (StepOutcome V) → Prop
  | uncalled {number : ℕ} {call : AttemptCall V} {message : String} {e : Emission}
      (of : call.Of step value deadline number) (allowed : A (.attempt call) (.uncalled message))
      (started : e.Of step.id number) (type : e.type = .stepStarted) :
      StepRun A x step value deadline number [(call, .uncalled message)] [e] (.error (.other (typeError message)))
  | done {number : ℕ} {call : AttemptCall V} {ended : RaceEnd V} {result : AttemptResult V} {e : Emission}
      {es : List Emission} {o : StepOutcome V} (of : call.Of step value deadline number)
      (allowed : A (.attempt call) ended) (started : e.Of step.id number) (type : e.type = .stepStarted)
      (raced : x.raceResult call ended = .ok result)
      (judged : Judged A x step deadline number result es (.ok (.inl o))) :
      StepRun A x step value deadline number [(call, ended)] (e :: es) (.ok o)
  | raised {number : ℕ} {call : AttemptCall V} {ended : RaceEnd V} {result : AttemptResult V} {e : Emission}
      {es : List Emission} {error : Thrown V} (of : call.Of step value deadline number)
      (allowed : A (.attempt call) ended) (started : e.Of step.id number) (type : e.type = .stepStarted)
      (raced : x.raceResult call ended = .ok result)
      (judged : Judged A x step deadline number result es (.error error)) :
      StepRun A x step value deadline number [(call, ended)] (e :: es) (.error error)
  | again {number : ℕ} {call : AttemptCall V} {ended : RaceEnd V} {result : AttemptResult V} {e : Emission}
      {es es' : List Emission} {attempts : List Attempt} {cs : List (Trial V)}
      {r : Except (Thrown V) (StepOutcome V)} (of : call.Of step value deadline number)
      (allowed : A (.attempt call) ended) (started : e.Of step.id number) (type : e.type = .stepStarted)
      (raced : x.raceResult call ended = .ok result)
      (judged : Judged A x step deadline number result es (.ok (.inr attempts)))
      (rest : StepRun A x step value deadline (number + 1) cs es' r) :
      StepRun A x step value deadline number ((call, ended) :: cs) (e :: (es ++ es')) r

/-- Another attempt is made only while the policy has one left, so the loop does not run out of numbers. -/
theorem Judged.lt_maxAttempts {x : WorkflowExecutor V} {step : Step V} {deadline : Option ℚ} {number : ℕ}
    {result : AttemptResult V} {es : List Emission} {attempts : List Attempt}
    (h : Judged A x step deadline number result es (.ok (.inr attempts))) :
    number < step.retry.elim 1 Retry.maxAttempts := by
  cases h with
  | retried fails retries =>
    obtain ⟨retry, hretry, -, hlt⟩ := retries
    rw [Option.mem_def.mp hretry]
    exact hlt

namespace WorkflowExecutor

section Steps

variable (x : WorkflowExecutor V) {deadline : Option ℚ} {step : Step V}

theorem yields_attemptBudget : Yields A (attemptBudget step deadline) fun l r => Quiet l ∧ ∃ budget, r = .ok budget := by
  cases deadline with
  | none => exact yields_pure.mpr ⟨quiet_nil, _, rfl⟩
  | some d =>
    refine yields_bind.mpr ((yields_remaining d).mono ?_)
    rintro l r ⟨hl, q, rfl⟩
    exact yields_pure.mpr ⟨hl.append quiet_nil, _, rfl⟩

/-- An attempt whose call raises ends the run; any other has a result. -/
theorem yields_race_then {α : Type} {call : AttemptCall V} {f : AttemptResult V → Coroutine V α}
    {C : History V → Except (Thrown V) α → Prop}
    (huncalled : ∀ message, A (.attempt call) (.uncalled message) →
      C [⟨.attempt call, .uncalled message⟩] (.error (.other (typeError message))))
    (hraced : ∀ ended result, A (.attempt call) ended → x.raceResult call ended = .ok result →
      Yields A (f result) fun l r => C (⟨.attempt call, ended⟩ :: l) r) : Yields A (x.race call >>= f) C := by
  refine yields_bind.mpr (yields_ask_then.mpr fun ended hended => yields_lift.mpr ?_)
  cases ended with
  | uncalled message => exact huncalled message hended
  | returned output => exact hraced _ _ hended rfl
  | raised error => exact hraced _ _ hended rfl
  | cancelled => exact hraced _ _ hended rfl
  | stopped cancelled now => exact hraced _ _ hended rfl

/-- What is exchanged for an attempt whose call raises. -/
theorem uncalled_history {l : History V} (hl : Quiet l) {e : Emission} {t b : ℚ} {c : AttemptCall V}
    {r : RaceEnd V} :
    trials (⟨.emit e, t⟩ :: ⟨.monotonic, b⟩ :: (l ++ [⟨.attempt c, r⟩])) = [(c, r)] ∧
      emissions (⟨.emit e, t⟩ :: ⟨.monotonic, b⟩ :: (l ++ [⟨.attempt c, r⟩])) = [e] := by
  constructor
  · show trials (l ++ _) = _
    rw [trials_append, hl.2]
    rfl
  · show e :: emissions (l ++ _) = _
    rw [emissions_append, hl.1]
    rfl

/-- What is exchanged for an attempt before it is judged. -/
theorem attempt_history {l k : History V} (hl : Quiet l) {e : Emission} {t b n : ℚ} {c : AttemptCall V}
    {r : RaceEnd V} :
    trials (⟨.emit e, t⟩ :: ⟨.monotonic, b⟩ :: (l ++ ⟨.attempt c, r⟩ :: ⟨.monotonic, n⟩ :: k)) =
        (c, r) :: trials k ∧
      emissions (⟨.emit e, t⟩ :: ⟨.monotonic, b⟩ :: (l ++ ⟨.attempt c, r⟩ :: ⟨.monotonic, n⟩ :: k)) =
        e :: emissions k := by
  constructor
  · show trials (l ++ _) = _
    rw [trials_append, hl.2]
    rfl
  · show e :: emissions (l ++ _) = _
    rw [emissions_append, hl.1]
    rfl

theorem yields_attemptFrom (w : Workflow V) (value : V) (started : ℚ) (left number : ℕ) (attempts : List Attempt)
    (hleft : 1 ≤ left) (hnumber : 1 ≤ number) (hmax : number + left = step.retry.elim 1 Retry.maxAttempts + 1) :
    Yields A (x.attemptFrom w step value deadline started left number attempts) fun l r =>
      StepRun A x step value deadline number (trials l) (emissions l) r := by
  induction left generalizing number attempts with
  | zero => omega
  | succ left ih =>
    refine yields_emit_then.mpr fun t _ => yields_ask_then.mpr fun began _ => yields_bind.mpr ?_
    refine yields_attemptBudget.mono ?_
    rintro l r ⟨hl, budget, rfl⟩
    have hof : AttemptCall.Of ⟨step.id, number, value, deadline, budget⟩ step value deadline number :=
      ⟨rfl, rfl, rfl, rfl⟩
    rw [ends_ok]
    refine x.yields_race_then (fun message hended => ?_) fun ended result hended hraced => ?_
    · obtain ⟨htrials, hemissions⟩ := uncalled_history hl
        (e := { type := .stepStarted, step := step.id, attempt := number }) (t := t) (b := began)
        (c := ⟨step.id, number, value, deadline, budget⟩) (r := .uncalled message)
      rw [htrials, hemissions]
      exact .uncalled hof hended ⟨rfl, rfl⟩ rfl
    refine yields_ask_then.mpr fun now _ => yields_bind.mpr ((x.yields_judge w hnumber _ _ attempts _).mono ?_)
    rintro k r ⟨hk, hjudged⟩
    have hhistory := fun k : History V => attempt_history hl (k := k)
      (e := { type := .stepStarted, step := step.id, attempt := number }) (t := t)
      (c := ⟨step.id, number, value, deadline, budget⟩) (b := began) (r := ended) (n := now)
    cases r with
    | error e =>
      rw [ends_error]
      rw [(hhistory k).1, (hhistory k).2, hk]
      exact .raised hof hended ⟨rfl, rfl⟩ rfl hraced hjudged
    | ok r =>
      rw [ends_ok]
      cases r with
      | inl o =>
        rw [yields_pure, List.append_nil, (hhistory k).1, (hhistory k).2, hk]
        exact .done hof hended ⟨rfl, rfl⟩ rfl hraced hjudged
      | inr attempts' =>
        have hlt := hjudged.lt_maxAttempts
        refine (ih (number + 1) attempts' (by omega) (by omega) (by omega)).mono ?_
        intro k' r hrun
        rw [(hhistory (k ++ k')).1, (hhistory (k ++ k')).2, trials_append, hk, emissions_append]
        exact .again hof hended ⟨rfl, rfl⟩ rfl hraced hjudged hrun

/-- `_execute_step`. -/
theorem yields_executeStep (w : Workflow V) (value : V) : Yields A (x.executeStep w step value deadline) fun l r =>
    StepRun A x step value deadline 1 (trials l) (emissions l) r := by
  refine yields_ask_then.mpr fun started _ => ?_
  have hmax : 1 ≤ step.retry.elim 1 Retry.maxAttempts := by
    cases step.retry with
    | none => exact le_refl 1
    | some retry => exact retry.one_le_maxAttempts
  exact x.yields_attemptFrom w value started _ 1 [] hmax (le_refl 1) (by omega)

end Steps

end WorkflowExecutor

/-! ## The turn of a ready step -/

/-- The edges into a step that were taken. -/
def RunState.reached (st : RunState V) (w : Workflow V) (stepId : String) : List (Edge V) :=
  (w.incoming stepId).filter fun edge => (edge.source, edge.target) ∈ st.taken

/-- The variables after a step was skipped. -/
def RunState.skip (st : RunState V) (x : WorkflowExecutor V) (stepId : String) : RunState V :=
  { st with outcomes := st.outcomes.set stepId { step := stepId, status := .skipped, output := x.null } }

/-- The variables after a step was run and selected an edge, or none. -/
def RunState.record (st : RunState V) (w : Workflow V) (stepId : String) (outcome : StepOutcome V)
    (selected : Option (Edge V)) : RunState V :=
  { st with
    outcomes := st.outcomes.set stepId outcome
    produced := st.produced.set stepId outcome.output
    outputs := if (w.outgoing stepId).isEmpty then st.outputs.set stepId outcome.output else st.outputs
    taken := selected.elim st.taken fun edge => (edge.source, edge.target) :: st.taken }

/-- The value a step is run with: the input of the run, or the output of the step whose edge reached it. -/
inductive Fed (w : Workflow V) (input : V) (st : RunState V) (stepId : String) : V → Prop
  | entry (incoming : w.incoming stepId = []) : Fed w input st stepId input
  | edge {edge : Edge V} {value : V} (reached : st.reached w stepId = [edge])
      (produced : st.produced.get? edge.source = some value) : Fed w input st stepId value

/-- The turn of a step up to the edges that leave it: the attempts, the events, and the variables or an exception. -/
inductive TurnRun (A : (q : Request V) → q.Reply → Prop) (x : WorkflowExecutor V) (w : Workflow V) (input : V)
    (deadline : Option ℚ) (step : Step V) (st : RunState V) :
    List (Trial V) → List Emission → Except (Thrown V) (RunState V) → Prop
  | conflict {a : Abort} {sources : String} (reached : 2 ≤ (st.reached w step.id).length) (kind : a.kind = .failed)
      (named : a.step = some step.id) (message : a.message = conflictMessage step.id sources) :
      TurnRun A x w input deadline step st [] [] (.error (.abort a))
  | skipped {e : Emission} (incoming : w.incoming step.id ≠ []) (reached : st.reached w step.id = [])
      (type : e.type = .stepSkipped) (of : e.step = some step.id) :
      TurnRun A x w input deadline step st [] [e] (.ok (st.skip x step.id))
  | halted {a : Abort} (kind : Interrupts A deadline a.kind) :
      TurnRun A x w input deadline step st [] [] (.error (.abort a))
  | raised {value : V} {cs : List (Trial V)} {es : List Emission} {error : Thrown V}
      (fed : Fed w input st step.id value) (run : StepRun A x step value deadline 1 cs es (.error error)) :
      TurnRun A x w input deadline step st cs es (.error error)
  | unselected {value : V} {cs : List (Trial V)} {es : List Emission} {o : StepOutcome V} {error : Exc}
      (fed : Fed w input st step.id value) (run : StepRun A x step value deadline 1 cs es (.ok o))
      (selects : selectEdge o.output (w.outgoing step.id) = .error error) :
      TurnRun A x w input deadline step st cs es (.error (.other error))
  | ran {value : V} {cs : List (Trial V)} {es : List Emission} {o : StepOutcome V} {selected : Option (Edge V)}
      (fed : Fed w input st step.id value) (run : StepRun A x step value deadline 1 cs es (.ok o))
      (selects : selectEdge o.output (w.outgoing step.id) = .ok selected) :
      TurnRun A x w input deadline step st cs es (.ok (st.record w step.id o selected))

namespace WorkflowExecutor

section Turns

variable (x : WorkflowExecutor V) {w : Workflow V} {input : V} {deadline : Option ℚ} {step : Step V} {st : RunState V}

theorem yields_runTurn {value : V} (hfed : Fed w input st step.id value) :
    Yields A (x.runTurn w value deadline step st) fun l r =>
      TurnRun A x w input deadline step st (trials l) (emissions l) r := by
  refine yields_bind.mpr ((x.yields_executeStep w value).mono ?_)
  intro l r hrun
  cases r with
  | error e => exact .raised hfed hrun
  | ok o =>
    rw [ends_ok]
    dsimp only
    cases hout : w.outgoing step.id with
    | nil =>
      rw [yields_pure, List.append_nil]
      have := TurnRun.ran hfed hrun (show selectEdge o.output (w.outgoing step.id) = .ok none by rw [hout]; rfl)
      simpa [RunState.record, hout] using this
    | cons edge edges =>
      dsimp only
      rw [← hout, yields_bind, yields_lift]
      cases hselect : selectEdge o.output (w.outgoing step.id) with
      | error e =>
        have := TurnRun.unselected hfed hrun hselect
        simpa [Except.mapError] using this
      | ok selected =>
        have := TurnRun.ran hfed hrun hselect
        cases selected with
        | none =>
          refine yields_pure.mpr ?_
          simpa [RunState.record, hout] using this
        | some edge =>
          refine yields_pure.mpr ?_
          simpa [RunState.record, hout] using this

/-- A turn, when the outputs of the steps that reached this one are at hand. -/
theorem yields_decideTurn (hproduced : ∀ edge ∈ st.reached w step.id, (st.produced.get? edge.source).isSome) :
    Yields A (x.decideTurn w input deadline step st) fun l r =>
      TurnRun A x w input deadline step st (trials l) (emissions l) r := by
  -- the step is run, unless the run is interrupted
  have hrun : ∀ {value : V}, Fed w input st step.id value →
      Yields A (do requireLive deadline w step.id; x.runTurn w value deadline step st) fun l r =>
        TurnRun A x w input deadline step st (trials l) (emissions l) r := by
    intro value hfed
    refine yields_bind.mpr ((yields_requireLive w step.id).mono ?_)
    rintro l r ⟨hl, rfl | ⟨a, rfl, ha⟩⟩
    · refine (x.yields_runTurn hfed).mono fun k r h => ?_
      rwa [trials_append, emissions_append, hl.1, hl.2]
    · rw [ends_error, hl.1, hl.2]
      exact .halted ha
  unfold decideTurn
  dsimp only
  rw [show ((w.incoming step.id).filter fun edge => (edge.source, edge.target) ∈ st.taken) =
    st.reached w step.id from rfl]
  cases hin : w.incoming step.id with
  | nil => exact hrun (.entry hin)
  | cons first rest =>
    have hne : w.incoming step.id ≠ [] := by
      rw [hin]
      exact List.cons_ne_nil _ _
    cases hreached : st.reached w step.id with
    | nil => exact yields_emit_then.mpr fun t _ => yields_pure.mpr (.skipped hne hreached rfl rfl)
    | cons edge others =>
      cases others with
      | nil =>
        obtain ⟨value, hvalue⟩ := Option.isSome_iff_exists.mp (hproduced edge (by rw [hreached]; simp))
        dsimp only
        rw [Dict.getItem_of_get? hvalue]
        exact hrun (.edge hreached hvalue)
      | cons other others =>
        have hmany : 2 ≤ (st.reached w step.id).length := by
          rw [hreached]
          simp
        exact yields_abort.mpr (.conflict hmany rfl rfl rfl)

theorem yields_turn (hproduced : ∀ edge ∈ st.reached w step.id, (st.produced.get? edge.source).isSome) :
    Yields A (x.turn w input deadline step st) fun l r => ∃ r', TurnRun A x w input deadline step st (trials l)
      (emissions l) r' ∧ r = r'.bind fun st' => (relaxEdges w (w.outgoing step.id) st').mapError .other := by
  refine yields_bind.mpr ((x.yields_decideTurn hproduced).mono ?_)
  intro l r h
  cases r with
  | error e => exact ⟨_, h, rfl⟩
  | ok st' =>
    rw [ends_ok, yields_lift, List.append_nil]
    exact ⟨_, h, rfl⟩

end Turns

end WorkflowExecutor

/-! ## The loop and the run -/

/-- What holds when the loop is left: `I`, with the rounds that are left, `F` when a turn raised. -/
def LoopEnds (I : ℕ → History V → RunState V → Prop) (F : History V → Thrown V → Prop) (h : History V) :
    Except (Thrown V) (RunState V × Option Abort) → Prop
  | .ok (st, none) => ∃ rounds, I rounds h st ∧ (rounds = 0 ∨ st.ready = [])
  | .ok (_, some a) => F h (.abort a)
  | .error e => F h e ∧ ∀ a, e ≠ .abort a

def startedEvent (w : Workflow V) : Emission := { type := .workflowStarted, detail := s!"steps={w.steps.length}" }

def RunState.succeededEvent (st : RunState V) (duration : ℚ) : Emission :=
  { type := .workflowSucceeded, duration, detail := s!"outputs={st.outputs.items.length}" }

def Abort.abortedEvent (a : Abort) : Emission :=
  { type := a.kind.event, step := a.step, detail := a.message, errorType := a.errorName }

/-- The result of a run. -/
def RunState.result (st : RunState V) (w : Workflow V) (duration : ℚ) : WorkflowResult V :=
  { workflow := w.name, version := w.version, outputs := st.outputs, steps := st.outcomes, duration }

/-- The error of a run that was aborted. -/
def Abort.executionError (a : Abort) (w : Workflow V) (outcomes : Dict (StepOutcome V)) : ExecutionError V :=
  { error := a.kind.error a.message
    workflow := w.name
    step := a.step
    attempts := a.attempts
    outcomes
    cause := a.cause }

/-- A call that is not refused before the run starts. -/
structure Accepted (w : Workflow V) (input : V) (timeout : Option ℚ) : Prop where
  timeout : ∀ t ∈ timeout, 0 < t
  input : ∀ type ∈ w.inputType, type.isInstance input = true

namespace WorkflowExecutor

section Runs

variable (x : WorkflowExecutor V) {w : Workflow V} {input : V} {deadline timeout : Option ℚ} {st : RunState V}

/-- **The rule of the loop.**  An invariant that every turn keeps holds when the loop is left. -/
theorem yields_loop {I : ℕ → History V → RunState V → Prop} {F : History V → Thrown V → Prop}
    (hturn : ∀ rounds h st step ready, st.ready = step :: ready → I (rounds + 1) h st →
      Yields A (x.turn w input deadline step { st with ready }) fun l r => Ends (F (h ++ l)) (I rounds (h ++ l)) r)
    {rounds : ℕ} {h : History V} (hI : I rounds h st) :
    Yields A (x.loop w input deadline rounds st) fun l r => LoopEnds I F (h ++ l) r := by
  induction rounds generalizing h st with
  | zero =>
    refine yields_pure.mpr ⟨0, ?_, .inl rfl⟩
    rwa [List.append_nil]
  | succ rounds ih =>
    cases hready : st.ready with
    | nil =>
      unfold loop
      rw [hready]
      refine yields_pure.mpr ⟨rounds + 1, ?_, .inr hready⟩
      rwa [List.append_nil]
    | cons step ready =>
      unfold loop
      rw [hready]
      refine yields_bind.mpr (yields_attempt.mpr ((hturn rounds h st step ready hready hI).mono ?_))
      intro l r hr
      cases r with
      | ok st' =>
        refine (ih hr).mono fun k r hk => ?_
        rwa [← List.append_assoc]
      | error e =>
        rw [ends_ok]
        rw [ends_error] at hr
        cases e with
        | abort a =>
          refine yields_pure.mpr ?_
          rw [List.append_nil]
          exact hr
        | execution e =>
          refine yields_raise.mpr ?_
          rw [List.append_nil]
          exact ⟨hr, nofun⟩
        | other e =>
          refine yields_raise.mpr ?_
          rw [List.append_nil]
          exact ⟨hr, nofun⟩

theorem requirePositive_ok : x.requirePositive timeout "timeout" = .ok () ↔ ∀ t ∈ timeout, 0 < t := by
  cases timeout with
  | none => simp [requirePositive]
  | some t =>
    unfold requirePositive
    dsimp only
    split_ifs with h
    · simpa using h
    · simpa using h

theorem requireInput_ok : x.requireInput w input = .ok () ↔ ∀ type ∈ w.inputType, type.isInstance input = true := by
  unfold requireInput
  cases w.inputType with
  | none => simp
  | some declared =>
    dsimp only
    split_ifs with h
    · simpa using h
    · simpa using h

/-- A refused input is not the fault of a step. -/
theorem step_of_requireInput {e : ExecutionError V} (h : x.requireInput w input = .error (.execution e)) :
    e.step = none := by
  unfold requireInput at h
  cases hin : w.inputType with
  | none => simp [hin] at h
  | some declared =>
    rw [hin] at h
    dsimp only at h
    split_ifs at h
    obtain rfl := Thrown.execution.inj (Except.error.inj h)
    rfl

/-- **The rule of a run** of a definition that is accepted, from what holds when its loop is left. -/
theorem yields_run (hv : w.validate = .ok ()) (hinit : RunState.initial w = .ok st)
    {C : History V → Except (Thrown V) (WorkflowResult V) → Prop}
    (hrefused : ¬ Accepted w input timeout → ∀ e, (∀ e', e = .execution e' → e'.step = none) → C [] (.error e))
    (hloop : Accepted w input timeout → ∀ started t,
      Yields A (x.loop w input (timeout.map fun timeout => started + timeout) w.steps.length st) fun l r =>
        let before : History V := [⟨.monotonic, started⟩, ⟨.emit (startedEvent w), t⟩]
        match r with
        | .ok (st, none) => ∀ now t',
          C (before ++ l ++ [⟨.monotonic, now⟩, ⟨.emit (st.succeededEvent (now - started)), t'⟩])
            (.ok (st.result w (now - started)))
        | .ok (st, some a) => ∀ t',
          C (before ++ l ++ [⟨.emit a.abortedEvent, t'⟩]) (.error (.execution (a.executionError w st.outcomes)))
        | .error e => C (before ++ l) (.error e)) :
    Yields A (x.run w input timeout) C := by
  unfold run
  rw [hv]
  refine yields_bind.mpr (yields_pure.mpr ?_)
  rw [ends_ok, yields_bind, yields_lift]
  cases hpositive : x.requirePositive timeout "timeout" with
  | error e =>
    refine hrefused (fun h => ?_) _ nofun
    rw [x.requirePositive_ok.mpr h.timeout] at hpositive
    cases hpositive
  | ok u =>
    refine yields_bind.mpr (yields_ofExcept.mpr ?_)
    cases hinput : x.requireInput w input with
    | error e =>
      refine hrefused (fun h => ?_) _ fun e' he => x.step_of_requireInput (he ▸ hinput)
      rw [x.requireInput_ok.mpr h.input] at hinput
      cases hinput
    | ok u' =>
      have haccepted : Accepted w input timeout := ⟨x.requirePositive_ok.mp hpositive, x.requireInput_ok.mp hinput⟩
      rw [ends_ok]
      refine yields_ask_then.mpr fun started _ => ?_
      rw [hinit]
      refine yields_bind.mpr (yields_pure.mpr (yields_emit_then.mpr fun t _ => yields_bind.mpr ?_))
      refine (hloop haccepted started t).mono fun l r hr => ?_
      cases r with
      | error e => exact hr
      | ok r =>
        obtain ⟨st', stop⟩ := r
        rw [ends_ok]
        cases stop with
        | some a =>
          refine yields_emit_then.mpr fun t' _ => yields_raise.mpr ?_
          simpa [startedEvent, Abort.abortedEvent, Abort.executionError] using hr t'
        | none =>
          refine yields_ask_then.mpr fun now _ => yields_emit_then.mpr fun t' _ => yields_pure.mpr ?_
          simpa [startedEvent, RunState.succeededEvent, RunState.result] using hr now t'

end Runs

end WorkflowExecutor

end Xyberos.Execution
