import Xyberos.Execution.Executor

/-!
# Xyberos.Execution.Stops — nothing starts after a stop

A run on a clock that advances, and with cancellation arriving, only while it awaits.  `Moment` is what the executor
could see, and `surroundings` how its requests are answered: an attempt and a backoff take time, everything else does
not.  The weakest precondition of a run then says where it emits `STEP_STARTED`, and which error it ends in.
-/

set_option autoImplicit false

namespace Xyberos.Execution

open Proc

variable {V : Type}

/-! ## Moments -/

/-- What a run awaited last. -/
inductive Awaited (V : Type)
  | nothing
  | attempt (ended : RaceEnd V)
  | backoff

/-- The clock, the token of the run, and what was awaited last. -/
structure Moment (V : Type) where
  now : ℚ
  cancelled : Bool
  awaited : Awaited V

namespace Moment

/-- Later on the same clock; a token stays cancelled. -/
structure Before (s t : Moment V) : Prop where
  now : s.now ≤ t.now
  cancelled : s.cancelled = true → t.cancelled = true

/-- Neither cancelled nor out of time. -/
structure Live (s : Moment V) (deadline : Option ℚ) : Prop where
  uncancelled : s.cancelled = false
  inTime : ∀ d ∈ deadline, s.now < d

/-- The executor finds the token cancelled where it decides to stop: while the attempt was running, or now.  Where the
step raised, the decision is not the executor's. -/
def FoundCancelled (t : Moment V) : Prop :=
  match t.awaited with
  | .attempt (.stopped cancelled _) => cancelled = true
  | .attempt (.uncalled _) => False
  | .attempt (.raised _) => False
  | .attempt .cancelled => False
  | _ => t.cancelled = true

instance (t : Moment V) : Decidable t.FoundCancelled := by
  unfold FoundCancelled
  split <;> infer_instance

/-- The executor is between steps. -/
def Between (s : Moment V) : Prop := s.awaited = .nothing ∨ ∃ output, s.awaited = .attempt (.returned output)

end Moment

/-- How a request is answered.  The token of an attempt is cancelled when the token of the run is; `_stop_reason` reads
it, and the clock, before the task of the attempt is awaited to its end. -/
def Replies : (q : Request V) → Moment V → Except (Thrown V) q.Reply → Moment V → Prop
  | .monotonic, s, x, t => x = .ok s.now ∧ t = s
  | .random, s, x, t => (∃ draw, x = .ok draw) ∧ t = s
  | .emit _, s, x, t => x = .ok s.now ∧ t = s
  | .cancelled, s, x, t => x = .ok s.cancelled ∧ t = s
  | .reason, s, x, t => (∃ reason, x = .ok reason) ∧ t = s
  | .sleep _, s, x, t => x = .ok () ∧ s.Before t ∧ t.awaited = .backoff
  | .attempt _, s, x, t => ∃ ended, x = .ok ended ∧ s.Before t ∧ t.awaited = .attempt ended ∧
      ∀ cancelled now, ended = .stopped cancelled now →
        ∃ m : Moment V, s.Before m ∧ m.Before t ∧ (m.cancelled = true → cancelled = true) ∧ now = m.now

/-- The surroundings of a run: steps are started while it is live. -/
def surroundings (V : Type) (deadline : Option ℚ) : World (Request V) Request.Reply (Thrown V) (Moment V) where
  interferes _ _ := False
  allows q s := ∀ e, q = .emit e → e.type = .stepStarted → s.Live deadline
  answers := Replies

/-- The abort for a step that more than one branch reached. -/
def Abort.Merges (a : Abort) : Prop := a.kind = .failed ∧ ∃ step sources, a.message = conflictMessage step sources

/-- A run that finds its token cancelled ends as cancelled, or names branches that merge. -/
inductive Right (t : Moment V) : Thrown V → Prop
  | abort {a : Abort} (found : t.FoundCancelled → a.kind = .cancelled ∨ a.Merges) : Right t (.abort a)
  | other (e : Exc) : Right t (.other e)

/-! ## Rules -/

section Rules

variable {α : Type} {deadline : Option ℚ} {s : Moment V}

theorem wp_ask {q : Request V} {f : q.Reply → Coroutine V α} {Post : Except (Thrown V) α → Moment V → Prop}
    (hallows : ∀ e, q = .emit e → e.type = .stepStarted → s.Live deadline)
    (h : ∀ x t, Replies q s (.ok x) t → (f x).wp (surroundings V deadline) Post t)
    (hraise : ∀ e t, ¬ Replies q s (.error e) t) : (ask q >>= f).wp (surroundings V deadline) Post s := by
  refine wp_bind.mpr ((wp_request_alone fun _ _ => id).mpr ⟨hallows, fun x t hx => ?_⟩)
  cases x with
  | ok x => exact h x t hx
  | error e => exact absurd hx (hraise e t)

variable {Post : Except (Thrown V) α → Moment V → Prop}

theorem wp_monotonic {f : ℚ → Coroutine V α} (h : (f s.now).wp (surroundings V deadline) Post s) :
    (ask .monotonic >>= f).wp (surroundings V deadline) Post s := by
  refine wp_ask (by simp) ?_ fun e t hx => absurd hx.1 (by simp)
  rintro x t ⟨hx, rfl⟩
  obtain rfl := Except.ok.inj hx
  exact h

theorem wp_cancelled {f : Bool → Coroutine V α} (h : (f s.cancelled).wp (surroundings V deadline) Post s) :
    (ask .cancelled >>= f).wp (surroundings V deadline) Post s := by
  refine wp_ask (by simp) ?_ fun e t hx => absurd hx.1 (by simp)
  rintro x t ⟨hx, rfl⟩
  obtain rfl := Except.ok.inj hx
  exact h

theorem wp_reason {f : Option String → Coroutine V α} (h : ∀ reason, (f reason).wp (surroundings V deadline) Post s) :
    (ask .reason >>= f).wp (surroundings V deadline) Post s := by
  refine wp_ask (by simp) ?_ fun e t hx => absurd hx.1 (by simp)
  rintro x t ⟨-, rfl⟩
  exact h x

theorem wp_random {f : ℚ → Coroutine V α} (h : ∀ draw, (f draw).wp (surroundings V deadline) Post s) :
    (ask .random >>= f).wp (surroundings V deadline) Post s := by
  refine wp_ask (by simp) ?_ fun e t hx => absurd hx.1 (by simp)
  rintro x t ⟨-, rfl⟩
  exact h x

theorem wp_sleep {delay : ℚ} {f : Unit → Coroutine V α}
    (h : ∀ t, s.Before t → t.awaited = .backoff → (f ()).wp (surroundings V deadline) Post t) :
    (ask (.sleep delay) >>= f).wp (surroundings V deadline) Post s := by
  refine wp_ask (by simp) ?_ fun e t hx => absurd hx.1 (by simp)
  rintro x t ⟨-, hst, ht⟩
  exact h t hst ht

theorem wp_attempt_call {call : AttemptCall V} {f : RaceEnd V → Coroutine V α}
    (h : ∀ ended t, t.awaited = .attempt ended → (f ended).wp (surroundings V deadline) Post t) :
    (ask (.attempt call) >>= f).wp (surroundings V deadline) Post s := by
  refine wp_ask (by simp) ?_ ?_
  · rintro x t ⟨ended, hx, -, ht, -⟩
    obtain rfl := Except.ok.inj hx
    exact h x t ht
  · rintro e t ⟨ended, hx, -⟩
    cases hx

/-- An event, which is `STEP_STARTED` only where the run is live. -/
theorem wp_emit {e : Emission} {f : Unit → Coroutine V α} (hlive : e.type = .stepStarted → s.Live deadline)
    (h : (f ()).wp (surroundings V deadline) Post s) : (emit e >>= f).wp (surroundings V deadline) Post s := by
  show ((ask (.emit e) >>= fun _ => pure ()) >>= f).wp _ _ _
  refine wp_bind.mpr (wp_ask (fun e' he' => ?_) ?_ fun e t hx => absurd hx.1 (by simp))
  · obtain rfl := Request.emit.inj he'
    exact hlive
  · rintro x t ⟨-, rfl⟩
    exact h

theorem wp_lift {x : Except Exc α} (h : Post (x.mapError .other) s) :
    (lift x : Coroutine V α).wp (surroundings V deadline) Post s := by
  cases x <;> exact h

end Rules

/-! ## The parts of a run -/

section Parts

variable {deadline : Option ℚ} {s : Moment V} {step : Step V} {number : ℕ}

namespace WorkflowExecutor

theorem wp_pastDeadline : (pastDeadline (V := V) deadline).wp (surroundings V deadline)
    (fun r t => t = s ∧ ∃ b, r = .ok b ∧ (b = false → ∀ d ∈ deadline, s.now < d)) s := by
  cases deadline with
  | none => exact ⟨rfl, false, rfl, by simp⟩
  | some d =>
    refine wp_monotonic ⟨rfl, _, rfl, fun h d' hd' => ?_⟩
    obtain rfl := Option.mem_some.mp hd'
    simpa using h

/-- `_require_live` lets a live run pass, and stops a cancelled one as cancelled. -/
theorem wp_requireLive (w : Workflow V) (stepId : String) :
    (requireLive deadline w stepId).wp (surroundings V deadline)
      (fun r t => t = s ∧ (r = .ok () ∧ s.Live deadline ∨
        ∃ a, r = .error (.abort a) ∧ (s.cancelled = true → a.kind = .cancelled))) s := by
  refine wp_cancelled ?_
  by_cases hc : s.cancelled = true
  · rw [if_pos hc]
    exact wp_reason fun reason => ⟨rfl, .inr ⟨_, rfl, fun _ => rfl⟩⟩
  · rw [if_neg hc]
    refine wp_bind.mpr (wp_mono (wp_pastDeadline (s := s)) ?_)
    rintro r t ⟨rfl, b, rfl, hb⟩
    rw [ends_ok]
    by_cases hpast : b = true
    · rw [if_pos hpast]
      exact ⟨rfl, .inr ⟨_, rfl, fun h => absurd h hc⟩⟩
    · rw [if_neg hpast]
      exact ⟨rfl, .inl ⟨rfl, by simpa using hc, hb (by simpa using hpast)⟩⟩

theorem wp_remaining (d : ℚ) {Post : Except (Thrown V) ℚ → Moment V → Prop} (h : ∀ q, Post (.ok q) s) :
    (remaining (V := V) d).wp (surroundings V deadline) Post s :=
  wp_monotonic (h _)

theorem wp_pauseBudget (delay : ℚ) {Post : Except (Thrown V) ℚ → Moment V → Prop} (h : ∀ q, Post (.ok q) s) :
    (pauseBudget (V := V) delay deadline).wp (surroundings V deadline) Post s := by
  cases deadline with
  | none => exact h _
  | some d => exact wp_bind.mpr (wp_remaining d fun q => h _)

/-- `_pause` goes on with a live run, and stops a cancelled one as cancelled. -/
theorem wp_pause (delay : ℚ) (w : Workflow V) (stepId : String) (attempts : List Attempt) :
    (pause delay deadline w stepId attempts).wp (surroundings V deadline)
      (fun r t => t.awaited = .backoff ∧ (r = .ok () ∧ t.Live deadline ∨
        ∃ a, r = .error (.abort a) ∧ (t.cancelled = true → a.kind = .cancelled))) s := by
  refine wp_bind.mpr (wp_pauseBudget delay fun q => ?_)
  refine wp_sleep fun t _ ht => wp_cancelled ?_
  by_cases hc : t.cancelled = true
  · rw [if_pos hc]
    exact ⟨ht, .inr ⟨_, rfl, fun _ => rfl⟩⟩
  · rw [if_neg hc]
    refine wp_bind.mpr (wp_mono (wp_pastDeadline (s := t)) ?_)
    rintro r t' ⟨rfl, b, rfl, hb⟩
    rw [ends_ok]
    by_cases hpast : b = true
    · rw [if_pos hpast]
      exact ⟨ht, .inr ⟨_, rfl, fun h => absurd h hc⟩⟩
    · rw [if_neg hpast]
      exact ⟨ht, .inl ⟨rfl, by simpa using hc, hb (by simpa using hpast)⟩⟩

theorem wp_delayFor (backoff : Backoff) : (delayFor (V := V) backoff number).wp (surroundings V deadline)
    (fun r t => t = s ∧ ((∃ delay, r = .ok delay) ∨ ∃ e, r = .error (.other e))) s := by
  have hlift : ∀ draw, (lift (V := V) (backoff.delayFor number draw)).wp (surroundings V deadline)
      (fun r t => t = s ∧ ((∃ delay, r = .ok delay) ∨ ∃ e, r = .error (.other e))) s := by
    intro draw
    refine wp_lift ⟨rfl, ?_⟩
    cases backoff.delayFor number draw with
    | ok delay => exact .inl ⟨delay, rfl⟩
    | error e => exact .inr ⟨e, rfl⟩
  unfold delayFor
  split_ifs
  · exact wp_bind.mpr (hlift 0)
  · exact wp_random hlift

variable (x : WorkflowExecutor V)

/-- After a failed attempt another one is made only where the run is live. -/
theorem wp_afterFailure (w : Workflow V) (attempts : List Attempt) (error : Exc) (hs : ¬ s.FoundCancelled) :
    (x.afterFailure w step deadline number attempts error).wp (surroundings V deadline)
      (fun r t => Ends (fun e => Right t e) (fun _ => t.Live deadline) r) s := by
  unfold afterFailure
  have hstop : ∀ a : Abort, Right s (.abort a) := fun a => .abort fun h => absurd h hs
  cases step.retry.filter fun retry => retry.allows error with
  | none => exact hstop _
  | some retry =>
    dsimp only
    split_ifs
    · refine wp_bind.mpr (wp_mono (wp_delayFor (s := s) retry.backoff) ?_)
      rintro r t ⟨rfl, ⟨delay, rfl⟩ | ⟨e, rfl⟩⟩
      · rw [ends_ok]
        refine wp_emit (by simp) (wp_mono (wp_pause (s := t) delay w step.id attempts) ?_)
        rintro r t' ⟨hawaited, ⟨rfl, hlive⟩ | ⟨a, rfl, ha⟩⟩
        · exact hlive
        · refine .abort fun hfound => .inl (ha ?_)
          rwa [Moment.FoundCancelled, hawaited] at hfound
      · exact .other _
    · exact hstop _

/-- What is made of the end of an attempt: the step is over, or the run is live and another attempt follows. -/
theorem wp_judge (w : Workflow V) (started duration : ℚ) (attempts : List Attempt) (call : AttemptCall V)
    {ended : RaceEnd V} {result : AttemptResult V} (hs : s.awaited = .attempt ended)
    (hraced : x.raceResult call ended = .ok result) :
    (x.judge w step deadline number started duration attempts result).wp (surroundings V deadline)
      (fun r t => Ends (fun e => Right t e)
        (fun r => (∀ o, r = .inl o → t.Between) ∧ ∀ kept, r = .inr kept → t.Live deadline) r) s := by
  have hcancelled : ∀ a : Abort, a.kind = .cancelled → Right s (.abort a) := fun a hkind => .abort fun _ => .inl hkind
  have hunfound : ¬ s.FoundCancelled → ∀ a : Abort, Right s (.abort a) := fun hn a => .abort fun h => absurd h hn
  -- a failed attempt, whose event is written
  have hfailed : ¬ s.FoundCancelled → ∀ (e : Emission) (kept : List Attempt) (error : Exc), e.type ≠ .stepStarted →
      (do emit e; x.afterFailure w step deadline number kept error; return .inr kept :
        Coroutine V (StepOutcome V ⊕ List Attempt)).wp (surroundings V deadline)
        (fun r t => Ends (fun e => Right t e)
          (fun r => (∀ o, r = .inl o → t.Between) ∧ ∀ kept, r = .inr kept → t.Live deadline) r) s := by
    intro hn e kept error he
    refine wp_emit (fun h => absurd h he) (wp_bind.mpr (wp_mono (x.wp_afterFailure w kept error hn) ?_))
    intro r t hr
    cases r with
    | error e => exact hr
    | ok u => exact ⟨by simp, fun _ _ => hr⟩
  cases ended <;> obtain ⟨⟩ := hraced
  case returned output =>
    refine wp_emit (by simp) (wp_monotonic ⟨fun o _ => .inr ⟨output, hs⟩, by simp⟩)
  case cancelled =>
    refine wp_emit (by simp) (wp_reason fun reason => hcancelled _ rfl)
  case raised error =>
    have hn : ¬ s.FoundCancelled := by rw [Moment.FoundCancelled, hs]; exact id
    unfold judge
    dsimp only
    split_ifs
    · exact wp_emit (by simp) (hcancelled _ rfl)
    · exact wp_emit (by simp) (hunfound hn _)
    · exact hfailed hn _ _ _ (by simp)
  case stopped cancelled now =>
    unfold judge
    dsimp only
    cases cancelled with
    | true => exact wp_emit (by simp) (wp_reason fun reason => hcancelled _ rfl)
    | false =>
      have hn : ¬ s.FoundCancelled := by rw [Moment.FoundCancelled, hs]; exact Bool.false_ne_true
      cases hstop : stopReason false now call.deadline with
      | cancelled =>
        rw [stopReason, if_neg Bool.false_ne_true] at hstop
        split_ifs at hstop
      | timedOut => exact wp_emit (by simp) (hunfound hn _)
      | stepTimeout =>
        dsimp only
        cases step.timeout with
        | none => exact wp_bind.mpr (.other _)
        | some timeout => exact wp_bind.mpr (hfailed hn _ _ _ (by simp))

/-- Attempts are started while the run is live. -/
theorem wp_attemptFrom (w : Workflow V) (value : V) (started : ℚ) (left : ℕ) (attempts : List Attempt)
    (hs : s.Live deadline) :
    (x.attemptFrom w step value deadline started left number attempts).wp (surroundings V deadline)
      (fun r t => Ends (fun e => Right t e) (fun _ => t.Between) r) s := by
  induction left generalizing number attempts s with
  | zero => exact .other _
  | succ left ih =>
    refine wp_emit (fun _ => hs) (wp_monotonic (wp_bind.mpr ?_))
    have hbudget : ∀ {Post : Except (Thrown V) (Option ℚ) → Moment V → Prop}, (∀ b, Post (.ok b) s) →
        (attemptBudget step deadline).wp (surroundings V deadline) Post s := by
      intro Post h
      cases deadline with
      | none => exact h _
      | some d => exact wp_bind.mpr (wp_remaining d fun q => h _)
    refine hbudget fun budget => ?_
    rw [ends_ok]
    refine wp_bind.mpr (wp_attempt_call fun ended t ht => wp_lift ?_)
    cases hraced : x.raceResult ⟨step.id, number, value, deadline, budget⟩ ended with
    | error e => exact .other _
    | ok result =>
      refine wp_monotonic (wp_bind.mpr (wp_mono (x.wp_judge w started _ attempts _ ht hraced) ?_))
      intro r t' hr
      cases r with
      | error e => exact hr
      | ok r =>
        cases r with
        | inl o => exact hr.1 o rfl
        | inr kept => exact ih kept (hr.2 kept rfl)

theorem wp_executeStep (w : Workflow V) (value : V) (hs : s.Live deadline) :
    (x.executeStep w step value deadline).wp (surroundings V deadline)
      (fun r t => Ends (fun e => Right t e) (fun _ => t.Between) r) s :=
  wp_monotonic (x.wp_attemptFrom w value s.now _ [] hs)

/-! ## The loop -/

theorem wp_runTurn (w : Workflow V) (value : V) (st : RunState V) (hs : s.Live deadline) :
    (x.runTurn w value deadline step st).wp (surroundings V deadline)
      (fun r t => Ends (fun e => Right t e) (fun _ => t.Between) r) s := by
  refine wp_bind.mpr (wp_mono (x.wp_executeStep w value hs) ?_)
  intro r t hr
  cases r with
  | error e => exact hr
  | ok o =>
    rw [ends_ok]
    dsimp only
    cases w.outgoing step.id with
    | nil => exact hr
    | cons edge edges =>
      refine wp_bind.mpr (wp_lift ?_)
      cases selectEdge o.output (edge :: edges) with
      | error e => exact .other _
      | ok selected => cases selected <;> exact hr

theorem wp_decideTurn (w : Workflow V) (input : V) (st : RunState V) (hs : s.Between) :
    (x.decideTurn w input deadline step st).wp (surroundings V deadline)
      (fun r t => Ends (fun e => Right t e) (fun _ => t.Between) r) s := by
  have hlive : ∀ {α : Type} {f : Unit → Coroutine V α},
      (s.Live deadline → (f ()).wp (surroundings V deadline)
        (fun r t => Ends (fun e => Right t e) (fun _ => t.Between) r) s) →
      (requireLive deadline w step.id >>= f).wp (surroundings V deadline)
        (fun r t => Ends (fun e => Right t e) (fun _ => t.Between) r) s := by
    intro α f hf
    refine wp_bind.mpr (wp_mono (wp_requireLive (s := s) w step.id) ?_)
    rintro r t ⟨rfl, ⟨rfl, hl⟩ | ⟨a, rfl, ha⟩⟩
    · exact hf hl
    · refine .abort fun hfound => .inl (ha ?_)
      rcases hs with h | ⟨output, h⟩
      · rwa [Moment.FoundCancelled, h] at hfound
      · rwa [Moment.FoundCancelled, h] at hfound
  unfold decideTurn
  dsimp only
  cases w.incoming step.id with
  | nil => exact hlive fun hl => x.wp_runTurn w input st hl
  | cons e es =>
    cases (e :: es).filter fun edge => (edge.source, edge.target) ∈ st.taken with
    | nil => exact wp_emit (by simp) hs
    | cons edge rest =>
      cases rest with
      | nil =>
        refine hlive fun hl => wp_bind.mpr (wp_lift ?_)
        cases st.produced.getItem edge.source with
        | error e => exact .other _
        | ok value => exact x.wp_runTurn w value st hl
      | cons edge' rest => exact .abort fun _ => .inr ⟨rfl, _, _, rfl⟩

theorem wp_loop (w : Workflow V) (input : V) (rounds : ℕ) (st : RunState V) (hs : s.Between) :
    (x.loop w input deadline rounds st).wp (surroundings V deadline)
      (fun r t => Ends (fun e => ∃ e', e = .other e')
        (fun r => ∀ a, r.2 = some a → t.FoundCancelled → a.kind = .cancelled ∨ a.Merges) r) s := by
  induction rounds generalizing st s with
  | zero =>
    intro a h
    cases h
  | succ rounds ih =>
    unfold loop
    cases st.ready with
    | nil =>
      intro a h
      cases h
    | cons step ready =>
      refine wp_bind.mpr (wp_attempt.mpr (wp_bind.mpr (wp_mono (x.wp_decideTurn w input _ hs) ?_)))
      intro r t hr
      cases r with
      | error e =>
        cases hr with
        | abort found =>
          intro a' ha'
          obtain rfl := Option.some.inj ha'
          exact found
        | other e => exact ⟨e, rfl⟩
      | ok st' =>
        refine wp_lift ?_
        cases relaxEdges w (w.outgoing step.id) st' with
        | error e => exact ⟨e, rfl⟩
        | ok st'' => exact ih st'' hr

end WorkflowExecutor

end Parts

/-! ## Runs -/

/-- The error of a run that finds its token cancelled. -/
def EndsCancelled (e : ExecutionError V) : Prop := ∃ message, e.error = workflowCancelledError message

/-- The error of a run in which more than one branch reached a step. -/
def EndsMerged (e : ExecutionError V) : Prop :=
  ∃ stepId sources, e.error = workflowExecutionError (conflictMessage stepId sources)

theorem wp_run (x : WorkflowExecutor V) (w : Workflow V) (input : V) (timeout : Option ℚ) {s : Moment V}
    (hs : s.awaited = .nothing) :
    (x.run w input timeout).wp (surroundings V (timeout.map fun timeout => s.now + timeout))
      (fun r t => ∀ e, r = .error (.execution e) → e.step.isSome → t.FoundCancelled →
        EndsCancelled e ∨ EndsMerged e) s := by
  refine wp_bind.mpr (wp_lift ?_)
  cases w.validate with
  | error e =>
    intro e' he'
    cases he'
  | ok u =>
    refine wp_bind.mpr (wp_lift ?_)
    cases x.requirePositive timeout "timeout" with
    | error e =>
      intro e' he'
      cases he'
    | ok u =>
      refine wp_bind.mpr (wp_ofExcept.mpr ?_)
      cases hinput : x.requireInput w input with
      | error thrown =>
        rintro e' he' hstep -
        obtain rfl := Except.error.inj he'
        -- a call that is refused names no step
        unfold WorkflowExecutor.requireInput at hinput
        split at hinput
        · cases hinput
        · split_ifs at hinput
          obtain rfl := Thrown.execution.inj (Except.error.inj hinput)
          cases hstep
      | ok u =>
        refine wp_monotonic (wp_bind.mpr (wp_lift ?_))
        cases RunState.initial w with
        | error e =>
          intro e' he'
          cases he'
        | ok st =>
          refine wp_emit (by simp) (wp_bind.mpr (wp_mono (x.wp_loop w input _ st (.inl hs)) ?_))
          intro r t hr
          cases r with
          | error e =>
            obtain ⟨e', rfl⟩ := hr
            rintro e'' he''
            cases he''
          | ok r =>
            obtain ⟨st', left⟩ := r
            cases left with
            | none => exact wp_monotonic (wp_emit (by simp) fun e he => by cases he)
            | some a =>
              refine wp_emit ?_ ?_
              · cases a.kind <;> simp [AbortKind.event]
              · intro e he _ hfound
                obtain rfl := Thrown.execution.inj (Except.error.inj he)
                rcases hr a rfl hfound with hkind | ⟨hkind, stepId, sources, hmessage⟩
                · exact .inl ⟨a.message, by simp only [hkind]; rfl⟩
                · exact .inr ⟨stepId, sources, by simp only [hkind, hmessage]; rfl⟩

/-- **Nothing starts after a stop.**  Steps are started while the token is not cancelled and the deadline is ahead; where
the executor stops a run at a step and finds the token cancelled, the run ends as cancelled, or because more than one
branch reached the step. -/
theorem no_start_after_stop (x : WorkflowExecutor V) (w : Workflow V) (input : V) (timeout : Option ℚ) {s t : Moment V}
    (hs : s.awaited = .nothing) {l : List (Request V × Moment V)} {r : Except (Thrown V) (WorkflowResult V)}
    (hrun : Runs (surroundings V (timeout.map fun timeout => s.now + timeout)) (x.run w input timeout) s l r t) :
    (∀ e m, (Request.emit e, m) ∈ l → e.type = .stepStarted → m.Live (timeout.map fun timeout => s.now + timeout)) ∧
      ∀ e, r = .error (.execution e) → e.step.isSome → t.FoundCancelled → EndsCancelled e ∨ EndsMerged e := by
  have hwp := wp_run x w input timeout hs
  exact ⟨fun e m hm => hrun.allowed hwp _ hm e rfl, hrun.post hwp⟩

/-! ## Two runs -/

/-- Every attempt returns after a second; the run is cancelled while one of these steps is running. -/
def cancelsDuring (steps : List String) :
    (q : Request ℕ) → Moment ℕ → Option (Except (Thrown ℕ) q.Reply × Moment ℕ)
  | .monotonic, s => some (.ok s.now, s)
  | .random, s => some (.ok (0 : ℚ), s)
  | .emit _, s => some (.ok s.now, s)
  | .cancelled, s => some (.ok s.cancelled, s)
  | .reason, s => some (.ok none, s)
  | .sleep _, s => some (.ok (), { s with awaited := .backoff })
  | .attempt call, s =>
    some (.ok (.returned 0), ⟨s.now + 1, s.cancelled || steps.contains call.step, .attempt (.returned 0)⟩)

theorem replies_cancelsDuring (steps : List String) (q : Request ℕ) (s : Moment ℕ) (x : Except (Thrown ℕ) q.Reply)
    (t : Moment ℕ) (h : cancelsDuring steps q s = some (x, t)) : Replies q s x t := by
  cases q with
  | attempt call =>
    obtain ⟨rfl, rfl⟩ := Prod.mk.inj (Option.some.inj h)
    refine ⟨_, rfl, ⟨by simp, fun hc => by simp [hc]⟩, rfl, ?_⟩
    intro cancelled now he
    cases he
  | sleep delay =>
    obtain ⟨rfl, rfl⟩ := Prod.mk.inj (Option.some.inj h)
    exact ⟨rfl, ⟨le_rfl, id⟩, rfl⟩
  | random | reason =>
    obtain ⟨rfl, rfl⟩ := Prod.mk.inj (Option.some.inj h)
    exact ⟨⟨_, rfl⟩, rfl⟩
  | monotonic | emit | cancelled =>
    obtain ⟨rfl, rfl⟩ := Prod.mk.inj (Option.some.inj h)
    exact ⟨rfl, rfl⟩

/-- The class of the error of a run that stopped at a step. -/
def stoppedAs : Except (Thrown ℕ) (WorkflowResult ℕ) → Option String
  | .error (.execution e) => if e.step.isSome then some e.error.cls.name else none
  | _ => none

theorem exists_of_stoppedAs {r : Except (Thrown ℕ) (WorkflowResult ℕ)} {name : String} (h : stoppedAs r = some name) :
    ∃ e, r = .error (.execution e) ∧ e.step.isSome ∧ e.error.cls.name = name := by
  unfold stoppedAs at h
  split at h
  · next e =>
    split_ifs at h with hstep
    exact ⟨e, rfl, hstep, Option.some.inj h⟩
  · cases h

/-- One step after another. -/
def sequence : Workflow ℕ where
  name := "sequence"
  steps := [{ id := "a" }, { id := "b" }]
  edges := [{ source := "a", target := "b" }]

/-- Two steps that lead to the same one. -/
def merging : Workflow ℕ where
  name := "merging"
  steps := [{ id := "a" }, { id := "b" }, { id := "c" }]
  edges := [{ source := "a", target := "c" }, { source := "b", target := "c" }]

/-- The run of a definition that is cancelled while a step is running. -/
theorem runs_cancelsDuring (w : Workflow ℕ) (step name : String)
    (h : ((numbers.run w 0 none).run (cancelsDuring [step]) ⟨0, false, .nothing⟩).map
      (fun x => (stoppedAs x.1, decide x.2.FoundCancelled)) = some (some name, true)) :
    ∃ l e t, Runs (surroundings ℕ none) (numbers.run w 0 none) ⟨0, false, .nothing⟩ l (.error (.execution e)) t ∧
      e.step.isSome ∧ t.FoundCancelled ∧ e.error.cls.name = name := by
  obtain ⟨⟨r, t⟩, hrun, hr⟩ := Option.map_eq_some_iff.mp h
  obtain ⟨hstopped, hfound⟩ := Prod.mk.inj hr
  obtain ⟨e, rfl, hstep, hname⟩ := exists_of_stoppedAs hstopped
  obtain ⟨l, hl⟩ := runs_run (W := surroundings ℕ none) (fun q s x s' => replies_cancelsDuring [step] q s x s') hrun
  exact ⟨l, e, t, hl, hstep, of_decide_eq_true hfound, hname⟩

/-- A run that is cancelled while its first step is running. -/
theorem no_start_sequence : ∃ l e t, Runs (surroundings ℕ none) (numbers.run sequence 0 none) ⟨0, false, .nothing⟩ l
    (.error (.execution e)) t ∧ e.error.cls.name = "WorkflowCancelledError" ∧ (EndsCancelled e ∨ EndsMerged e) ∧
      ∀ e m, (Request.emit e, m) ∈ l → e.type = .stepStarted → m.Live none := by
  obtain ⟨l, e, t, hrun, hstep, hfound, hname⟩ :=
    runs_cancelsDuring sequence "a" "WorkflowCancelledError" (by decide +kernel)
  obtain ⟨hlive, hend⟩ := no_start_after_stop numbers sequence 0 none rfl hrun
  exact ⟨l, e, t, hrun, hname, hend e rfl hstep hfound, hlive⟩

/-- A run that is cancelled while its second step is running, and then finds that two branches reached the third: it
does not end as cancelled. -/
theorem stops_uncancelled : merging.validate = .ok () ∧ ∃ l e t,
    Runs (surroundings ℕ none) (numbers.run merging 0 none) ⟨0, false, .nothing⟩ l (.error (.execution e)) t ∧
      e.step.isSome ∧ t.FoundCancelled ∧ ¬ EndsCancelled e := by
  obtain ⟨l, e, t, hrun, hstep, hfound, hname⟩ :=
    runs_cancelsDuring merging "b" "WorkflowExecutionError" (by decide +kernel)
  refine ⟨by decide +kernel, l, e, t, hrun, hstep, hfound, ?_⟩
  rintro ⟨message, hmessage⟩
  rw [hmessage] at hname
  exact absurd hname (by simp [workflowCancelledError, xyberosError])

end Xyberos.Execution
