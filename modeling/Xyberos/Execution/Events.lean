import Xyberos.Execution.Meaning

/-!
# Xyberos.Execution.Events — the events of a run

`WellFormed` says what an observer may rely on in the events the sink receives.  The events between the first and the
last are those of the turns of the steps, one after the other (`Segment`); a run that ends without an event of its own
ends so because an exception came from outside the attempts (`Tame`).
-/

set_option autoImplicit false

namespace Xyberos.Execution

open Proc

variable {V : Type}

/-! ## Well-formed traces -/

/-- The events that end a run. -/
def EventType.ends : EventType → Bool
  | .workflowSucceeded | .workflowFailed | .workflowTimedOut | .workflowCancelled => true
  | _ => false

/-- An event of the run, not of a step. -/
def EventType.ofWorkflow (type : EventType) : Bool := type == .workflowStarted || type.ends

/-- The events up to the next `STEP_STARTED` or event of the run. -/
def upToNext (es : List Emission) : List Emission :=
  es.takeWhile fun e => !(e.type == .stepStarted || e.type.ofWorkflow)

/-- The event that ends a run says how the run ends. -/
def Matches (type : EventType) (r : Except (Thrown V) (WorkflowResult V)) : Prop :=
  match type, r with
  | .workflowSucceeded, .ok _ => True
  | .workflowTimedOut, .error (.execution e) => e.error.cls.name = "WorkflowTimeoutError"
  | .workflowCancelled, .error (.execution e) => e.error.cls.name = "WorkflowCancelledError"
  | .workflowFailed, .error (.execution e) =>
    e.error.cls.name ∈ ["WorkflowExecutionError", "RetryExhaustedError", "StepTimeoutError"]
  | _, _ => False

theorem Matches.ends {type : EventType} {r : Except (Thrown V) (WorkflowResult V)} (h : Matches type r) :
    type.ends = true := by
  cases type with
  | workflowSucceeded => rfl
  | workflowTimedOut => rfl
  | workflowCancelled => rfl
  | workflowFailed => rfl
  | _ => cases h

/-- What an event of a step requires of the events around it. -/
structure At (previous : Option Emission) (e : Emission) (after : List Emission) : Prop where
  /-- an attempt that was started is ended once, before anything else begins -/
  closed : e.type = .stepStarted →
    ∃ c, (upToNext after).filter (fun f => f.type.closes) = [c] ∧ c.step = e.step ∧ c.attempt = e.attempt
  /-- a retry stands between two attempts, or before the abort of the run -/
  retried : e.type = .stepRetried →
    (∃ c ∈ previous, c.type.closes = true ∧ c.step = e.step ∧ c.attempt = e.attempt) ∧
      ∃ f ∈ after.head?, (f.type = .stepStarted ∧ f.step = e.step ∧ f.attempt = e.attempt.map (· + 1)) ∨
        f.type = .workflowTimedOut ∨ f.type = .workflowCancelled

/-- A trace of a run that ends in `r`. -/
structure Formed (es : List Emission) (r : Except (Thrown V) (WorkflowResult V)) : Prop where
  first : ∃ e ∈ es.head?, e.type = .workflowStarted
  steps : ∀ before e after, es = before ++ e :: after → At before.getLast? e after
  skipped : ∀ e ∈ es, ∀ f ∈ es, e.type = .stepSkipped → f.type = .stepStarted → e.step ≠ f.step
  last : ∃ before e, es = before ++ [e] ∧ (∀ f ∈ before, f.type.ends = false) ∧ Matches e.type r

/-- A well-formed trace, numbered without gaps. -/
structure WellFormed (events : List WorkflowEvent) (r : Except (Thrown V) (WorkflowResult V)) : Prop where
  numbered : events.map WorkflowEvent.sequence = List.range' 1 events.length
  formed : Formed (events.map WorkflowEvent.emission) r

/-! ## What the sink receives -/

def timed? : Exchange (Request.Reply (V := V)) → Option (ℚ × Emission)
  | ⟨.emit e, t⟩ => some (t, e)
  | _ => none

/-- The log of a run with a sink, after what was exchanged. -/
def eventLog (w : Workflow V) (h : History V) : EventLog :=
  (h.filterMap timed?).foldl (fun log e => log.emit e.1 e.2) { workflow := w.name, version := w.version, sink := some [] }

/-- The events the sink has received. -/
def delivered (w : Workflow V) (h : History V) : List WorkflowEvent := (eventLog w h).sink.getD []

theorem emissions_eq_timed (h : History V) : emissions h = (h.filterMap timed?).map Prod.snd := by
  rw [List.map_filterMap, emissions]
  refine List.filterMap_congr fun x _ => ?_
  obtain ⟨q, r⟩ := x
  cases q <;> rfl

/-- The sink receives every event once, numbered in the order of emission. -/
theorem delivered_spec (w : Workflow V) (h : History V) :
    (delivered w h).map WorkflowEvent.emission = emissions h ∧
      (delivered w h).map WorkflowEvent.sequence = List.range' 1 (delivered w h).length := by
  have hlog : ∃ received, (eventLog w h).sink = some received ∧ (eventLog w h).sequence = received.length ∧
      received.map WorkflowEvent.emission = (h.filterMap timed?).map Prod.snd ∧
      received.map WorkflowEvent.sequence = List.range' 1 received.length := by
    unfold eventLog
    induction h.filterMap timed? using List.reverseRecOn with
    | nil => exact ⟨[], rfl, rfl, rfl, rfl⟩
    | append_singleton l e ih =>
      obtain ⟨received, hsink, hsequence, hemissions, hnumbers⟩ := ih
      rw [List.foldl_append, List.foldl_cons, List.foldl_nil, EventLog.emit, hsink]
      refine ⟨_, rfl, ?_, ?_, ?_⟩
      · rw [hsequence, List.length_append, List.length_singleton]
      · rw [List.map_append, hemissions, List.map_append]
        rfl
      · rw [List.map_append, hnumbers, List.length_append, List.length_singleton, List.range'_concat, hsequence]
        simp [Nat.add_comm]
  obtain ⟨received, hsink, -, hemissions, hnumbers⟩ := hlog
  rw [delivered, hsink, Option.getD_some, emissions_eq_timed]
  exact ⟨hemissions, hnumbers⟩

/-! ## Traces in pieces -/

/-- Every event has around it what it requires, when `previous` came before. -/
def Local : Option Emission → List Emission → Prop
  | _, [] => True
  | previous, e :: after => At previous e after ∧ Local (some e) after

/-- The events do not begin inside an attempt. -/
def Fresh (es : List Emission) : Prop := (upToNext es).filter (fun e => e.type.closes) = []

section Pieces

variable {previous : Option Emission} {e : Emission} {es es' : List Emission}

theorem At.weaken (h : At none e es) : At previous e es where
  closed := h.closed
  retried he := by
    obtain ⟨⟨c, hc, -⟩, -⟩ := h.retried he
    cases hc

theorem Local.weaken (h : Local none es) : Local previous es := by
  cases es with
  | nil => trivial
  | cons e es => exact ⟨h.1.weaken, h.2⟩

/-- Events that do not begin inside an attempt end none. -/
theorem closes_append (h : Fresh es') :
    (upToNext (es ++ es')).filter (fun e => e.type.closes) = (upToNext es).filter fun e => e.type.closes := by
  induction es with
  | nil => exact h
  | cons e es ih =>
    unfold upToNext at ih ⊢
    rw [List.cons_append, List.takeWhile_cons, List.takeWhile_cons]
    split_ifs
    · rw [List.filter_cons, List.filter_cons, ih]
    · rfl

theorem Fresh.append (h : Fresh es) (h' : Fresh es') : Fresh (es ++ es') := (closes_append h').trans h

theorem At.append (h : At previous e es) (h' : Fresh es') : At previous e (es ++ es') where
  closed he := by
    rw [closes_append h']
    exact h.closed he
  retried he := by
    obtain ⟨hprevious, f, hf, hnext⟩ := h.retried he
    refine ⟨hprevious, f, ?_, hnext⟩
    rw [List.head?_append_of_ne_nil]
    · exact hf
    · rintro rfl
      cases hf

theorem Local.append (h : Local previous es) (hl : Local none es') (hf : Fresh es') : Local previous (es ++ es') := by
  induction es generalizing previous with
  | nil => exact hl.weaken
  | cons e es ih => exact ⟨h.1.append hf, ih h.2⟩

/-- Every event of the pieces has around it what it requires. -/
theorem Local.at (h : Local previous es) {before after : List Emission} (heq : es = before ++ e :: after) :
    At (before.getLast?.or previous) e after := by
  induction before generalizing previous es with
  | nil =>
    subst heq
    exact h.1
  | cons b before ih =>
    subst heq
    have hat := ih h.2 rfl
    rw [List.getLast?_cons]
    cases hlast : before.getLast? with
    | none =>
      rw [hlast] at hat
      exact hat
    | some c =>
      rw [hlast] at hat
      exact hat

/-- An event that neither starts an attempt nor announces one stands anywhere. -/
theorem local_singleton (hstarted : e.type ≠ .stepStarted) (hretried : e.type ≠ .stepRetried) : Local none [e] :=
  ⟨⟨fun h => absurd h hstarted, fun h => absurd h hretried⟩, trivial⟩

theorem fresh_cons (h : e.type = .stepStarted ∨ e.type.ofWorkflow = true) : Fresh (e :: es) := by
  unfold Fresh upToNext
  rw [List.takeWhile_cons_of_neg]
  · rfl
  · rcases h with h | h <;> simp [h]

/-- An attempt with the events that end it, and what comes after it. -/
theorem local_attempt {f c : Emission} {rest : List Emission} (hstarted : f.type = .stepStarted)
    (hc : c.type.closes = true) (hstep : c.step = f.step) (hattempt : c.attempt = f.attempt) (hrest : Fresh rest)
    (hl : Local (some c) rest) : Local none (f :: c :: rest) := by
  have hcontinues : (!(c.type == .stepStarted || c.type.ofWorkflow)) = true := by
    cases htype : c.type <;> simp_all [EventType.closes, EventType.ofWorkflow, EventType.ends]
  have hnot : c.type ≠ .stepStarted ∧ c.type ≠ .stepRetried := by
    cases htype : c.type <;> simp_all [EventType.closes]
  refine ⟨⟨fun _ => ⟨c, ?_, hstep, hattempt⟩, ?_⟩, ⟨fun h => absurd h hnot.1, fun h => absurd h hnot.2⟩, hl⟩
  · unfold upToNext
    rw [List.takeWhile_cons, if_pos hcontinues, List.filter_cons, if_pos hc]
    exact congrArg _ hrest
  · intro h
    rw [hstarted] at h
    cases h

/-- A retry between the end of an attempt and what it announces. -/
theorem local_retry {c r f : Emission} {rest : List Emission} (hretried : r.type = .stepRetried)
    (hc : c.type.closes = true) (hstep : c.step = r.step) (hattempt : c.attempt = r.attempt)
    (hnext : (f.type = .stepStarted ∧ f.step = r.step ∧ f.attempt = r.attempt.map (· + 1)) ∨
      f.type = .workflowTimedOut ∨ f.type = .workflowCancelled) (hl : Local none (f :: rest)) :
    Local (some c) (r :: f :: rest) ∧ Fresh (r :: f :: rest) := by
  have hfresh : Fresh (f :: rest) := by
    refine fresh_cons ?_
    rcases hnext with ⟨h, -⟩ | h | h
    · exact .inl h
    · exact .inr (by rw [h]; rfl)
    · exact .inr (by rw [h]; rfl)
  refine ⟨⟨⟨?_, fun _ => ⟨⟨c, rfl, hc, hstep, hattempt⟩, f, rfl, hnext⟩⟩, hl.weaken⟩, ?_⟩
  · intro h
    rw [hretried] at h
    cases h
  · unfold Fresh upToNext at hfresh ⊢
    rw [List.takeWhile_cons, if_pos (by simp [hretried, EventType.ofWorkflow, EventType.ends]),
      List.filter_cons_of_neg (by simp [hretried, EventType.closes])]
    exact hfresh

end Pieces

/-! ## The events of a turn -/

/-- The event that follows an abort. -/
def Thrown.closing : Thrown V → List Emission
  | .abort a => [a.abortedEvent]
  | _ => []

/-- The event that follows a part of a run. -/
def closing {α : Type} : Except (Thrown V) α → List Emission
  | .error e => e.closing
  | .ok _ => []

/-- The events of the turn of a step, and the event of its abort if it is aborted. -/
structure Segment (stepId : String) (es tail : List Emission) : Prop where
  events : Local none (es ++ tail)
  fresh : Fresh (es ++ tail)
  of : ∀ e ∈ es, e.step = some stepId ∧ e.type.ofWorkflow = false
  unmixed : (∀ e ∈ es, e.type ≠ .stepStarted) ∨ ∀ e ∈ es, e.type ≠ .stepSkipped

section Segments

variable {A : (q : Request V) → q.Reply → Prop} {x : WorkflowExecutor V} {step : Step V} {value : V}
  {deadline : Option ℚ} {number : ℕ} {cs : List (Trial V)} {es : List Emission}

theorem AbortKind.event_ends (kind : AbortKind) : kind.event.ends = true := by
  cases kind <;> rfl

theorem local_aborted (a : Abort) : Local none [a.abortedEvent] ∧ Fresh [a.abortedEvent] := by
  have hends : a.abortedEvent.type.ends = true := a.kind.event_ends
  refine ⟨local_singleton ?_ ?_, fresh_cons (.inr ?_)⟩
  · intro h
    rw [h] at hends
    cases hends
  · intro h
    rw [h] at hends
    cases hends
  · rw [EventType.ofWorkflow, hends, Bool.or_true]

theorem closes_of_failed {e : Emission} (h : e.type = .stepFailed ∨ e.type = .stepTimedOut) : e.type.closes = true := by
  rcases h with h | h <;> rw [h] <;> rfl

theorem Interrupts.event {kind : AbortKind} (h : Interrupts A deadline kind) :
    kind.event = .workflowTimedOut ∨ kind.event = .workflowCancelled := by
  rcases h with ⟨rfl, -⟩ | ⟨rfl, -⟩
  · exact .inr rfl
  · exact .inl rfl

theorem StepRun.events {r : Except (Thrown V) (StepOutcome V)} (h : StepRun A x step value deadline number cs es r)
    (hr : ∀ e, r ≠ .error (.other e)) : Local none (es ++ closing r) ∧
      ∃ f rest, es ++ closing r = f :: rest ∧ f.type = .stepStarted ∧ f.Of step.id number := by
  induction h with
  | uncalled => exact absurd rfl (hr _)
  | @done number call ended result f es o of allowed started type raced judged =>
    cases judged with
    | @succeeded e _ _ _ of' type' =>
      have hc : e.type.closes = true := by rw [type']; rfl
      exact ⟨local_attempt type hc (of'.step.trans started.step.symm) (of'.attempt.trans started.attempt.symm) rfl trivial,
        f, _, rfl, type, started⟩
  | @raised number call ended result f es error of allowed started type raced judged =>
    cases judged with
    | @aborted e a of' type' =>
      obtain ⟨hl, hf⟩ := local_aborted a
      exact ⟨local_attempt type type' (of'.step.trans started.step.symm) (of'.attempt.trans started.attempt.symm) hf
        hl.weaken, f, _, rfl, type, started⟩
    | @interrupted e e' _ a _ _ _ of' type' of'' type'' kind =>
      obtain ⟨hl, hf⟩ := local_retry (f := a.abortedEvent) type'' (closes_of_failed type')
        (of'.step.trans of''.step.symm) (of'.attempt.trans of''.attempt.symm) (.inr kind.event) (local_aborted a).1
      exact ⟨local_attempt type (closes_of_failed type') (of'.step.trans started.step.symm)
        (of'.attempt.trans started.attempt.symm) hf hl, f, _, rfl, type, started⟩
    | overflowed => exact absurd rfl (hr _)
    | unformatted => exact absurd rfl (hr _)
  | @again number call ended result f es es' _ _ r of allowed started type raced judged rest ih =>
    obtain ⟨hrest, f', rest', heq, htype, hof⟩ := ih hr
    cases judged with
    | @retried e e' _ _ _ _ _ of' type' of'' type'' =>
      have hnext : f'.attempt = e'.attempt.map (· + 1) := by
        rw [hof.attempt, of''.attempt]
        rfl
      rw [heq] at hrest
      obtain ⟨hl, hf⟩ := local_retry (f := f') type'' (closes_of_failed type') (of'.step.trans of''.step.symm)
        (of'.attempt.trans of''.attempt.symm) (.inl ⟨htype, hof.step.trans of''.step.symm, hnext⟩) hrest
      have hcat : f :: ([e, e'] ++ es') ++ closing r = f :: e :: e' :: f' :: rest' := by
        rw [← heq]
        rfl
      rw [hcat]
      exact ⟨local_attempt type (closes_of_failed type') (of'.step.trans started.step.symm)
        (of'.attempt.trans started.attempt.symm) hf hl, f, _, rfl, type, started⟩

/-- An event of an attempt at the step. -/
def OfAttempt (stepId : String) (e : Emission) : Prop :=
  e.step = some stepId ∧ e.type.ofWorkflow = false ∧ e.type ≠ .stepSkipped

theorem ofAttempt_of_closes {e : Emission} (h : e.Of step.id number) (hc : e.type.closes = true) :
    OfAttempt step.id e := by
  refine ⟨h.step, ?_, ?_⟩
  · cases htype : e.type <;> simp_all [EventType.closes, EventType.ofWorkflow, EventType.ends]
  · intro htype
    rw [htype] at hc
    cases hc

theorem Judged.of {result : AttemptResult V} {r : Except (Thrown V) (StepOutcome V ⊕ List Attempt)}
    (h : Judged A x step deadline number result es r) : ∀ e ∈ es, OfAttempt step.id e := by
  have hretried : ∀ {e : Emission}, e.Of step.id number → e.type = .stepRetried → OfAttempt step.id e := by
    intro e hof htype
    refine ⟨hof.step, ?_, ?_⟩
    · rw [htype]
      rfl
    · rw [htype]
      exact nofun
  intro e he
  cases h with
  | succeeded _ _ of type =>
    rw [List.mem_singleton.mp he]
    exact ofAttempt_of_closes of (by rw [type]; rfl)
  | aborted of type =>
    rw [List.mem_singleton.mp he]
    exact ofAttempt_of_closes of type
  | retried _ _ _ of type of' type' =>
    rcases List.mem_cons.mp he with rfl | he
    · exact ofAttempt_of_closes of (closes_of_failed type)
    · rw [List.mem_singleton.mp he]
      exact hretried of' type'
  | interrupted _ _ _ of type of' type' =>
    rcases List.mem_cons.mp he with rfl | he
    · exact ofAttempt_of_closes of (closes_of_failed type)
    · rw [List.mem_singleton.mp he]
      exact hretried of' type'
  | overflowed _ _ _ of type =>
    rw [List.mem_singleton.mp he]
    exact ofAttempt_of_closes of (closes_of_failed type)
  | unformatted => cases he

theorem StepRun.of {r : Except (Thrown V) (StepOutcome V)} (h : StepRun A x step value deadline number cs es r) :
    ∀ e ∈ es, OfAttempt step.id e := by
  have hstarted : ∀ {e : Emission} {number : ℕ}, e.Of step.id number → e.type = .stepStarted → OfAttempt step.id e := by
    intro e number hof htype
    refine ⟨hof.step, ?_, ?_⟩
    · rw [htype]
      rfl
    · rw [htype]
      exact nofun
  induction h with
  | uncalled _ _ started type => exact List.forall_mem_singleton.mpr (hstarted started type)
  | done _ _ started type _ judged => exact List.forall_mem_cons.mpr ⟨hstarted started type, judged.of⟩
  | raised _ _ started type _ judged => exact List.forall_mem_cons.mpr ⟨hstarted started type, judged.of⟩
  | again _ _ started type _ judged _ ih =>
    refine List.forall_mem_cons.mpr ⟨hstarted started type, fun e he => ?_⟩
    rcases List.mem_append.mp he with he | he
    · exact judged.of e he
    · exact ih e he

/-- The events of a turn, unless an exception that is no abort ends it. -/
theorem TurnRun.segment {w : Workflow V} {input : V} {st : RunState V} {r : Except (Thrown V) (RunState V)}
    (h : TurnRun A x w input deadline step st cs es r) (hr : ∀ e, r ≠ .error (.other e)) :
    Segment step.id es (closing r) := by
  have hstep : ∀ {value : V} {r : Except (Thrown V) (StepOutcome V)}, StepRun A x step value deadline 1 cs es r →
      (∀ e, r ≠ .error (.other e)) → Segment step.id es (closing r) := by
    intro value r hrun hr
    obtain ⟨hl, f, rest, heq, htype, -⟩ := hrun.events hr
    refine ⟨hl, ?_, fun e he => ⟨(hrun.of e he).1, (hrun.of e he).2.1⟩, .inr fun e he => (hrun.of e he).2.2⟩
    rw [heq]
    exact fresh_cons (.inl htype)
  have hnone : ∀ a : Abort, Segment step.id [] [a.abortedEvent] := by
    intro a
    obtain ⟨hl, hf⟩ := local_aborted a
    refine ⟨hl, hf, fun e he => ?_, .inl fun e he => ?_⟩
    · cases he
    · cases he
  cases h with
  | @conflict a => exact hnone a
  | @skipped e _ _ type of =>
    refine ⟨local_singleton ?_ ?_, ?_, ?_, .inl ?_⟩
    · rw [type]
      exact nofun
    · rw [type]
      exact nofun
    · simp [Fresh, upToNext, closing, type, EventType.closes, EventType.ofWorkflow, EventType.ends]
    · intro e' he
      rw [List.mem_singleton.mp he, type]
      exact ⟨of, rfl⟩
    · intro e' he
      rw [List.mem_singleton.mp he, type]
      exact nofun
  | @halted a => exact hnone a
  | raised _ run => exact hstep run fun e he => hr e (by rw [Except.error.inj he])
  | unselected => exact absurd rfl (hr _)
  | ran _ run => exact hstep run nofun

end Segments

/-! ## Exceptions that end a run without an event -/

/-- The delay after the attempt can be computed, and the timeout it was stopped for can be printed. -/
def Reportable (x : WorkflowExecutor V) (step : Step V) (number : ℕ) (result : AttemptResult V) : Prop :=
  (∀ error ∈ x.failure step result, Retries step number error → ¬ Overflows step number) ∧
    (result.stop = some .stepTimeout → step.timeout.isSome)

/-- The call of the step function does not raise, and what the race comes to can be reported. -/
def Reported (x : WorkflowExecutor V) (step : Step V) (c : Trial V) : Prop :=
  ∃ result, x.raceResult c.1 c.2 = .ok result ∧ Reportable x step c.1.number result

/-- An attempt after which nothing but the errors of the executor leaves the run. -/
structure Tame (x : WorkflowExecutor V) (w : Workflow V) (c : Trial V) : Prop where
  /-- no predicate that is asked about the output raises -/
  selects : ∀ output, c.2 = .returned output → ∃ selected, selectEdge output (w.outgoing c.1.step) = .ok selected
  reported : ∀ step ∈ w.steps, step.id = c.1.step → Reported x step c

section Tame

variable {A : (q : Request V) → q.Reply → Prop} {x : WorkflowExecutor V} {w : Workflow V} {step : Step V} {value : V}
  {deadline : Option ℚ} {number : ℕ} {cs : List (Trial V)} {es : List Emission}

theorem Judged.other_iff {result : AttemptResult V} {r : Except (Thrown V) (StepOutcome V ⊕ List Attempt)}
    (h : Judged A x step deadline number result es r) :
    (∃ e, r = .error (.other e)) ↔ ¬ Reportable x step number result := by
  cases h with
  | succeeded stop error =>
    refine iff_of_false (by simp) (not_not.mpr ⟨?_, by simp [stop]⟩)
    simp [WorkflowExecutor.failure, stop, error]
  | aborted _ _ _ _ timed final =>
    refine iff_of_false (by simp) (not_not.mpr ⟨fun error he hr => ?_, timed⟩)
    exact absurd hr (final error he)
  | retried fails _ fits =>
    exact iff_of_false (by simp)
      (not_not.mpr ⟨fun _ _ _ => fits, WorkflowExecutor.timeout_of_failure fails⟩)
  | interrupted fails _ fits =>
    exact iff_of_false (by simp)
      (not_not.mpr ⟨fun _ _ _ => fits, WorkflowExecutor.timeout_of_failure fails⟩)
  | overflowed fails retries overflows => exact iff_of_true ⟨_, rfl⟩ fun h => h.1 _ fails retries overflows
  | unformatted stop timeout =>
    refine iff_of_true ⟨_, rfl⟩ fun h => ?_
    have := h.2 stop
    rw [timeout] at this
    cases this

/-- The attempts at a step raise an exception of another kind if and only if one of them cannot be reported. -/
theorem StepRun.other_iff {r : Except (Thrown V) (StepOutcome V)}
    (h : StepRun A x step value deadline number cs es r) :
    (∃ e, r = .error (.other e)) ↔ ∃ c ∈ cs, ¬ Reported x step c := by
  induction h with
  | uncalled =>
    refine iff_of_true ⟨_, rfl⟩ ⟨_, List.mem_singleton_self _, ?_⟩
    rintro ⟨result, hresult, -⟩
    cases hresult
  | done of _ _ _ raced judged =>
    have := judged.other_iff
    simp only [reduceCtorEq, exists_false, false_iff, not_not] at this
    simpa [Reported, of.number, raced] using this
  | raised of _ _ _ raced judged =>
    have := judged.other_iff
    simp only [Except.error.injEq] at this
    simpa [Reported, of.number, raced] using this
  | again of _ _ _ raced judged _ ih =>
    have := judged.other_iff
    simp only [reduceCtorEq, exists_false, false_iff, not_not] at this
    rw [ih]
    simp [Reported, of.number, raced, this]

/-- An attempt that returned ends the attempts with the outcome of the step. -/
theorem StepRun.returned {r : Except (Thrown V) (StepOutcome V)}
    (h : StepRun A x step value deadline number cs es r) {call : AttemptCall V} {output : V}
    (hc : (call, .returned output) ∈ cs) : ∃ o, r = .ok o ∧ o.output = output := by
  have hfails : ∀ {c : AttemptCall V} {result : AttemptResult V}, x.raceResult c (.returned output) = .ok result →
      ¬ (result.stop.isSome ∨ result.error.isSome) := by
    rintro c result ⟨⟩ (h | h) <;> cases h
  induction h with
  | uncalled => cases (Prod.mk.inj (List.mem_singleton.mp hc)).2
  | @done number' c ended result f es o of _ _ _ raced judged =>
    obtain ⟨rfl, rfl⟩ := Prod.mk.inj (List.mem_singleton.mp hc)
    obtain rfl := Except.ok.inj raced
    cases judged with
    | succeeded _ _ _ _ _ _ out => exact ⟨o, rfl, out⟩
  | raised _ _ _ _ raced judged =>
    obtain ⟨rfl, rfl⟩ := Prod.mk.inj (List.mem_singleton.mp hc)
    have hfails := hfails raced
    cases judged with
    | aborted _ _ _ failed => exact absurd failed hfails
    | interrupted fails => exact absurd (failure_failed fails) hfails
    | overflowed fails => exact absurd (failure_failed fails) hfails
    | unformatted stop => exact absurd (.inl (by simp [stop])) hfails
  | again _ _ _ _ raced judged _ ih =>
    rcases List.mem_cons.mp hc with hc | hc
    · obtain ⟨rfl, rfl⟩ := Prod.mk.inj hc
      cases judged with
      | retried fails => exact absurd (failure_failed fails) (hfails raced)
    · exact ih hc

theorem TurnRun.other_iff (hn : w.stepIds.Nodup) (hstep : step ∈ w.steps) {input : V} {st : RunState V}
    {r : Except (Thrown V) (RunState V)} (h : TurnRun A x w input deadline step st cs es r) :
    (∃ e, r = .error (.other e)) ↔ ∃ c ∈ cs, ¬ Tame x w c := by
  have hunique : ∀ step' ∈ w.steps, step'.id = step.id → step' = step :=
    fun step' h' he => List.inj_on_of_nodup_map hn h' hstep he
  -- an attempt that did not return is tame if it is reported
  have hruns : ∀ {value : V} {r : Except (Thrown V) (StepOutcome V)}, StepRun A x step value deadline 1 cs es r →
      ∀ c ∈ cs, Tame x w c ↔ (∀ output, c.2 = .returned output →
        ∃ selected, selectEdge output (w.outgoing step.id) = .ok selected) ∧
          Reported x step c := by
    intro value r hrun c hc
    have hid := (hrun.of_mem c hc).1
    constructor
    · intro ht
      have hselects := ht.selects
      rw [hid] at hselects
      exact ⟨hselects, ht.reported step hstep hid.symm⟩
    · rintro ⟨hselects, hreported⟩
      refine ⟨?_, fun step' h' he => ?_⟩
      · rw [hid]
        exact hselects
      · rw [hunique step' h' (he.trans hid)]
        exact hreported
  have hsucceeded : ∀ {value : V} {o : StepOutcome V}, StepRun A x step value deadline 1 cs es (.ok o) →
      ((∃ c ∈ cs, ¬ Tame x w c) ↔ ∀ selected, selectEdge o.output (w.outgoing step.id) ≠ .ok selected) := by
    intro value o hrun
    have hreported : ∀ c ∈ cs, Reported x step c := by
      have := hrun.other_iff
      simp only [reduceCtorEq, exists_false, false_iff, not_exists, not_and, not_not] at this
      exact this
    constructor
    · rintro ⟨c, hc, hnot⟩ selected hselected
      refine hnot ((hruns hrun c hc).mpr ⟨fun output he => ?_, hreported c hc⟩)
      obtain ⟨o', ho', rfl⟩ := hrun.returned (show (c.1, .returned output) ∈ cs by rwa [← he])
      obtain rfl := Except.ok.inj ho'
      exact ⟨selected, hselected⟩
    · intro hnone
      obtain ⟨-, -, hreturns⟩ := hrun.succeeded
      obtain ⟨c, hc, hret⟩ := List.mem_filterMap.mp (hreturns ▸ List.mem_singleton_self o.output)
      refine ⟨c, hc, fun ht => ?_⟩
      obtain ⟨call, ended⟩ := c
      cases ended with
      | returned output =>
        obtain ⟨selected, hselected⟩ := ((hruns hrun _ hc).mp ht).1 output rfl
        obtain ⟨o', ho', rfl⟩ := hrun.returned hc
        obtain rfl := Except.ok.inj ho'
        exact hnone selected hselected
      | _ => cases hret
  cases h with
  | conflict => simp
  | skipped => simp
  | halted => simp
  | @raised value _ _ error _ run =>
    have := run.other_iff
    simp only [Except.error.injEq] at this ⊢
    rw [this]
    refine exists_congr fun c => and_congr_right fun hc => not_congr ?_
    rw [hruns run c hc]
    refine (and_iff_right fun output he => ?_).symm
    obtain ⟨o', ho', -⟩ := run.returned (show (c.1, .returned output) ∈ cs by rwa [← he])
    cases ho'
  | unselected _ run selects =>
    refine iff_of_true ⟨_, rfl⟩ ((hsucceeded run).mpr fun selected h => ?_)
    rw [selects] at h
    cases h
  | ran _ run selects => exact iff_of_false (fun h => nomatch h) fun h => (hsucceeded run).mp h _ selects

theorem StepRun.error_cases {e : Thrown V} (h : StepRun A x step value deadline number cs es (.error e)) :
    (∃ a, e = .abort a) ∨ ∃ e', e = .other e' := by
  generalize hr : (Except.error e : Except (Thrown V) (StepOutcome V)) = r at h
  induction h with
  | done => cases hr
  | uncalled => exact .inr ⟨_, Except.error.inj hr⟩
  | raised _ _ _ _ _ judged =>
    obtain rfl := Except.error.inj hr
    cases judged with
    | aborted => exact .inl ⟨_, rfl⟩
    | interrupted => exact .inl ⟨_, rfl⟩
    | overflowed => exact .inr ⟨_, rfl⟩
    | unformatted => exact .inr ⟨_, rfl⟩
  | again _ _ _ _ _ _ _ ih => exact ih hr

theorem TurnRun.error_cases {input : V} {st : RunState V} {e : Thrown V}
    (h : TurnRun A x w input deadline step st cs es (.error e)) : (∃ a, e = .abort a) ∨ ∃ e', e = .other e' := by
  cases h with
  | conflict => exact .inl ⟨_, rfl⟩
  | halted => exact .inl ⟨_, rfl⟩
  | raised _ run => exact run.error_cases
  | unselected => exact .inr ⟨_, rfl⟩

end Tame

/-! ## The events of a run -/

/-- The events between the first and the last, when the steps in `done` had their turns. -/
structure Emitted (done : List String) (es tail : List Emission) : Prop where
  events : Local none (es ++ tail)
  fresh : Fresh (es ++ tail)
  of : ∀ e ∈ es, (∃ s ∈ done, e.step = some s) ∧ e.type.ofWorkflow = false
  skipped : ∀ e ∈ es, ∀ f ∈ es, e.type = .stepSkipped → f.type = .stepStarted → e.step ≠ f.step

section Emitted

variable {done : List String} {es tail : List Emission}

/-- The events of the turn of another step. -/
theorem Emitted.append {stepId : String} {es' : List Emission} (h : Emitted done es []) (hid : stepId ∉ done)
    (hs : Segment stepId es' tail) : Emitted (done ++ [stepId]) (es ++ es') tail := by
  have hevents := h.events
  have hfresh := h.fresh
  rw [List.append_nil] at hevents hfresh
  refine ⟨?_, ?_, ?_, ?_⟩
  · rw [List.append_assoc]
    exact hevents.append hs.events hs.fresh
  · rw [List.append_assoc]
    exact hfresh.append hs.fresh
  · intro e he
    rcases List.mem_append.mp he with he | he
    · obtain ⟨⟨s, hs, hstep⟩, hw⟩ := h.of e he
      exact ⟨⟨s, by simp [hs], hstep⟩, hw⟩
    · exact ⟨⟨stepId, by simp, (hs.of e he).1⟩, (hs.of e he).2⟩
  · intro e he f hf hskipped hstarted heq
    have hcross : ∀ {g g' : Emission}, g ∈ es → g' ∈ es' → g.step ≠ g'.step := by
      intro g g' hg hg' he
      obtain ⟨⟨s, hs', hstep⟩, -⟩ := h.of g hg
      rw [hstep, (hs.of g' hg').1] at he
      rw [Option.some.inj he] at hs'
      exact hid hs'
    rcases List.mem_append.mp he with he | he <;> rcases List.mem_append.mp hf with hf | hf
    · exact h.skipped e he f hf hskipped hstarted heq
    · exact hcross he hf heq
    · exact hcross hf he heq.symm
    · rcases hs.unmixed with hno | hno
      · exact hno f hf hstarted
      · exact hno e he hskipped

/-- The events of a run that ends with an event of its own. -/
theorem Emitted.formed {w : Workflow V} {final : Emission} {r : Except (Thrown V) (WorkflowResult V)}
    (h : Emitted done es [final]) (hends : final.type.ends = true) (hmatches : Matches final.type r) :
    Formed (startedEvent w :: (es ++ [final])) r := by
  have hinner : ∀ e ∈ es, e.type.ends = false := by
    intro e he
    have := (h.of e he).2
    rw [EventType.ofWorkflow, Bool.or_eq_false_iff] at this
    exact this.2
  have hlocal : Local none (startedEvent w :: (es ++ [final])) :=
    ⟨⟨(fun h => nomatch h), (fun h => nomatch h)⟩, h.events.weaken⟩
  refine ⟨⟨_, rfl, rfl⟩, ?_, ?_, startedEvent w :: es, final, rfl, ?_, hmatches⟩
  · intro before e after heq
    have := hlocal.at heq
    rwa [Option.or_none] at this
  · intro e he f hf hskipped hstarted
    have hof : ∀ {g : Emission}, g ∈ startedEvent w :: (es ++ [final]) → g.type.ofWorkflow = false → g ∈ es := by
      intro g hg hw
      rcases List.mem_cons.mp hg with rfl | hg
      · cases hw
      · rcases List.mem_append.mp hg with hg | hg
        · exact hg
        · rw [List.mem_singleton.mp hg, EventType.ofWorkflow, hends, Bool.or_true] at hw
          cases hw
    exact h.skipped e (hof he (by rw [hskipped]; rfl)) f (hof hf (by rw [hstarted]; rfl)) hskipped hstarted
  · intro f hf
    rcases List.mem_cons.mp hf with rfl | hf
    · rfl
    · exact hinner f hf

end Emitted

section Runs

variable {A : (q : Request V) → q.Reply → Prop} {x : WorkflowExecutor V} {w : Workflow V} {input : V}
  {timeout : Option ℚ} {h : History V} {r : Except (Thrown V) (WorkflowResult V)}

/-- A run in progress: the steps that had their turns, their events and their attempts. -/
structure Underway (x : WorkflowExecutor V) (w : Workflow V) (input : V) (rounds : ℕ) (h : History V)
    (st : RunState V) : Prop where
  progress : ∃ done es, Computed w input done h st ∧ done.length + rounds = w.steps.length ∧
    emissions h = startedEvent w :: es ∧ Emitted done es []
  tame : ∀ c ∈ trials h, Tame x w c

/-- A run that a turn has ended: by an abort, or by another exception. -/
def Broken (x : WorkflowExecutor V) (w : Workflow V) (h : History V) (e : Thrown V) : Prop :=
  (∃ a done es, e = .abort a ∧ emissions h = startedEvent w :: es ∧ Emitted done es [a.abortedEvent] ∧
      ∀ c ∈ trials h, Tame x w c) ∨
    (∃ e', e = .other e') ∧ ∃ c ∈ trials h, ¬ Tame x w c

theorem yields_loop_events (hg : w.Graph) {deadline : Option ℚ} {rounds : ℕ} {st : RunState V}
    (hu : Underway x w input rounds h st) :
    Yields A (x.loop w input deadline rounds st) fun l r => LoopEnds (Underway x w input) (Broken x w) (h ++ l) r := by
  refine x.yields_loop ?_ hu
  rintro rounds h st step ready hready ⟨⟨done, es, hc, hrounds, hes, hemitted⟩, htame⟩
  have hproduced : ∀ edge ∈ ({ st with ready } : RunState V).reached w step.id, (st.produced.get? edge.source).isSome :=
    hc.produced_of_reached step.id
  obtain ⟨hmem, hid, -⟩ := hc.queued.head hready
  refine (x.yields_turn hproduced).mono ?_
  rintro l r ⟨r', hturn, rfl⟩
  have hother := hturn.other_iff hg.nodup hmem
  have hmore : (∀ c ∈ trials l, Tame x w c) → ∀ c ∈ trials (h ++ l), Tame x w c := by
    intro hl c hc
    rcases List.mem_append.mp (trials_append ▸ hc) with hc | hc
    · exact htame c hc
    · exact hl c hc
  cases r' with
  | error e =>
    rcases hturn.error_cases with ⟨a, rfl⟩ | ⟨e', rfl⟩
    · have hsegment := hturn.segment nofun
      refine .inl ⟨a, done ++ [step.id], es ++ emissions l, rfl, ?_, hemitted.append hid hsegment, hmore ?_⟩
      · rw [emissions_append, hes]
        rfl
      · intro c hc
        by_contra hnot
        obtain ⟨e, he⟩ := hother.mpr ⟨c, hc, hnot⟩
        cases he
    · obtain ⟨c, hc, hnot⟩ := hother.mp ⟨e', rfl⟩
      exact .inr ⟨⟨e', rfl⟩, c, by simp [hc], hnot⟩
  | ok st' =>
    obtain ⟨next, hrelax, hc'⟩ := hc.of_turnRun hg hready hturn
    show Ends _ _ ((relaxEdges w (w.outgoing step.id) st').mapError Thrown.other)
    rw [hrelax]
    refine ⟨⟨_, es ++ emissions l, hc', ?_, ?_, hemitted.append hid (hturn.segment nofun)⟩, hmore ?_⟩
    · rw [List.length_append, List.length_singleton]
      omega
    · rw [emissions_append, hes]
      rfl
    · intro c hc
      by_contra hnot
      obtain ⟨e, he⟩ := hother.mpr ⟨c, hc, hnot⟩
      cases he

theorem matches_abort (a : Abort) (outcomes : Dict (StepOutcome V)) :
    Matches a.abortedEvent.type (.error (.execution (a.executionError w outcomes))) := by
  obtain ⟨kind, message, step, attempts, cause⟩ := a
  cases kind <;> simp [Matches, Abort.abortedEvent, AbortKind.event, Abort.executionError, AbortKind.error,
    workflowExecutionError, retryExhaustedError, stepTimeoutError, workflowTimeoutError, workflowCancelledError,
    xyberosError]

theorem wellFormed_delivered : WellFormed (delivered w h) r ↔ Formed (emissions h) r := by
  obtain ⟨hemissions, hnumbers⟩ := delivered_spec w h
  rw [← hemissions]
  exact ⟨fun hw => hw.formed, fun hf => ⟨hnumbers, hf⟩⟩

/-- No event says that a run ends with another exception. -/
theorem not_formed_other {es : List Emission} {e : Exc} :
    ¬ Formed es (.error (.other e) : Except (Thrown V) (WorkflowResult V)) := by
  rintro ⟨-, -, -, before, final, -, -, hmatches⟩
  unfold Matches at hmatches
  split at hmatches <;> simp_all

/-- The events of a run that succeeds. -/
theorem Underway.formed {rounds : ℕ} {l : History V} {st : RunState V} {final : Emission}
    (hu : Underway x w input rounds h st) (hl : emissions l = [final]) (htype : final.type = .workflowSucceeded)
    (result : WorkflowResult V) : Formed (emissions (h ++ l)) (.ok result) := by
  obtain ⟨⟨done, es, -, -, hes, hemitted⟩, -⟩ := hu
  have hevents := hemitted.events
  have hfresh := hemitted.fresh
  rw [List.append_nil] at hevents hfresh
  have hlocal : Local none [final] := local_singleton (by rw [htype]; exact nofun) (by rw [htype]; exact nofun)
  have hfinal : Fresh [final] := fresh_cons (.inr (by rw [htype]; rfl))
  have hclosed : Emitted done es [final] :=
    ⟨hevents.append hlocal hfinal, hfresh.append hfinal, hemitted.of, hemitted.skipped⟩
  rw [emissions_append, hes, hl]
  exact hclosed.formed (by rw [htype]; rfl) (by rw [htype]; trivial)

/-- The trace of a concrete run. -/
private theorem traced_numbers (w : Workflow ℕ) (input : ℕ) : Traced (fun _ _ => True) (numbers.run w input none)
    ((numbers.run w input none).replay addsOne).1 ((numbers.run w input none).replay addsOne).2 :=
  traced_replay (fun _ => trivial) _

/-- The attempt returned. -/
def RaceEnd.hasReturned : RaceEnd V → Bool
  | .returned _ => true
  | _ => false

/-- A definition whose only predicate raises. -/
def raising : Workflow ℕ where
  name := "raising"
  steps := [{ id := "a" }, { id := "b" }]
  edges := [{ source := "a", target := "b", when := some fun _ => .error (valueError "no such branch") }]

end Runs

end Xyberos.Execution
