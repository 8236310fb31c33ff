import Xyberos.Durable.Obligations

/-!
# Xyberos.Durable.Grounds — a worker keeps its obligations

The triples of `run_once` and `recover`, from the parts they are made of.  What is carried along is `Knows`: the
states, outputs and RUNNING steps that were read are those of the journal as long as the claim is the last one, so a
plan made from them is the plan of the journal.  An attempt carries `Started` on top: the value its step was started
with.
-/

set_option autoImplicit false

namespace Xyberos.Durable

open Proc (World Ends)

variable {V κ α : Type}

namespace Record

variable {store : JournalStore V} {now : Instant} {id s s' : String} {op : Op V} {r r' : Record}

/-- The end of an attempt leaves the other steps alone. -/
theorem Step.steps_of_attempt (h : Step store now id op r r') (hop : op.attempt? = some s) (hne : s' ≠ s) :
    r'.steps s' = r.steps s' := by
  cases h <;> cases hop
  case failStepDeadline => rfl
  all_goals exact if_neg hne

end Record

namespace Planned

variable {E : Planned V κ} {k : κ} {c : Claim V} {F F' : Bool → (String → Option StepRow) → Prop}
  {x y : Station V (Notes V)} {s : String} {v : V} {w : DurableWorker V} {workflow : Workflow V}

theorem Started.grows {x y : Scene V} (h : E.Started k c s v x)
    (hg : (x.record c.executionId).Grows (y.record c.executionId)) : E.Started k c s v y := by
  obtain ⟨z, now, key, w, step, value, sources, hinv, hz, hrest⟩ := h
  exact ⟨z, now, key, w, step, value, sources, hinv, hz.trans hg, hrest⟩

theorem Reconstructed.grows {x y : Scene V} (h : E.Reconstructed k c s v x)
    (hg : (x.record c.executionId).Grows (y.record c.executionId)) : E.Reconstructed k c s v y := by
  obtain ⟨z, w, plan, hinv, hz, hrest⟩ := h
  exact ⟨z, w, plan, hinv, hz.trans hg, hrest⟩

/-! ## Interrupted attempts -/

/-- The attempts of the steps in `L` are still to be decided; `b` says that one was resolved. -/
structure Recovers (E : Planned V κ) (k : κ) (c : Claim V) (plan : Plan V) (L : List String) (b : Prop)
    (x : Station V (Notes V)) : Prop where
  knows : E.Knows c (fun _ steps => ∀ s ∈ L, statesOf steps s = some .running) x
  inputs : x.Current c → ∀ s ∈ L, E.Reconstructed k c s (inputFor plan s c) x.scene
  resolved : b → x.notes.resolved = true

variable {plan : Plan V} {L : List String} {b d : Prop}

theorem stable_recovers : (E.discipline.world k).Stable (E.Recovers k c plan L b) := by
  intro x y hxy h
  have hg := hxy.2.2.2.grows c.executionId
  refine ⟨stable_knows x y hxy h.knows, fun hc s hs => ?_, fun hb => hxy.2.1 ▸ h.resolved hb⟩
  exact (h.inputs (h.knows.has.current_of_grows hg hc) s hs).grows hg

/-- The operation that decides an attempt. -/
theorem does_decide {op : Op V} (hdef : requireDefinition E.store (E.fleet k).definitions c = .ok workflow)
    (hw : op.writer? = some c) (hop : ¬ op.Decided) (hs : op.attempt? = some s) (hL : s ∉ L)
    (hd : d → b ∨ ∃ state output detail, op = .resolveStep c s state output detail) :
    E.Does k c (E.Recovers k c plan (s :: L) b) (call op) fun _ => E.Recovers k c plan L d := by
  have hne : ∀ owner ttl, op ≠ .claimNext owner ttl := by
    rintro owner ttl rfl
    cases hw
  have hown : ∀ c', op.writer? = some c' → c' = c := fun c' hc' => Option.some.inj (hc'.symm.trans hw)
  refine Discipline.triple_call stable_recovers (fun x hx => ⟨hx.knows.own hown, fun c' hc' => ?_⟩) fun x now hx _ hinv => ?_
  · obtain rfl := hown c' hc'
    refine ⟨hx.knows.claim, hx.knows.has, fun _ => ⟨workflow, hdef, fun hd => absurd hd hop, fun s' hs' hc => ?_⟩⟩
    cases hs'.symm.trans hs
    exact running_iff.mpr (hx.knows.current hc s List.mem_cons_self)
  · show Ends _ _ ((op.txn E.store now).commit x.scene.journal).1
    cases ha : ((op.txn E.store now).commit x.scene.journal).1 with
    | error e => exact knows_after hx.knows hne hinv fun _ _ => trivial
    | ok a =>
      have hg := Scene.call_grows E.store x.scene ⟨op, now⟩ c.executionId
      refine ⟨knows_after hx.knows hne hinv fun _ hrun s' hs' => ?_, fun hc s' hs' => ?_, fun hb => ?_⟩
      · have hsteps : ((x.scene.call E.store ⟨op, now⟩).record c.executionId).steps s' =
            (x.scene.record c.executionId).steps s' := by
          rcases Scene.call_cases E.store x.scene ⟨op, now⟩ c.executionId with he | hstep
          · rw [he]
          · exact hstep.steps_of_attempt hs (ne_of_mem_of_not_mem hs' hL)
        exact (congrArg (Option.map StepRow.state) hsteps).trans (hrun s' (List.mem_cons_of_mem _ hs'))
      · exact (hx.inputs (hx.knows.has.current_of_grows hg hc) s' (List.mem_cons_of_mem _ hs')).grows hg
      · show (x.notes.note (.store op) ((op.txn E.store now).commit x.scene.journal).1).resolved = true
        rcases hd hb with hb | ⟨state, output, detail, rfl⟩
        · have hres := hx.resolved hb
          cases op <;> first | exact hres | cases hw
          rw [ha]
          rfl
        · rw [ha]
          rfl

/-- An attempt is decided by resolving it, unless its outcome is unknown. -/
theorem does_resolveInterruptedAttempt {store : JournalStore V} {activities : String → ActivityPolicy}
    (hdef : requireDefinition E.store (E.fleet k).definitions c = .ok workflow) (hL : s ∉ L) :
    E.Does k c (E.Recovers k c plan (s :: L) b) (resolveInterruptedAttempt store c activities s (inputFor plan s c))
      fun state => E.Recovers k c plan L (b ∨ state ≠ .outcomeUnknown) := by
  have resolve : ∀ state output detail (answer : StepState),
      E.Does k c (E.Recovers k c plan (s :: L) b)
        (do let _ ← call (.resolveStep c s state output detail); return answer)
        fun state => E.Recovers k c plan L (b ∨ state ≠ .outcomeUnknown) := fun state output detail answer =>
    .bind (does_decide hdef rfl id rfl hL (d := True) fun _ => .inr ⟨_, _, _, rfl⟩) fun _ =>
      .pure fun x hx => ⟨hx.knows, hx.inputs, fun _ => hx.resolved trivial⟩
  have park : ∀ reason, E.Does k c (E.Recovers k c plan (s :: L) b)
      (do let _ ← call (.markStepOutcomeUnknown c s reason); return StepState.outcomeUnknown)
      fun state => E.Recovers k c plan L (b ∨ state ≠ .outcomeUnknown) := fun reason =>
    .bind (does_decide hdef rfl id rfl hL (d := b) .inl) fun _ =>
      .pure fun x hx => ⟨hx.knows, hx.inputs, fun hb => hx.resolved (hb.resolve_right fun h => h rfl)⟩
  unfold resolveInterruptedAttempt
  split
  · exact resolve _ _ _ _
  · refine .bind (M := fun _ => E.Recovers k c plan (s :: L) b) ?_ fun reconciled => ?_
    · -- the reconciler is asked with the input that was made up from the plan
      refine Discipline.triple_await (by simp) stable_recovers (fun x hx => ?_) fun x a hx => ?_
      · exact ⟨c, hx.knows.claim, hx.knows.has, fun hc => hx.inputs hc s List.mem_cons_self⟩
      · cases a with
        | error e => exact hx.knows.works
        | ok r => exact hx
    · split
      · exact .raise fun x hx => hx.knows.works
      · split_ifs
        · exact park _
        · exact resolve _ _ _ _
  · exact park _

/-- If no outcome is unknown, an attempt was resolved, if there was any. -/
theorem does_resolveInterrupted {store : JournalStore V} {activities : String → ActivityPolicy}
    (hdef : requireDefinition E.store (E.fleet k).definitions c = .ok workflow) (hL : L.Nodup) :
    E.Does k c (E.Recovers k c plan L b) (resolveInterrupted store c activities plan L)
      fun states => E.Recovers k c plan [] (b ∨ L ≠ [] ∧ .outcomeUnknown ∉ states) := by
  induction L generalizing b with
  | nil => exact .pure fun x hx => ⟨hx.knows, hx.inputs, fun hb => hx.resolved (hb.resolve_right fun h => h.1 rfl)⟩
  | cons s L ih =>
    rw [List.nodup_cons] at hL
    refine .bind (does_resolveInterruptedAttempt hdef hL.1) fun state => .bind (ih hL.2) fun states => .pure ?_
    refine fun x hx => ⟨hx.knows, hx.inputs, fun hb => hx.resolved (.inl ?_)⟩
    rcases hb with hb | ⟨-, hunknown⟩
    · exact .inl hb
    · exact .inr fun h => hunknown (h ▸ List.mem_cons_self)

/-! ## An attempt -/

/-- The step was started under the claim with the value, and is RUNNING while the claim is the last one. -/
structure Attempts (E : Planned V κ) (k : κ) (c : Claim V) (s : String) (v : V) (x : Station V (Notes V)) : Prop where
  knows : E.Knows c (fun _ steps => statesOf steps s = some .running) x
  started : E.Started k c s v x.scene

theorem stable_attempts : (E.discipline.world k).Stable (E.Attempts k c s v) := fun x y hxy h =>
  ⟨stable_knows x y hxy h.knows, h.started.grows (hxy.2.2.2.grows _)⟩

/-- A guarded operation that ends the attempt of a RUNNING step. -/
theorem does_endAttempt {op : Op V} (hdef : requireDefinition E.store (E.fleet k).definitions c = .ok workflow)
    (hw : op.writer? = some c) (hop : ¬ op.Decided) (hs : ∀ s', op.attempt? = some s' → s' = s) :
    E.Does k c (E.Knows c fun _ steps => statesOf steps s = some .running) (call op) fun _ => E.Works c := by
  have hne : ∀ owner ttl, op ≠ .claimNext owner ttl := by
    rintro owner ttl rfl
    cases hw
  refine does_call (fun c' hc' => Option.some.inj (hc'.symm.trans hw)) hne (fun x hx _ => ?_)
    fun _ _ _ _ _ _ _ => trivial
  refine ⟨workflow, hdef, fun hd => absurd hd hop, fun s' hs' hc => running_iff.mpr ?_⟩
  rw [hs s' hs']
  exact hx.current hc

section Attempt

variable {step : Step V} {attempt : ℕ} {budget : Option ℚ} {error : Exc}

theorem does_recordFailure {retryAt : Option Instant} {detail : String}
    (hdef : requireDefinition E.store (E.fleet k).definitions c = .ok workflow) :
    E.Does k c (E.Knows c fun _ steps => statesOf steps step.id = some .running)
      (DurableWorker.recordFailure c step attempt error retryAt detail) fun _ => E.Works c :=
  .bind (does_endAttempt hdef rfl id fun s' hs' => (Option.some.inj hs').symm) fun _ =>
    .bind (does_plain (by simp [Op.writer?, Op.claim?]) (by simp) ⟨id, rfl⟩) fun _ => .pure fun _ hx => hx

theorem does_retryAt : E.Does k c (E.Knows c F) (DurableWorker.retryAt step attempt error) fun _ => E.Knows c F := by
  unfold DurableWorker.retryAt DurableWorker.drawFor
  split
  · exact .pure fun _ hx => hx
  · split_ifs
    · exact .pure fun _ hx => hx
    · refine .bind (M := fun _ => E.Knows c F) ?_ fun draw => .bind (does_ofExcept fun _ _ _ hx => hx) fun delay =>
        .bind (does_await (by simp) (by simp) (by simp) stable_knows fun _ hx => hx.works) fun _ => .pure fun _ hx => hx
      exact .pure fun _ hx => hx
    · refine .bind (M := fun _ => E.Knows c F) ?_ fun draw => .bind (does_ofExcept fun _ _ _ hx => hx) fun delay =>
        .bind (does_await (by simp) (by simp) (by simp) stable_knows fun _ hx => hx.works) fun _ => .pure fun _ hx => hx
      exact does_await (by simp) (by simp) (by simp) stable_knows fun _ hx => hx.works

theorem does_attemptRaised (hdef : requireDefinition E.store (E.fleet k).definitions c = .ok workflow) :
    E.Does k c (E.Knows c fun _ steps => statesOf steps step.id = some .running)
      (w.attemptRaised c step attempt budget error) fun _ => E.Works c := by
  unfold DurableWorker.attemptRaised
  split_ifs
  · exact does_recordFailure hdef
  · exact does_ending (does_plain (by simp [Op.writer?, Op.claim?]) (by simp) ⟨id, rfl⟩)
  · exact does_ending (does_plain (by simp [Op.writer?, Op.claim?]) (by simp) ⟨id, rfl⟩)
  · exact does_retryAt.bind fun _ => does_recordFailure hdef
  · exact .raise fun _ hx => hx.works

/-- An attempt that returned is still RUNNING. -/
theorem does_attemptStep (hdef : requireDefinition E.store (E.fleet k).definitions c = .ok workflow) {value : V} :
    E.Does k c (E.Attempts k c step.id value) (w.attemptStep c workflow step attempt budget value)
      fun ended => E.Knows c fun _ steps => ended.isLeft = true → statesOf steps step.id = some .running := by
  have run : (E.discipline.world k).Triple (E.Attempts k c step.id value)
      (await (.runStep ⟨workflow.name, workflow.version, step, attempt, value, budget⟩))
      (fun _ => E.Knows c fun _ steps => statesOf steps step.id = some .running)
      fun _ => E.Knows c fun _ steps => statesOf steps step.id = some .running := by
    refine Discipline.triple_await (by simp) stable_attempts (fun x hx => ?_) fun x a hx => ?_
    · exact ⟨c, hx.knows.claim, hx.knows.has, hx.started⟩
    · cases a <;> exact hx.knows
  refine .bind run.attempt fun ended => ?_
  cases ended with
  | ok output => exact .pure fun x hx => hx.mono fun _ _ h _ => h
  | error error => exact (does_attemptRaised hdef).bind fun _ => .pure fun x hx => hx.mono fun _ _ _ h => by cases h

end Attempt

/-! ## Plans -/

/-- What the worker read is what the journal holds. -/
def Reads (store : JournalStore V) (states : String → Option StepState) (outputs : String → Option V) (resolved : Bool)
    (steps : String → Option StepRow) : Prop :=
  states = statesOf steps ∧ (resolved = false → outputs = outputsOf store steps)

/-- A guarded operation that carries out the plan. -/
theorem grounded_of_plan {states : String → Option StepState} {outputs : String → Option V} {op : Op V}
    (hx : E.Knows c (Reads E.store states outputs) x)
    (hdef : requireDefinition E.store (E.fleet k).definitions c = .ok workflow)
    (hplan : planNext workflow E.store.values.null states outputs = .ok plan) (hs : op.attempt? = none)
    (hop : op.CarriesOut E.store plan) : ∃ w, E.Grounded k x c op w := by
  refine ⟨workflow, hdef, fun _ hc => ⟨plan, ⟨outputs, ?_, (hx.current hc).2⟩, hop⟩, fun s hs' => by cases hs.symm.trans hs'⟩
  rw [← (hx.current hc).1]
  exact hplan

theorem does_carryOut {states : String → Option StepState} {outputs : String → Option V} {op : Op V}
    (hw : op.writer? = some c) (hdef : requireDefinition E.store (E.fleet k).definitions c = .ok workflow)
    (hplan : planNext workflow E.store.values.null states outputs = .ok plan) (hs : op.attempt? = none)
    (hop : op.CarriesOut E.store plan) :
    E.Does k c (E.Knows c (Reads E.store states outputs)) (call op) fun _ => E.Works c := by
  have hne : ∀ owner ttl, op ≠ .claimNext owner ttl := by
    rintro owner ttl rfl
    cases hw
  exact does_call (fun c' hc' => Option.some.inj (hc'.symm.trans hw)) hne
    (fun x hx _ => grounded_of_plan hx hdef hplan hs hop) fun _ _ _ _ _ _ _ => trivial

/-- After a step the worker looks at the plan again. -/
theorem does_afterStep {stepId : String} {attempt : ℕ} (hstore : w.store = E.store)
    (hdef : requireDefinition E.store (E.fleet k).definitions c = .ok workflow) :
    E.Does k c (E.Knows c F) (w.afterStep c workflow stepId attempt) fun _ => E.Works c := by
  refine .bind does_stepStates fun states => .bind does_completedOutputs fun outputs => ?_
  refine .bind (M := fun plan x => planNext workflow E.store.values.null states outputs = .ok plan ∧
    E.Knows c (Reads E.store states outputs) x) ?_ fun plan => ?_
  · rw [hstore]
    exact does_ofExcept fun plan hplan x hx => ⟨hplan, hx.mono fun _ _ h => ⟨h.1.2, fun _ => h.2⟩⟩
  · refine .assume fun hplan => ?_
    cases plan with
    | complete results reason =>
      rw [hstore]
      exact does_ending (does_carryOut rfl hdef hplan rfl rfl)
    | conflict step sources reason => exact does_ending (does_carryOut rfl hdef hplan rfl ⟨rfl, rfl⟩)
    | runStep step value sources => exact does_ending (does_plain (by simp [Op.writer?, Op.claim?]) (by simp) ⟨id, rfl⟩)
    | skipStep step reason => exact does_ending (does_plain (by simp [Op.writer?, Op.claim?]) (by simp) ⟨id, rfl⟩)
    | needsDecision step reason => exact does_ending (does_plain (by simp [Op.writer?, Op.claim?]) (by simp) ⟨id, rfl⟩)

/-! ## The start of a step -/

/-- The one place where a step is started. -/
theorem does_startStep {states : String → Option StepState} {outputs : String → Option V} {step : Step V} {value : V}
    {sources : List String} {key : Option String}
    (hdef : requireDefinition E.store (E.fleet k).definitions c = .ok workflow)
    (hplan : planNext workflow E.store.values.null states outputs = .ok (.runStep step value sources))
    (hid : step.id = s) :
    E.Does k c (E.Knows c (Reads E.store states outputs)) (call (.startStep c s key))
      fun _ => E.Attempts k c s (if sources = [] then c.input else value) := by
  refine Discipline.triple_call stable_knows (fun x hx => ⟨hx.own (by simp [Op.writer?, Op.claim?]), ?_⟩) ?_
  · rintro c' hc'
    cases hc'
    exact ⟨hx.claim, hx.has, fun _ => grounded_of_plan hx hdef hplan rfl hid⟩
  · intro x now hx hfair hinv
    show Ends _ _ (((Op.startStep c s key).txn E.store now).commit x.scene.journal).1
    cases ha : (((Op.startStep c s key).txn E.store now).commit x.scene.journal).1 with
    | error e => exact knows_after hx (by simp) hinv fun _ _ => trivial
    | ok a =>
      have hrun := Txn.run_of_commit ha
      obtain ⟨row, st, -, hs, -, -, hj⟩ := JournalStore.run_startStep.mp hrun
      have hcurrent : x.Current c := hs.guard.fence_eq
      refine ⟨knows_after hx (by simp) hinv fun _ _ => ?_, x, now, key, workflow, step, value, sources, hx.inv,
        Scene.call_grows E.store x.scene ⟨.startStep c s key, now⟩ _, hx.has, hcurrent, hfair, ⟨a, ha⟩, hdef,
        ⟨outputs, ?_, (hx.current hcurrent).2⟩, hid, rfl⟩
      · show statesOf ((((Op.startStep c s key).txn E.store now).commit x.scene.journal).2.record c.executionId).steps s = _
        have hst : x.scene.journal.steps.get? (c.executionId, s) = some st := hs.step_eq
        rw [hj]
        simp [statesOf, hst]
      · rw [← (hx.current hcurrent).1]
        exact hplan

theorem does_startedStep {step : Step V} {attempt : ℕ} {value : V} (hstore : w.store = E.store)
    (hdef : requireDefinition E.store (E.fleet k).definitions c = .ok workflow) :
    E.Does k c (E.Attempts k c step.id value) (w.startedStep c workflow step attempt value) fun _ => E.Works c := by
  refine .bind (M := fun _ => E.Attempts k c step.id value) ?_ fun budget => ?_
  · unfold DurableWorker.attemptBudget
    split
    · exact .pure fun _ hx => hx
    · exact .bind (does_await (by simp) (by simp) (by simp) stable_attempts fun _ hx => hx.knows.works) fun _ =>
        .pure fun _ hx => hx
  · split_ifs
    · exact (does_ending (does_plain (by simp [Op.writer?, Op.claim?]) (by simp) ⟨id, rfl⟩)).pre fun _ hx => hx.knows
    · refine .bind (does_await (by simp) (by simp) (by simp) stable_attempts fun _ hx => hx.knows.works) fun _ => ?_
      have stop : ∀ {F}, E.Does k c (E.Knows c F) (await .stopHeartbeat) fun _ => E.Knows c F := fun {F} =>
        does_await (by simp) (by simp) (by simp) stable_knows fun _ hx => hx.works
      refine .bind (.finally' (does_attemptStep hdef) (fun _ => stop) fun _ => stop) fun ended => ?_
      cases ended with
      | inr outcome => exact .pure fun _ hx => hx.works
      | inl output =>
        have complete : E.Does k c (E.Knows c fun _ steps => statesOf steps step.id = some .running)
            (call (.completeStep c step.id output)) fun _ => E.Works c :=
          does_endAttempt hdef rfl id fun s' hs' => (Option.some.inj hs').symm
        exact .bind (complete.pre fun _ hx => hx.mono fun _ _ h => h rfl) fun _ => does_afterStep hstore hdef

theorem does_runStep {states : String → Option StepState} {outputs : String → Option V} {step : Step V} {value : V}
    {sources : List String} (hstore : w.store = E.store)
    (hdef : requireDefinition E.store (E.fleet k).definitions c = .ok workflow)
    (hplan : planNext workflow E.store.values.null states outputs = .ok (.runStep step value sources)) :
    E.Does k c (E.Knows c (Reads E.store states outputs))
      (w.runStep c workflow step.id (if sources = [] then c.input else value)) fun _ => E.Works c := by
  refine .bind (M := fun step' x => step'.id = step.id ∧ E.Knows c (Reads E.store states outputs) x)
    (does_ofExcept fun step' hstep' x hx => ⟨?_, hx⟩) fun step' => ?_
  · unfold Workflow.stepById at hstep'
    split at hstep'
    · rename_i hfind
      cases hstep'
      simpa using List.find?_some hfind
    · cases hstep'
  · exact .assume fun hid => .bind (does_startStep hdef hplan hid.symm) fun _ => does_startedStep hstore hdef

/-- A step that is skipped is marked in the states. -/
theorem does_skipStep {states : String → Option StepState} {outputs : String → Option V} {step : Step V} {reason : String}
    (hdef : requireDefinition E.store (E.fleet k).definitions c = .ok workflow)
    (hplan : planNext workflow E.store.values.null states outputs = .ok (.skipStep step reason)) :
    E.Does k c (E.Knows c (Reads E.store states outputs)) (call (.skipStep c step.id reason))
      fun _ => E.Knows c (Reads E.store (mark states step.id .skipped) outputs) := by
  refine does_call (by simp [Op.writer?, Op.claim?]) (by simp)
    (fun x hx _ => grounded_of_plan hx hdef hplan rfl ⟨rfl, rfl⟩) fun x now a _ _ ha hx => ?_
  obtain ⟨st, hs, hj⟩ := JournalStore.run_skipStep.mp (Txn.run_of_commit ha)
  have hst : (x.scene.record c.executionId).steps step.id = some st := hs.step_eq
  have hlegal : st.state ≠ .succeeded := by
    have hmem := hs.legal
    intro hsucceeded
    rw [hsucceeded] at hmem
    simp [stepTransitions] at hmem
  have hsteps : ((E.discipline.after x now (.skipStep c step.id reason)).scene.record c.executionId).steps =
      ((x.scene.record c.executionId).modifyStep step.id fun st' =>
        { st' with state := .skipped, finishedAt := now, stateDetail := reason }).steps := by
    show ((((JournalStore.skipStep c step.id reason now).commit x.scene.journal).2).record c.executionId).steps = _
    rw [hj, record_appendEvent_self rfl, record_modifyStep_self]
    rfl
  have hnotes : (E.discipline.after x now (.skipStep c step.id reason)).notes = x.notes := rfl
  rw [hsteps, hnotes]
  refine ⟨?_, fun hfresh => ?_⟩
  · rw [statesOf_modifyStep hst, hx.1]
  · rw [outputsOf_modifyStep (by simp) hst hlegal]
    exact hx.2 hfresh

/-- The loop of `run_once`. -/
theorem does_advance {states : String → Option StepState} {outputs : String → Option V} {n : ℕ}
    (hstore : w.store = E.store) (hdef : requireDefinition E.store (E.fleet k).definitions c = .ok workflow) :
    E.Does k c (E.Knows c (Reads E.store states outputs)) (w.advance c workflow outputs n states) fun _ => E.Works c := by
  induction n generalizing states with
  | zero => exact .raise fun _ hx => hx.works
  | succ n ih =>
    refine .bind (M := fun plan x => planNext workflow E.store.values.null states outputs = .ok plan ∧
      E.Knows c (Reads E.store states outputs) x) ?_ fun plan => ?_
    · rw [hstore]
      exact does_ofExcept fun plan hplan x hx => ⟨hplan, hx⟩
    · refine .assume fun hplan => ?_
      cases plan with
      | runStep step value sources => exact does_runStep hstore hdef hplan
      | skipStep step reason => exact (does_skipStep hdef hplan).bind fun _ => ih
      | complete results reason =>
        rw [hstore]
        exact does_ending (does_carryOut rfl hdef hplan rfl rfl)
      | conflict step sources reason => exact does_ending (does_carryOut rfl hdef hplan rfl ⟨rfl, rfl⟩)
      | needsDecision step reason => exact does_ending (does_plain (by simp [Op.writer?, Op.claim?]) (by simp) ⟨id, rfl⟩)

/-! ## `run_once` and `recover` -/

variable {f : Fleet V}

/-- The plan that was made from what the journal holds says what the interrupted steps received. -/
theorem recovers_of_reads {states : String → Option StepState} {outputs : String → Option V}
    (hx : E.Knows c (fun _ steps => states = statesOf steps ∧ outputs = outputsOf E.store steps ∧
      ∀ s ∈ L, statesOf steps s = some .running) x)
    (hdef : requireDefinition E.store (E.fleet k).definitions c = .ok workflow)
    (hplan : planNext workflow E.store.values.null states outputs = .ok plan) : E.Recovers k c plan L False x where
  knows := hx.mono fun _ _ h => h.2.2
  inputs hc s hs := by
    obtain ⟨hstates, houtputs, hrunning⟩ := hx.current hc
    refine ⟨x.scene, workflow, plan, hx.inv, .refl _, hdef, running_iff.mpr (hrunning s hs), ⟨outputs, ?_, fun _ => houtputs⟩, rfl⟩
    rw [← hstates]
    exact hplan
  resolved := False.elim

theorem does_resumeWork {i : ℕ} (hstore : (E.fleet k).store = E.store)
    (hdef : requireDefinition E.store (E.fleet k).definitions c = .ok workflow) :
    E.Does k c (E.Works c) (((E.fleet k).worker i).resumeWork c workflow) fun _ => E.Works c := by
  refine .bind does_stepStates fun states => .bind does_completedOutputs fun outputs =>
    .bind does_runningSteps fun interrupted => ?_
  split_ifs with hnone
  · exact (does_advance hstore hdef).pre fun x hx => hx.2.mono fun _ _ h => ⟨h.1.1.2, fun _ => h.1.2⟩
  · refine .assume fun hnodup => ?_
    refine .bind (M := fun plan => E.Recovers k c plan interrupted False) ?_ fun plan => ?_
    · refine does_ofExcept fun plan hplan x hx => recovers_of_reads (hx.mono fun _ _ h => ⟨h.1.1.2, h.1.2, h.2⟩) hdef ?_
      rw [← hstore]
      exact hplan
    · refine .bind (does_resolveInterrupted hdef hnodup) fun outcomes => ?_
      split_ifs with hunknown
      · exact .pure fun x hx => hx.knows.works
      · -- the outputs are the ones from before the attempt was resolved
        have reread : E.Does k c (E.Knows c fun b _ => b = true) (call (.stepStates c.executionId))
            fun states => E.Knows c (Reads E.store states outputs) :=
          does_stepStates.weaken (fun _ h => h)
            (fun _ _ h => h.mono fun b _ h => ⟨h.2, fun hb => by cases h.1.symm.trans hb⟩) fun _ _ h => h
        refine .bind (reread.pre fun x hx => ?_) fun states => does_advance hstore hdef
        exact ⟨hx.knows.inv, hx.knows.claim, hx.knows.has, fun _ => hx.resolved (.inr ⟨hnone, hunknown⟩)⟩

theorem does_deadlinePassed :
    E.Does k c (E.Works c) (DurableWorker.deadlinePassed c) fun _ => E.Works c := by
  unfold DurableWorker.deadlinePassed
  split
  · exact .pure fun _ hx => hx
  · exact .bind (does_await (by simp) (by simp) (by simp) stable_knows fun _ hx => hx) fun _ => .pure fun _ hx => hx

theorem does_work {i : ℕ} (hstore : (E.fleet k).store = E.store) :
    E.Does k c (E.Works c) (((E.fleet k).worker i).work c) fun _ => E.Works c := by
  unfold DurableWorker.work
  split_ifs
  · exact does_ending (does_plain (by simp [Op.writer?, Op.claim?]) (by simp) ⟨id, rfl⟩)
  · split
    · exact does_ending (does_plain (by simp [Op.writer?, Op.claim?]) (by simp) ⟨by simp [Op.Decided], rfl⟩)
    · rename_i workflow hdef
      refine .bind does_deadlinePassed fun passed => ?_
      split_ifs
      · exact does_ending (does_plain (by simp [Op.writer?, Op.claim?]) (by simp) ⟨id, rfl⟩)
      · refine does_resumeWork hstore ?_
        rw [← hstore]
        exact hdef

/-- A claim that is handed out is the one the worker works under. -/
theorem behaves_claimNext {owner : String} {ttl : Option Duration} :
    E.discipline.Behaves k (fun _ => True) (call (.claimNext owner ttl))
      fun claim? x => ∀ c ∈ claim?, E.Works c x := by
  refine Discipline.triple_call (fun _ _ _ _ => trivial) (fun x _ => ⟨fun c hc => ?_, fun c hc => ?_⟩) ?_
  · cases hc
  · cases hc
  · intro x now _ _ hinv
    show Ends _ _ (((Op.claimNext owner ttl).txn E.store now).commit x.scene.journal).1
    cases ha : (((Op.claimNext owner ttl).txn E.store now).commit x.scene.journal).1 with
    | error e => trivial
    | ok claim? =>
      rintro c hc
      cases Option.mem_def.mp hc
      refine ⟨hinv, ?_, (Discipline.has_issued (D := E.discipline) ha).1, fun _ => trivial⟩
      show (x.notes.note (.store (.claimNext owner ttl))
        (((Op.claimNext owner ttl).txn E.store now).commit x.scene.journal).1).claim = some c
      rw [ha]
      rfl

/-- **`run_once` keeps the obligations.** -/
theorem behaves_runOnce {i : ℕ} (hstore : (E.fleet k).store = E.store) :
    E.discipline.Behaves k (fun _ => True) ((E.fleet k).worker i).runOnce fun _ _ => True := by
  refine .bind behaves_claimNext fun claim? => ?_
  cases claim? with
  | none => exact .pure fun _ _ => trivial
  | some c =>
    refine .bind (M := fun _ _ => True) ?_ fun _ => .pure fun _ _ => trivial
    exact (does_work hstore).weaken (fun x hx => hx c rfl) (fun _ _ _ => trivial) fun _ _ _ => trivial

theorem does_recoverOne (hstore : (E.fleet k).store = E.store) :
    E.Does k c (E.Works c) (recoverOne (E.fleet k).store c (E.fleet k).activities (E.fleet k).definitions)
      fun _ => E.Works c := by
  unfold recoverOne
  split_ifs
  · exact does_ending (does_plain (by simp [Op.writer?, Op.claim?]) (by simp) ⟨id, rfl⟩)
  · refine .bind does_runningSteps fun running => .assume fun hnodup => ?_
    split_ifs
    · exact (does_ending (does_plain (by simp [Op.writer?, Op.claim?]) (by simp) ⟨id, rfl⟩))
    · refine .bind (M := fun workflow x => requireDefinition E.store (E.fleet k).definitions c = .ok workflow ∧
        E.Knows c (fun _ steps => True ∧ ∀ s ∈ running, statesOf steps s = some .running) x) ?_ fun workflow =>
        .assume fun hdef => ?_
      · refine does_ofExcept fun workflow hdef x hx => ⟨?_, hx⟩
        rw [← hstore]
        exact hdef
      · refine .bind does_stepStates fun states => .bind does_completedOutputs fun outputs =>
          .bind (M := fun plan => E.Recovers k c plan running False) ?_ fun plan =>
          .bind (does_resolveInterrupted hdef hnodup) fun resolved => .pure fun x hx => hx.knows.works
        refine does_ofExcept fun plan hplan x hx =>
          recovers_of_reads (hx.mono fun _ _ h => ⟨h.1.2, h.2, h.1.1.2⟩) hdef ?_
        rw [← hstore]
        exact hplan

theorem behaves_recoverEach {owner : String} {ttl : Option Duration} {expired : List String} {report : RecoveryReport}
    (hstore : (E.fleet k).store = E.store) :
    E.discipline.Behaves k (fun _ => True) (recoverEach (E.fleet k).store (E.fleet k).definitions (E.fleet k).activities
      owner ttl expired report) fun _ _ => True := by
  induction expired generalizing report with
  | nil => exact .pure fun _ _ => trivial
  | cons executionId rest ih =>
    refine .bind behaves_claimNext fun claim? => ?_
    cases claim? with
    | none => exact .pure fun _ _ => trivial
    | some c =>
      dsimp only
      split_ifs
      · exact .pure fun _ _ => trivial
      · refine .bind ((does_recoverOne hstore).pre fun x hx => hx c rfl).attempt fun decided => ?_
        cases decided with
        | ok decision => exact ih.pre fun _ _ => trivial
        | error error =>
          dsimp only
          split_ifs
          · refine .bind (M := fun _ _ => True) ?_ fun _ => ih
            exact (does_plain (E := E) (k := k) (c := c) (F := fun _ _ => True) (by simp [Op.writer?, Op.claim?]) (by simp)
              ⟨by simp [Op.Decided], rfl⟩).weaken (fun _ h => h) (fun _ _ _ => trivial) fun _ _ _ => trivial
          · exact .raise fun _ _ => trivial

/-- **`recover` keeps the obligations.** -/
theorem behaves_recover {i : ℕ} (hstore : (E.fleet k).store = E.store) :
    E.discipline.Behaves k (fun _ => True) ((E.fleet k).worker i).recover fun _ _ => True := by
  refine .bind (M := fun _ _ => True) ?_ fun found => behaves_recoverEach hstore
  refine Discipline.triple_call (fun _ _ _ _ => trivial) (fun x _ => ⟨fun c hc => ?_, fun c hc => ?_⟩) ?_
  · cases hc
  · cases hc
  · intro x now _ _ _
    exact trivial

/-- **Workers keep their obligations**, if the invariant is kept by calls that write under no claim and by those that
meet the obligations. -/
theorem kept (E : Planned V κ) (hstore : ∀ k, (E.fleet k).store = E.store) (hempty : E.inv {})
    (hfree : ∀ x y, E.discipline.Inv x → y.op.writer? = none → E.inv (x.call E.store y))
    (hbound : ∀ k (x : Station V (Notes V)) now op c, E.discipline.Inv x.scene → op.writer? = some c →
      E.may k x (.store op) → E.fair x.scene x.notes now (.store op) → E.inv (x.scene.call E.store ⟨op, now⟩)) :
    E.discipline.Kept E.fleet where
  store := hstore
  empty := hempty
  free := hfree
  bound k x now op c hinv hw _ hmay hfair := hbound k x now op c hinv hw hmay hfair
  runOnce k _ := (behaves_runOnce (hstore k)).pre fun _ _ => trivial
  recover k _ := (behaves_recover (hstore k)).pre fun _ _ => trivial

end Planned

end Xyberos.Durable
