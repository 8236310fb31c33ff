import Xyberos.Durable.Definitions

/-!
# Xyberos.Durable.Inputs — what the attempts of a step receive

A step is RUNNING only while `plan_next`, asked about the journal as it is, runs that step (`Record.RunsPlanned`): all
its sources are resolved, so nothing that is written meanwhile changes the value.  An attempt, and a reconciler that is
asked about it, therefore receive the same value (`same_input`), as long as a reconciler is asked only under a claim that
is the last one, and no step is started under a claim under which an attempt was resolved: `run_once` goes on with the
outputs it read before that.  A worker that was overtaken between two of its reads puts the states of one time together
with the RUNNING steps of another (`reconciled_with_other_input`).
-/

set_option autoImplicit false

namespace Xyberos.Durable

variable {V κ : Type}

/-! ## The value of a step -/

section Receives

variable (store : JournalStore V) (w : Workflow V)

/-- The value a step has to receive: the input of the execution, or the output of the one source whose selected edge leads
to it. -/
def Receives (r : Record) (s : String) (v : V) : Prop :=
  (∀ e ∈ w.incoming s, Resolved (statesOf r.steps) e.source) ∧
    (w.incoming s = [] ∧ (∃ row, r.row = some row ∧ v = store.load row.input) ∨
      ∃ e ∈ w.incoming s, (∀ e' ∈ w.incoming s,
          Taken w store.values.null (statesOf r.steps) (outputsOf store r.steps) e' ↔ e' = e) ∧
        ∃ st, r.steps e.source = some st ∧ st.state = .succeeded ∧ v = store.load st.output)

variable {w} {r r' : Record} {s : String} {v v' : V} {e : Edge V}

theorem resolved_statesOf : Resolved (statesOf r.steps) s ↔ ∃ st, r.steps s = some st ∧ st.state.IsTerminal := by
  unfold Resolved statesOf
  cases r.steps s with
  | none => simp [StepState.IsTerminal]
  | some st => simp

theorem succeeded_statesOf :
    (statesOf r.steps s).getD .pending = .succeeded ↔ ∃ st, r.steps s = some st ∧ st.state = .succeeded := by
  unfold statesOf
  cases r.steps s with
  | none => simp
  | some st => simp

/-- What is resolved stays as it is. -/
theorem statesOf_of_grows (h : r.Grows r') (hs : Resolved (statesOf r.steps) s) :
    statesOf r'.steps s = statesOf r.steps s ∧ outputsOf store r'.steps s = outputsOf store r.steps s := by
  obtain ⟨st, hst, ht⟩ := resolved_statesOf.mp hs
  obtain ⟨st', hst', hstate, houtput⟩ := h.resolved s st hst ht
  constructor
  · simp [statesOf, hst, hst', hstate]
  · simp [outputsOf, hst, hst', hstate, houtput]

variable {store}

theorem taken_of_grows (h : r.Grows r') (he : Resolved (statesOf r.steps) e.source) :
    Taken w store.values.null (statesOf r'.steps) (outputsOf store r'.steps) e ↔
      Taken w store.values.null (statesOf r.steps) (outputsOf store r.steps) e := by
  obtain ⟨hstates, houtputs⟩ := statesOf_of_grows store h he
  rw [Taken, Taken, hstates, houtputs]

/-- The value stays the one the step has to receive. -/
theorem Receives.grows (h : Receives store w r s v) (hg : r.Grows r') : Receives store w r' s v := by
  obtain ⟨hsources, hvalue⟩ := h
  refine ⟨fun e he => ?_, ?_⟩
  · rw [Resolved, (statesOf_of_grows store hg (hsources e he)).1]
    exact hsources e he
  · rcases hvalue with ⟨hnone, row, hrow, rfl⟩ | ⟨e, he, honly, st, hst, hs, rfl⟩
    · obtain ⟨row', hrow', hsame⟩ := hg.row row hrow
      exact .inl ⟨hnone, row', hrow', by rw [hsame.input]⟩
    · obtain ⟨st', hst', hs', houtput⟩ := hg.resolved e.source st hst (hs ▸ by decide)
      refine .inr ⟨e, he, fun e' he' => ?_, st', hst', hs'.trans hs, by rw [houtput]⟩
      exact (taken_of_grows hg (hsources e' he')).trans (honly e' he')

/-- There is one such value. -/
theorem Receives.unique (h : Receives store w r s v) (h' : Receives store w r s v') : v = v' := by
  obtain ⟨-, ⟨hnone, row, hrow, rfl⟩ | ⟨e, he, honly, st, hst, -, rfl⟩⟩ := h
  · obtain ⟨-, ⟨-, row', hrow', rfl⟩ | ⟨e', he', -⟩⟩ := h'
    · cases hrow.symm.trans hrow'
      rfl
    · rw [hnone] at he'
      cases he'
  · obtain ⟨-, ⟨hnone, -⟩ | ⟨e', he', honly', st', hst', -, rfl⟩⟩ := h'
    · rw [hnone] at he
      cases he
    · obtain rfl : e = e' := (honly' e he).mp ((honly e he).mpr rfl)
      cases hst.symm.trans hst'
      rfl

/-- What a worker passes on from a plan of the journal. -/
theorem receives_of_planNext {row : ExecutionRow} {c : Claim V} {step : Step V} {value : V} {sources : List String}
    (hg : w.Graph) (hrow : r.row = some row) (habout : c.About store row)
    (h : planNext w store.values.null (statesOf r.steps) (outputsOf store r.steps) = .ok (.runStep step value sources)) :
    Receives store w r step.id (if sources = [] then c.input else value) := by
  obtain ⟨-, hsources, ⟨hnone, rfl, -⟩ | ⟨e, he, honly, rfl, rfl⟩⟩ := planNext_follows hg h
  · exact ⟨hsources, .inl ⟨hnone, row, hrow, habout.input⟩⟩
  · refine ⟨hsources, .inr ⟨e, he, honly, ?_⟩⟩
    obtain ⟨st, hst, hs⟩ := succeeded_statesOf.mp ((honly e he).mpr rfl).1
    exact ⟨st, hst, hs, by simp [outputsOf, hst, hs]⟩

end Receives

/-! ## RUNNING steps are the ones the plan runs -/

namespace Record

variable (store : JournalStore V) (w : Workflow V)

/-- A step is RUNNING only if the plan of the journal is to run it. -/
def RunsPlanned (r : Record) : Prop := ∀ s, r.Running s → ∃ step value sources,
  planNext w store.values.null (statesOf r.steps) (outputsOf store r.steps) = .ok (.runStep step value sources) ∧
    step.id = s

variable {store w} {r r' : Record} {s s' : String}

/-- At most one step is RUNNING. -/
theorem RunsPlanned.eq (h : r.RunsPlanned store w) (hs : r.Running s) (hs' : r.Running s') : s = s' := by
  obtain ⟨step, value, sources, hplan, rfl⟩ := h s hs
  obtain ⟨step', value', sources', hplan', rfl⟩ := h s' hs'
  cases hplan.symm.trans hplan'
  rfl

theorem RunsPlanned.of_steps_eq (h : r.RunsPlanned store w) (hsteps : r'.steps = r.steps) :
    r'.RunsPlanned store w := by
  intro s hs
  rw [running_iff, hsteps, ← running_iff] at hs
  rw [hsteps]
  exact h s hs

/-- After a step was written, it is RUNNING by that, and any other is RUNNING as before. -/
theorem running_of_modifyStep {f : StepRow → StepRow} {st : StepRow} (hst : r.steps s = some st)
    (hsteps : r'.steps = (r.modifyStep s f).steps) (hs' : r'.Running s') :
    s' = s ∧ (f st).state = .running ∨ s' ≠ s ∧ r.Running s' := by
  have hrunning := running_iff.mp hs'
  rw [hsteps, statesOf_modifyStep hst, mark] at hrunning
  split_ifs at hrunning with he
  · exact .inl ⟨he, Option.some.inj hrunning⟩
  · exact .inr ⟨he, running_iff.mpr hrunning⟩

/-- Where a step leaves RUNNING, none is left that is RUNNING; where it is started, it is the one. -/
theorem RunsPlanned.modifyStep {f : StepRow → StepRow} {st : StepRow} (h : r.RunsPlanned store w)
    (hst : r.steps s = some st) (hlegal : st.state = .pending ∨ st.state = .running)
    (hs : ∃ step value sources, step.id = s ∧ planNext w store.values.null (statesOf r.steps)
      (outputsOf store r.steps) = .ok (.runStep step value sources))
    (hf : (f st).state = .running → ∀ st, (f st).state ≠ .succeeded)
    (hsteps : r'.steps = (r.modifyStep s f).steps) : r'.RunsPlanned store w := by
  obtain ⟨step, value, sources, hid, hplan⟩ := hs
  intro s' hs'
  rcases running_of_modifyStep hst hsteps hs' with ⟨rfl, hrun⟩ | ⟨hne, hrunning⟩
  · -- the step itself: to the scheduler nothing has changed
    have hopen : st.state ≠ .succeeded := by rcases hlegal with h | h <;> rw [h] <;> decide
    refine ⟨step, value, sources, ?_, hid⟩
    rw [← hplan, hsteps, statesOf_modifyStep hst, outputsOf_modifyStep (hf hrun) hst hopen, hrun]
    refine planNext_congr fun t => ?_
    unfold mark
    split_ifs with ht
    · rw [ht, statesOf, hst]
      rcases hlegal with h | h <;> simp [h, StepState.unstarted]
    · rfl
  · -- another step would be the one the plan runs
    obtain ⟨step', value', sources', hplan', rfl⟩ := h s' hrunning
    cases hplan.symm.trans hplan'
    exact absurd hid hne

/-- **An operation keeps it**, if it starts the step that the plan runs, skips one that some plan skips, and ends an attempt
of a RUNNING step. -/
theorem Step.runsPlanned {now : Instant} {id : String} {op : Op V} (h : Step store now id op r r') (hroot : r.Rooted)
    (hr : r.RunsPlanned store w)
    (hstart : ∀ c s key, op = .startStep c s key → ∃ step value sources, step.id = s ∧
      planNext w store.values.null (statesOf r.steps) (outputsOf store r.steps) = .ok (.runStep step value sources))
    (hskip : ∀ c s reason, op = .skipStep c s reason → ∃ outputs step reason', step.id = s ∧
      planNext w store.values.null (statesOf r.steps) outputs = .ok (.skipStep step reason'))
    (hattempt : ∀ s, op.attempt? = some s → r.Running s) : r'.RunsPlanned store w := by
  -- the end of an attempt
  have ended : ∀ {s : String} {st : StepRow} {f : StepRow → StepRow}, op.attempt? = some s → r.steps s = some st →
      ((f st).state = .running → ∀ st, (f st).state ≠ .succeeded) → r'.steps = (r.modifyStep s f).steps →
      r'.RunsPlanned store w := by
    intro s st f hop hst hf hsteps
    obtain ⟨st', hst', hrun⟩ := hattempt s hop
    cases hst.symm.trans hst'
    obtain ⟨step, value, sources, hplan, hid⟩ := hr s (hattempt s hop)
    exact hr.modifyStep hst (.inr hrun) ⟨step, value, sources, hid, hplan⟩ hf hsteps
  cases h with
  | submit absent =>
    intro s' hs'
    have hpending := running_iff.mp hs'
    rw [hroot absent] at hpending
    simp [statesOf, Record.log, Record.absent] at hpending
  | startStep hc hrow hs source =>
    refine hr.modifyStep hs.step_eq ?_ (hstart _ _ _ rfl) (fun _ _ => by simp) rfl
    simpa using source
  | skipStep hc hs =>
    obtain ⟨outputs, step, reason', hid, hplan⟩ := hskip _ _ _ rfl
    intro s' hs'
    rcases running_of_modifyStep hs.step_eq rfl hs' with ⟨-, hrun⟩ | ⟨hne, hrunning⟩
    · cases hrun
    · -- the RUNNING step is ready, and so is the one that is skipped
      obtain ⟨step', value, sources, hplan', rfl⟩ := hr s' hrunning
      rw [planNext_ready hplan' rfl hplan rfl] at hne
      exact absurd hid hne
  | completeStep hc hp hs => exact ended rfl hs.step_eq (by simp) rfl
  | failStep hc hd hs => exact ended rfl hs.step_eq (by simp [failedAttempt]) rfl
  | retryStep hc hd hs => exact ended rfl hs.step_eq (by simp [failedAttempt]) rfl
  | markUnknown hc hs => exact ended rfl hs.step_eq (by simp) rfl
  | resolveStep hc hs => exact ended rfl hs.step_eq (fun h _ => by rw [show _ = StepState.running from h]; decide) rfl
  | requestLive => exact hr.of_steps_eq recordRequest_steps
  | requestFinish => exact hr.of_steps_eq recordRequest_steps
  | acknowledge => exact hr.of_steps_eq recordOwnRequest_steps
  | _ => exact hr.of_steps_eq rfl

end Record

/-! ## Histories -/

section History

variable (f : Fleet V)

/-- The definition that the workers go by. -/
def Fleet.definitionOf (row : ExecutionRow) : Option (Workflow V) :=
  (f.definitions row.workflow row.version).filter fun w => f.store.definitionFingerprint w = row.fingerprint

/-- The request is made on outdated reads: a reconciler is asked under a claim that is not the last one any more, or a step
is started under a claim under which an attempt was resolved, and the journal accepts it. -/
def Request.outdated (store : JournalStore V) (j : Journal) (n : Notes V) (now : Instant) : Request V → Bool
  | .reconcile _ _ => n.claim.any fun c => (j.record c.executionId).fence ≠ c.fence
  | .store (.startStep c s key) => n.resolved && (((Op.startStep c s key).txn store now).commit j).1.toBool
  | _ => false

/-- In the turn of a worker, a request is made on outdated reads. -/
def Roster.outdated (store : JournalStore V) (s : Roster V κ (Notes V)) : Action V → Bool
  | .main i now _ => (s.asks i).any (Request.outdated store s.system.journal (s.notes i) now)
  | _ => false

/-- The execution, the step and the value, if in the turn of a worker a step or a reconciler is called. -/
def Roster.delivers (s : Roster V κ (Notes V)) : Action V → Option (String × String × V)
  | .main i _ _ =>
    match s.asks i, (s.notes i).claim with
    | some (.runStep call), some c => some (c.executionId, call.step.id, call.value)
    | some (.reconcile stepId value), some c => some (c.executionId, stepId, value)
    | _, _ => none
  | _ => none

/-- Workers that share their definitions, as long as no request is made on outdated reads. -/
def sharedDefinitions : Planned V Unit where
  store := f.store
  fleet _ := f
  inv x := ∀ id row w, (x.record id).row = some row → f.definitionOf row = some w → (x.record id).RunsPlanned f.store w
  fair x n now q := Request.outdated f.store x.journal n now q = false

/-- What is delivered in a history. -/
def deliveries (s : Roster V Unit (Notes V)) : List (Unit × Action V) → List (String × String × V)
  | [] => []
  | x :: l => (s.delivers x.2).toList ++ deliveries
      (s.exec (sharedDefinitions f).discipline (sharedDefinitions f).fleet x) l

variable {f}

/-- The definition that a claim requires is the one of the execution. -/
theorem definitionOf_of_required {c : Claim V} {row : ExecutionRow} {w : Workflow V} (habout : c.About f.store row)
    (hw : requireDefinition f.store f.definitions c = .ok w) : f.definitionOf row = some w := by
  obtain ⟨hlookup, hprint⟩ := requireDefinition_eq_ok.mp hw
  rw [habout.workflow, habout.version] at hlookup
  rw [Fleet.definitionOf, hlookup]
  simp [hprint, habout.fingerprint]

/-- What a call rests on, if the execution has the definition afterwards. -/
theorem grounded_of_row {k : Unit} {x : Station V (Notes V)} {now : Instant} {c : Claim V} {op : Op V} {row' : ExecutionRow}
    {w : Workflow V} (hmay : (sharedDefinitions f).may k x (.store op)) (hw : op.writer? = some c)
    (hrow' : ((x.scene.call f.store ⟨op, now⟩).record c.executionId).row = some row') (hdef : f.definitionOf row' = some w)
    (hop : op.Decided ∨ op.attempt? ≠ none) : (sharedDefinitions f).Grounded k x c op w := by
  obtain ⟨-, hhas, hgrounded⟩ := hmay c hw
  obtain ⟨w', hw'⟩ := hgrounded hop
  obtain ⟨row, hrow, habout⟩ := hhas.about
  obtain ⟨row'', hrow'', hsame⟩ := (Scene.call_grows f.store x.scene ⟨op, now⟩ c.executionId).row row hrow
  cases hrow'.symm.trans hrow''
  cases hdef.symm.trans (definitionOf_of_required (habout.sameWork hsame) hw'.definition)
  exact hw'

/-- A step that is started was not planned before an attempt was resolved. -/
theorem fresh_of_started {j : Journal} {n : Notes V} {now : Instant} {c : Claim V} {s : String} {key : Option String}
    {a : ℕ} (hfair : Request.outdated f.store j n now (.store (.startStep c s key)) = false)
    (ha : (((Op.startStep c s key).txn f.store now).commit j).1 = .ok a) : n.resolved = false := by
  have haccepted : (((Op.startStep c s key).txn f.store now).commit j).1.toBool = true := by
    rw [ha]
    rfl
  simpa [Request.outdated, haccepted] using hfair

/-- What a call finds. -/
theorem runsPlanned_before {x : Scene V} {y : Call V} {id : String} {row' : ExecutionRow} {w : Workflow V}
    (hx : x.Proper f.store) (hinv : (sharedDefinitions f).inv x) (hrow' : ((x.call f.store y).record id).row = some row')
    (hdef : f.definitionOf row' = some w) : (x.record id).RunsPlanned f.store w := by
  cases hrow : (x.record id).row with
  | none =>
    intro s hs
    rw [hx.rooted id hrow, running_iff] at hs
    cases hs
  | some row =>
    obtain ⟨row'', hrow'', hsame⟩ := (Scene.call_grows f.store x y id).row row hrow
    cases hrow'.symm.trans hrow''
    rw [Fleet.definitionOf, hsame.workflow, hsame.version, hsame.fingerprint] at hdef
    exact hinv id row w hrow hdef

theorem sharedDefinitions_kept : (sharedDefinitions f).discipline.Kept (sharedDefinitions f).fleet := by
  refine Planned.kept _ (fun _ => rfl) (fun id row w hrow => by cases hrow) ?_ ?_
  · intro x y hinv hw id row' w hrow' hdef
    have hbefore := runsPlanned_before hinv.1 hinv.2 hrow' hdef
    rcases Scene.call_cases f.store x y id with he | hstep
    · exact hbefore.of_steps_eq (congrArg Record.steps he)
    · refine hstep.runsPlanned (hinv.1.rooted id) hbefore (fun c s key hop => ?_) (fun c s reason hop => ?_)
        fun s hop => ?_
      · rw [hop] at hw
        cases hw
      · rw [hop] at hw
        cases hw
      · obtain ⟨c, hc⟩ := Op.writer_of_decided (.inr (hop ▸ Option.some_ne_none s))
        cases hw.symm.trans hc
  · intro k x now op c hinv hw hmay hfair id row' w hrow' hdef
    have hbefore := runsPlanned_before hinv.1 hinv.2 hrow' hdef
    rcases Txn.commit_cases (op.txn f.store now) x.scene.journal with ⟨a, j', -, hcommit⟩ | ⟨e, -, hcommit⟩
    · rcases Scene.call_cases f.store x.scene ⟨op, now⟩ id with he | hstep
      · exact hbefore.of_steps_eq (congrArg Record.steps he)
      · -- the call was accepted, so its claim is the last one
        obtain ⟨rfl, hcurrent⟩ := hstep.writer hw
        have grounded : op.Decided ∨ op.attempt? ≠ none → (sharedDefinitions f).Grounded k x c op w :=
          grounded_of_row hmay hw hrow' hdef
        refine hstep.runsPlanned (hinv.1.rooted _) hbefore (fun c' s key hop => ?_) (fun c' s reason hop => ?_)
          fun s hop => (grounded (.inr (by simp [hop]))).running s hop hcurrent
        · subst hop
          obtain ⟨plan, ⟨outputs, hplan, hfresh⟩, hcarries⟩ := (grounded (.inl trivial)).decided trivial hcurrent
          cases plan <;> try exact hcarries.elim
          rw [hfresh (fresh_of_started hfair (congrArg Prod.fst hcommit))] at hplan
          exact ⟨_, _, _, hcarries, hplan⟩
        · subst hop
          obtain ⟨plan, ⟨outputs, hplan, -⟩, hcarries⟩ := (grounded (.inl trivial)).decided trivial hcurrent
          cases plan <;> try exact hcarries.elim
          exact ⟨outputs, _, _, hcarries.1, hplan⟩
    · have hsame : ((x.scene.call f.store ⟨op, now⟩).record id) = x.scene.record id :=
        congrArg (fun r : Except Exc op.Reply × Journal => r.2.record id) hcommit
      exact hbefore.of_steps_eq (congrArg Record.steps hsame)

/-- The execution has a definition, and the value is the one the step has to receive. -/
def Delivered (f : Fleet V) (r : Record) (s : String) (v : V) : Prop :=
  ∃ row w, r.row = some row ∧ f.definitionOf row = some w ∧ Receives f.store w r s v

theorem Delivered.grows {r r' : Record} {s : String} {v : V} (h : Delivered f r s v) (hg : r.Grows r') :
    Delivered f r' s v := by
  obtain ⟨row, w, hrow, hdef, hv⟩ := h
  obtain ⟨row', hrow', hsame⟩ := hg.row row hrow
  refine ⟨row', w, hrow', ?_, hv.grows hg⟩
  rw [Fleet.definitionOf, hsame.workflow, hsame.version, hsame.fingerprint]
  exact hdef

theorem Delivered.unique {r : Record} {s : String} {v v' : V} (h : Delivered f r s v) (h' : Delivered f r s v') :
    v = v' := by
  obtain ⟨row, w, hrow, hdef, hv⟩ := h
  obtain ⟨row', w', hrow', hdef', hv'⟩ := h'
  cases hrow.symm.trans hrow'
  cases hdef.symm.trans hdef'
  exact hv.unique hv'

/-- The definitions are validated when they are made. -/
def Fleet.Validated (f : Fleet V) : Prop := ∀ name version w, f.definitions name version = some w → w.validate = .ok ()

theorem Fleet.Validated.graph (hf : f.Validated) {c : Claim V} {w : Workflow V}
    (h : requireDefinition f.store f.definitions c = .ok w) : w.Graph :=
  graph_of_validate (hf _ _ _ (requireDefinition_eq_ok.mp h).1)

section Delivers

variable {c : Claim V} {s : String} {v : V} {x : Scene V} {k : Unit}

/-- An attempt receives what its step has to receive. -/
theorem delivered_of_started (hf : f.Validated) (h : (sharedDefinitions f).Started k c s v x) :
    Delivered f (x.record c.executionId) s v := by
  obtain ⟨y, now, key, w, step, value, sources, -, hg, hhas, -, hfair, ⟨a, ha⟩, hdef, ⟨outputs, hplan, hfresh⟩, rfl, rfl⟩ := h
  obtain ⟨row, hrow, habout⟩ := hhas.about
  rw [hfresh (fresh_of_started hfair ha)] at hplan
  refine Delivered.grows ⟨row, w, hrow, definitionOf_of_required habout hdef, ?_⟩ hg
  exact receives_of_planNext (hf.graph hdef) hrow habout hplan

/-- What is reconstructed is what the step has to receive. -/
theorem delivered_of_reconstructed (hf : f.Validated) (habout : ∃ row, (x.record c.executionId).row = some row ∧
    c.About f.store row) (h : (sharedDefinitions f).Reconstructed k c s v x) :
    Delivered f (x.record c.executionId) s v := by
  obtain ⟨y, w, plan, hinv, hg, hdef, hrunning, ⟨outputs, hplan, hfresh⟩, rfl⟩ := h
  obtain ⟨row', hrow', habout⟩ := habout
  have hsome : (y.record c.executionId).row ≠ none := by
    intro hnone
    rw [hinv.1.rooted _ hnone, running_iff] at hrunning
    cases hrunning
  obtain ⟨row, hrow⟩ := Option.ne_none_iff_exists'.mp hsome
  obtain ⟨row'', hrow'', hsame⟩ := hg.row row hrow
  cases hrow'.symm.trans hrow''
  have habout' := habout.sameWork hsame.symm
  have hdef' := definitionOf_of_required habout' hdef
  -- the plan of the journal runs the step that is RUNNING
  obtain ⟨step, value, sources, hplan', rfl⟩ := hinv.2 _ row w hrow hdef' s hrunning
  rw [hfresh trivial] at hplan
  cases hplan.symm.trans hplan'
  refine Delivered.grows ⟨row, w, hrow, hdef', ?_⟩ hg
  have hinput : inputFor (.runStep step value sources) step.id c = if sources = [] then c.input else value := by
    unfold inputFor
    by_cases hs : sources = [] <;> simp [hs]
  rw [hinput]
  exact receives_of_planNext (hf.graph hdef) hrow habout' hplan'

theorem fair_of_not_outdated {s : Roster V Unit (Notes V)} {a : Action V} (ha : s.outdated f.store a = false) :
    s.Fair (sharedDefinitions f).discipline (k, a) := by
  cases a with
  | main i now env =>
    intro q hq
    dsimp only [Roster.outdated] at ha
    rw [hq] at ha
    exact ha
  | _ => trivial

/-- What is delivered in a turn is what the step has to receive. -/
theorem delivered_of_sound (hf : f.Validated) {s : Roster V Unit (Notes V)} {held : ℕ → Set (String × ℕ)}
    (h : s.Sound (sharedDefinitions f).discipline held) {a : Action V} (ha : s.outdated f.store a = false)
    {id step : String} {v : V} (hd : s.delivers a = some (id, step, v)) : Delivered f (s.scene.record id) step v := by
  cases a with
  | main i now env =>
    have hfair := fair_of_not_outdated (k := ()) ha
    unfold Roster.delivers at hd
    dsimp only at hd
    split at hd
    · rename_i call c hq hc
      cases hd
      obtain ⟨-, c', hc', -, hstarted⟩ := h.asked hq now (hfair _ hq)
      cases hc.symm.trans hc'
      exact delivered_of_started hf hstarted
    · rename_i stepId value c hq hc
      cases hd
      obtain ⟨-, c', hc', hhas, hreconstructed⟩ := h.asked hq now (hfair _ hq)
      cases hc.symm.trans hc'
      refine delivered_of_reconstructed hf hhas.about (hreconstructed ?_)
      have hcurrent : (s.system.journal.record c.executionId).fence = c.fence := by
        have hreq : Request.outdated f.store s.system.journal (s.notes i) now (.reconcile step v) = false := hfair _ hq
        simpa [Request.outdated, hc] using hreq
      exact hcurrent
    · cases hd
  | _ => cases hd

end Delivers

/-- Everything delivered in a history is what its step has to receive. -/
theorem delivered_of_history (hf : f.Validated) {s : Roster V Unit (Notes V)} {l : List (Unit × Action V)}
    (h : ∃ held, s.Sound (sharedDefinitions f).discipline held)
    (hl : Steps (Roster.exec (sharedDefinitions f).discipline (sharedDefinitions f).fleet)
      (fun s x => s.outdated f.store x.2 = false) s l) {id step : String} {v : V} (hv : (id, step, v) ∈ deliveries f s l) :
    Delivered f ((after (Roster.exec (sharedDefinitions f).discipline (sharedDefinitions f).fleet) s l).scene.record id)
      step v := by
  induction l generalizing s with
  | nil => cases hv
  | cons x l ih =>
    obtain ⟨hx, hl⟩ := hl
    rcases List.mem_append.mp hv with hv | hv
    · obtain ⟨held, h⟩ := h
      exact (delivered_of_sound hf h hx (Option.mem_toList.mp hv)).grows (Roster.after_grows s (x :: l) id)
    · exact ih (Roster.exec_sound sharedDefinitions_kept h (fair_of_not_outdated hx)) hl hv

variable (f) in
/-- What a history of workers that share their definitions leads to. -/
def sharedHistory (l : List (Unit × Action V)) : Roster V Unit (Notes V) :=
  after (Roster.exec (sharedDefinitions f).discipline (sharedDefinitions f).fleet)
    (Roster.empty (sharedDefinitions f).discipline ()) l

/-- A step that has succeeded stays so, with its output, and is not started again. -/
theorem succeeded_stays {pre post : List (Unit × Action V)} {id s : String} {st : StepRow}
    (hst : ((sharedHistory f pre).system.journal.record id).steps s = some st) (hs : st.state = .succeeded) :
    (∃ st', ((sharedHistory f (pre ++ post)).system.journal.record id).steps s = some st' ∧
      st'.state = .succeeded ∧ st'.output = st.output) ∧
    ∀ (c : Claim V) (key : Option String) (now : Instant), c.executionId = id → ∃ e,
      (((Op.startStep c s key).txn f.store now).commit (sharedHistory f (pre ++ post)).system.journal).1 = .error e := by
  have hg := Roster.after_grows (D := (sharedDefinitions f).discipline) (f := (sharedDefinitions f).fleet)
    (sharedHistory f pre) post id
  rw [sharedHistory, ← after_append] at hg
  obtain ⟨st', hst', hstate, houtput⟩ := hg.resolved s st hst (hs ▸ by decide)
  refine ⟨⟨st', hst', hstate.trans hs, houtput⟩, ?_⟩
  rintro c key now rfl
  cases ha : (((Op.startStep c s key).txn f.store now).commit (sharedHistory f (pre ++ post)).system.journal).1 with
  | error e => exact ⟨e, rfl⟩
  | ok a =>
    obtain ⟨row, st'', -, hstep, -⟩ := JournalStore.run_startStep.mp (Txn.run_of_commit ha)
    cases hst'.symm.trans hstep.step_eq
    have hlegal := hstep.legal
    rw [hstate.trans hs] at hlegal
    cases hlegal

end History

/-- **Every attempt of a step sees the same input**, as long as no request is made on outdated reads: whatever is delivered
to a step or its reconciler is the input of the execution, or the output of the one succeeded source whose selected edge
leads to the step. -/
theorem same_input (f : Fleet V) (hf : f.Validated) (l : List (Unit × Action V))
    (hl : Steps (Roster.exec (sharedDefinitions f).discipline (sharedDefinitions f).fleet)
      (fun s x => s.outdated f.store x.2 = false) (Roster.empty (sharedDefinitions f).discipline ()) l) :
    (∀ id step v, (id, step, v) ∈ deliveries f (Roster.empty (sharedDefinitions f).discipline ()) l →
      Delivered f ((sharedHistory f l).system.journal.record id) step v) ∧
    (∀ id step v v', (id, step, v) ∈ deliveries f (Roster.empty (sharedDefinitions f).discipline ()) l →
      (id, step, v') ∈ deliveries f (Roster.empty (sharedDefinitions f).discipline ()) l → v = v') ∧
    ∀ pre post, l = pre ++ post → ∀ id s st,
      ((sharedHistory f pre).system.journal.record id).steps s = some st → st.state = .succeeded →
      (∃ st', ((sharedHistory f l).system.journal.record id).steps s = some st' ∧ st'.state = .succeeded ∧
        st'.output = st.output) ∧
      ∀ (c : Claim V) (key : Option String) (now : Instant), c.executionId = id → ∃ e,
        (((Op.startStep c s key).txn f.store now).commit (sharedHistory f l).system.journal).1 = .error e := by
  have hempty : ∃ held, (Roster.empty (sharedDefinitions f).discipline ()).Sound (sharedDefinitions f).discipline held :=
    ⟨_, Roster.empty_sound sharedDefinitions_kept ()⟩
  have hall : ∀ id step v, (id, step, v) ∈ deliveries f (Roster.empty (sharedDefinitions f).discipline ()) l →
      Delivered f ((sharedHistory f l).system.journal.record id) step v := fun id step v hv =>
    delivered_of_history hf hempty hl hv
  refine ⟨hall, fun id step v v' hv hv' => (hall id step v hv).unique (hall id step v' hv'), ?_⟩
  rintro pre post rfl id s st hst hs
  exact succeeded_stays hst hs

/-- `"a"` leads to `"b"`. -/
def chain : Workflow String :=
  { name := "w", steps := [{ id := "a" }, { id := "b" }], edges := [{ source := "a", target := "b" }] }

/-- Workers that ask a reconciler about interrupted attempts of the steps of `chain`. -/
def chainFleet : Fleet String where
  store := { textStore with digest := fun _ => "44874f81141487dfcf371690ae658f3925e183488df6491b79e11bc47c76fd10" }
  definitions _ _ := some chain
  activities _ := .reconcile
  owner _ := "o"

/-- Steps return `"out"`, and the reconciler says that an attempt has to be repeated. -/
def repeating : Env String where
  draw := 0
  outcome := .ok "\"out\""
  reconciled := .ok (.decided ⟨.pending, "null", none, by decide⟩)

/-- Worker 0 runs `"a"`, and dies in an attempt of `"b"`; worker 1 has that reconciled. -/
def takenOver : List (Unit × Action String) := List.map (Prod.mk ()) <| List.flatten [
  [.operate (.submit chain "\"in\"" none "e" none) 0, .runOnce 0],
  List.replicate 12 (.main 0 1 repeating), [.runOnce 0], List.replicate 7 (.main 0 1 repeating), [.crash 0, .runOnce 1],
  List.replicate 5 (.main 1 40000000 repeating)]

theorem same_input_takenOver :
    deliveries chainFleet (Roster.empty (sharedDefinitions chainFleet).discipline ()) takenOver =
      [("e", "a", "\"in\""), ("e", "b", "\"out\""), ("e", "b", "\"out\"")] ∧
    Delivered chainFleet ((sharedHistory chainFleet takenOver).system.journal.record "e") "b" "\"out\"" := by
  have hdelivered : deliveries chainFleet (Roster.empty (sharedDefinitions chainFleet).discipline ()) takenOver =
      [("e", "a", "\"in\""), ("e", "b", "\"out\""), ("e", "b", "\"out\"")] := by decide +kernel
  have hvalidated : chainFleet.Validated := by
    intro name version w hw
    cases hw
    decide +kernel
  refine ⟨hdelivered, (same_input chainFleet hvalidated takenOver (by decide +kernel)).1 "e" "b" _ ?_⟩
  rw [hdelivered]
  simp

/-- Worker 0 reads the states and is overtaken by worker 1, which runs `"a"` and starts `"b"`; then it reads the outputs and
the RUNNING steps. -/
def overtaken : List (Unit × Action String) := List.map (Prod.mk ()) <| List.flatten [
  [.operate (.submit chain "\"in\"" none "e" none) 0, .runOnce 0],
  List.replicate 2 (.main 0 1 repeating), [.runOnce 1], List.replicate 12 (.main 1 40000000 repeating), [.runOnce 1],
  List.replicate 7 (.main 1 40000001 repeating), List.replicate 3 (.main 0 40000002 repeating)]

theorem reconciled_with_other_input : ¬ ∀ id step v v',
    (id, step, v) ∈ deliveries chainFleet (Roster.empty (sharedDefinitions chainFleet).discipline ()) overtaken →
    (id, step, v') ∈ deliveries chainFleet (Roster.empty (sharedDefinitions chainFleet).discipline ()) overtaken →
    v = v' := by
  intro h
  have hout : ("e", "b", "\"out\"") ∈
      deliveries chainFleet (Roster.empty (sharedDefinitions chainFleet).discipline ()) overtaken := by decide +kernel
  have hin : ("e", "b", "\"in\"") ∈
      deliveries chainFleet (Roster.empty (sharedDefinitions chainFleet).discipline ()) overtaken := by decide +kernel
  exact absurd (h _ _ _ _ hout hin) (by decide)

end Xyberos.Durable
