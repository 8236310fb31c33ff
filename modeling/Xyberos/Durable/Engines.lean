import Xyberos.Durable.Plans
import Xyberos.Execution.Verdicts

/-!
# Xyberos.Durable.Engines — the scheduler and the engine in process agree

Iterating `plan_next` decides one step after the other.  What it has decided is always the state of consistent verdicts
(`Progress.of`), and so is what a run in process has decided; consistent verdicts agree, so the two engines end alike
(`engines_agree`), whatever order each takes the steps in.
-/

set_option autoImplicit false

namespace Xyberos.Durable

open Proc

variable {V : Type}

/-! ## Iterating `plan_next` -/

/-- The states and outputs of the steps, and the value each step that ran was given. -/
structure Progress (V : Type) where
  states : String → Option StepState := fun _ => none
  outputs : String → Option V := fun _ => none
  given : String → Option V := fun _ => none

/-- The step ran on the value and returned the output. -/
def Progress.run (p : Progress V) (stepId : String) (value output : V) : Progress V where
  states := mark p.states stepId .succeeded
  outputs s := if s = stepId then some output else p.outputs s
  given s := if s = stepId then some value else p.given s

/-- The step was skipped. -/
def Progress.skip (p : Progress V) (stepId : String) : Progress V :=
  { p with states := mark p.states stepId .skipped }

/-- How the iteration ends. -/
inductive Ending (V : Type)
  | completed (p : Progress V) (outputs : List (String × V))
  | conflict (step : Step V) (sources : List String)
  | undecided

/-- `plan_next` again and again, with the step of each plan run by `f` or skipped. -/
def iteratePlan (w : Workflow V) (null : V) (f : String → V → V) (input : V) :
    ℕ → Progress V → Except Exc (Ending V)
  | 0, _ => .ok .undecided
  | n + 1, p => do
    match ← planNext w null p.states p.outputs with
    | .runStep step value sources =>
      let value := if sources.isEmpty then input else value
      iteratePlan w null f input n (p.run step.id value (f step.id value))
    | .skipStep step _ => iteratePlan w null f input n (p.skip step.id)
    | .complete outputs _ => return .completed p outputs
    | .conflict step sources _ => return .conflict step sources
    | .needsDecision _ _ => return .undecided

/-! ## Verdicts as states -/

/-- The state of a step on which there is a verdict. -/
def stateOf : Execution.Verdict V → StepState
  | .ran _ _ => .succeeded
  | .skipped => .skipped

def outputOf : Execution.Verdict V → Option V
  | .ran _ output => some output
  | .skipped => none

def valueOf : Execution.Verdict V → Option V
  | .ran value _ => some value
  | .skipped => none

/-- The progress that verdicts stand for. -/
def Progress.of (D : Execution.Verdicts V) : Progress V where
  states s := (D s).map stateOf
  outputs s := (D s).bind outputOf
  given s := (D s).bind valueOf

section Of

variable {w : Workflow V} {null : V} {D : Execution.Verdicts V} {s : String}

theorem states_of : (Progress.of D).states s = (D s).map stateOf := rfl

theorem outputs_of : (Progress.of D).outputs s = (D s).bind outputOf := rfl

theorem given_of : (Progress.of D).given s = (D s).bind valueOf := rfl

theorem resolved_of : Resolved (Progress.of D).states s ↔ ∃ v, D s = some v := by
  rw [Resolved, states_of]
  cases D s with
  | none => simp [StepState.IsTerminal]
  | some v => cases v <;> simp [stateOf, StepState.IsTerminal]

/-- The rule of the two engines for the edge an output selects is the same. -/
theorem selectEdge_eq (output : V) (edges : List (Edge V)) :
    selectEdge output edges = Execution.selectEdge output edges := by
  induction edges with
  | nil => rfl
  | cons edge edges ih =>
    rw [selectEdge, ih]
    rfl

theorem taken_of {edge : Edge V} :
    Taken w null (Progress.of D).states (Progress.of D).outputs edge ↔ Execution.Chosen w D edge := by
  rw [Taken, Execution.Chosen, selectEdge_eq, Execution.selectEdge_eq_some_iff, states_of, outputs_of]
  cases D edge.source with
  | none => simp
  | some v =>
    cases v with
    | ran value output => simp [stateOf, outputOf]
    | skipped => simp [stateOf]

theorem run_of (value output : V) : (Progress.of D).run s value output =
    Progress.of fun t => if t = s then some (.ran value output) else D t := by
  unfold Progress.run Progress.of mark
  congr 1
  · funext t
    dsimp only
    split_ifs <;> rfl
  · funext t
    dsimp only
    split_ifs <;> rfl
  · funext t
    dsimp only
    split_ifs <;> rfl

theorem skip_of (hs : D s = none) : (Progress.of D).skip s =
    Progress.of fun t => if t = s then some .skipped else D t := by
  unfold Progress.skip Progress.of mark
  congr 1
  · funext t
    dsimp only
    split_ifs <;> rfl
  · funext t
    dsimp only
    split_ifs with ht
    · rw [ht, hs]
      rfl
    · rfl
  · funext t
    dsimp only
    split_ifs with ht
    · rw [ht, hs]
      rfl
    · rfl

end Of

/-! ## The iteration -/

/-- How an iteration may end. -/
def EndsWell (w : Workflow V) (D : Execution.Verdicts V) (ending : Except Exc (Ending V)) : Prop :=
  (Execution.Complete w D ∧ ending = .ok (.completed (Progress.of D)
      (w.exits.filterMap fun step => ((Progress.of D).outputs step.id).map fun v => (step.id, v)))) ∨
    Execution.Contested w D ∧ ∃ step sources, ending = .ok (.conflict step sources)

/-- **The iteration** goes from consistent verdicts to consistent verdicts, and ends. -/
theorem iteratePlan_ends {w : Workflow V} (hg : w.Graph) (ht : w.Total) (null : V) (f : String → V → V)
    (input : V) (n : ℕ) {D : Execution.Verdicts V} (hD : Execution.Consistent w f input D)
    (hn : (unresolved w (Progress.of D).states).length < n) :
    ∃ D', Execution.Consistent w f input D' ∧ EndsWell w D' (iteratePlan w null f input n (Progress.of D)) := by
  induction n generalizing D with
  | zero => omega
  | succ n ih =>
    obtain ⟨plan, hplan⟩ := planNext_total hg ht null (Progress.of D).states (Progress.of D).outputs
    have hfollows := (planNext_follows hg hplan).congr fun e _ => taken_of
    unfold iteratePlan
    rw [hplan]
    -- a step whose turn it is has no verdict yet, and its sources have theirs
    have hundecided : ∀ {step : Step V}, ¬ Resolved (Progress.of D).states step.id → D step.id = none := by
      intro step hres
      rw [resolved_of, not_exists] at hres
      exact Option.eq_none_iff_forall_ne_some.mpr hres
    have hsources : ∀ {step : Step V}, (∀ e ∈ w.incoming step.id, Resolved (Progress.of D).states e.source) →
        ∀ t ∈ w.sources step.id, ∃ v, D t = some v := by
      intro step hres t ht
      obtain ⟨e, he, rfl⟩ := List.mem_map.mp ht
      exact resolved_of.mp (hres e he)
    cases plan with
    | runStep step value sources =>
      obtain ⟨⟨hstep, hopen, -⟩, hres, hvalue⟩ := hfollows
      have hlt := length_unresolved_mark hstep hopen (show StepState.succeeded.IsTerminal by simp [StepState.IsTerminal])
      have hjustified : Execution.Justified w f input D step.id (.ran (if sources.isEmpty then input else value)
          (f step.id (if sources.isEmpty then input else value))) := by
        rcases hvalue with ⟨hin, rfl, -⟩ | ⟨e, he, honly, rfl, rfl⟩
        · exact .entry hin
        · obtain ⟨v, output, hv, -⟩ := (honly e he).mpr rfl
          rw [outputs_of, hv]
          exact .edge he honly hv
      have hD' := hD.extend (hundecided hopen) (List.mem_map_of_mem hstep) (hsources hres) hjustified
      show ∃ D', _ ∧ EndsWell w D' (iteratePlan w null f input n ((Progress.of D).run step.id _ _))
      rw [run_of]
      refine ih hD' ?_
      rw [← run_of]
      exact lt_of_lt_of_le hlt (Nat.le_of_lt_succ hn)
    | skipStep step reason =>
      obtain ⟨⟨hstep, hopen, -⟩, hres, hne, hno⟩ := hfollows
      have hlt := length_unresolved_mark hstep hopen (show StepState.skipped.IsTerminal by simp [StepState.IsTerminal])
      have hD' := hD.extend (hundecided hopen) (List.mem_map_of_mem hstep) (hsources hres) (.skipped hne hno)
      show ∃ D', _ ∧ EndsWell w D' (iteratePlan w null f input n ((Progress.of D).skip step.id))
      rw [skip_of (hundecided hopen)]
      refine ih hD' ?_
      rw [← skip_of (hundecided hopen)]
      exact lt_of_lt_of_le hlt (Nat.le_of_lt_succ hn)
    | complete results reason =>
      obtain ⟨hall, rfl⟩ := hfollows
      refine ⟨D, hD, .inl ⟨fun s hs => ?_, rfl⟩⟩
      obtain ⟨step, hstep, rfl⟩ := List.mem_map.mp hs
      exact resolved_of.mp (hall step hstep)
    | conflict step sources reason =>
      obtain ⟨-, e, he, e', he', hne, hc, hc', -⟩ := hfollows
      exact ⟨D, hD, .inr ⟨⟨step.id, e, he, e', he', hne, hc, hc'⟩, step, sources, rfl⟩⟩
    | needsDecision step reason =>
      obtain ⟨-, -, hunknown⟩ := hfollows
      rw [Unknown, states_of] at hunknown
      cases hv : D step.id with
      | none =>
        rw [hv] at hunknown
        cases hunknown
      | some v =>
        rw [hv] at hunknown
        cases v <;> cases hunknown

/-! ## Agreement -/

/-- The scheduler's progress and the result of a run in process show the same course: the same steps ran, the same
were skipped, each was given the same value, and the exits returned the same. -/
structure SameCourse (p : Progress V) (outputs : List (String × V)) (h : Execution.History V)
    (result : Execution.WorkflowResult V) : Prop where
  ran : ∀ s, p.states s = some .succeeded ↔ ∃ o, result.steps.get? s = some o ∧ o.status = .succeeded
  skipped : ∀ s, p.states s = some .skipped ↔ ∃ o, result.steps.get? s = some o ∧ o.status = .skipped
  given : ∀ s value, p.given s = some value ↔ ∃ c ∈ Execution.trials h, c.1.step = s ∧ c.1.value = value
  outputs : ∀ s, outputs.lookup s = result.outputs.get? s

section Agreement

variable {x : Execution.WorkflowExecutor V} {w : Workflow V} {f : String → V → V} {input : V}
  {h : Execution.History V} {result : Execution.WorkflowResult V}

theorem lookup_results (g : String → Option V) (steps : List (Step V)) (s : String) :
    (steps.filterMap fun step => (g step.id).map fun v => (step.id, v)).lookup s =
      if s ∈ steps.map Step.id then g s else none := by
  induction steps with
  | nil => rfl
  | cons step steps ih =>
    cases hg : g step.id with
    | none =>
      rw [List.filterMap_cons_none (by rw [hg]; rfl), ih, List.map_cons]
      by_cases hs : s = step.id
      · rw [hs, hg]
        simp
      · simp [hs]
    | some v =>
      rw [List.filterMap_cons_some (by rw [hg]; rfl), List.lookup_cons, ih, List.map_cons]
      by_cases hs : s = step.id
      · simp [hs, hg]
      · simp [hs, beq_false_of_ne hs]

/-- Every attempt was given the value its step ran on. -/
theorem value_of_trial (hm : Execution.Meaning w input h result)
    (hD : Execution.Consistent w f input (Execution.verdicts x h result.steps)) {c : Execution.Trial V}
    (hc : c ∈ Execution.trials h) :
    ∃ output, Execution.verdicts x h result.steps c.1.step = some (.ran c.1.value output) := by
  obtain ⟨o, ho, hstatus⟩ := hm.ran c hc
  have hv := Execution.verdicts_of_succeeded (x := x) (h := h) ho hstatus
  refine ⟨o.output, ?_⟩
  have hjustified := hD.justified _ _ hv
  generalize hgiven : Execution.given x h c.1.step = value at hv hjustified
  generalize o.output = output at hv hjustified
  rw [hv]
  refine congrArg (fun value => some (Execution.Verdict.ran value output)) ?_
  cases hjustified with
  | entry hin =>
    rcases hm.received c hc with ⟨-, hinput⟩ | ⟨edge, hedge, -⟩
    · exact hinput.symm
    · rw [hin] at hedge
      cases hedge
  | edge mem only source =>
    rcases hm.received c hc with ⟨hin, -⟩ | ⟨edge, hedge, o', ho', hselected, hvalue⟩
    · rw [hin] at mem
      cases mem
    · obtain rfl := (only edge hedge).mp (Execution.chosen_verdicts.mpr hselected)
      obtain ⟨o'', ho'', -, rfl, -⟩ := Execution.verdicts_ran source
      obtain rfl := Option.some.inj (ho'.symm.trans ho'')
      exact hvalue.symm

theorem sameCourse_of_verdicts (hm : Execution.Meaning w input h result)
    (hD : Execution.Consistent w f input (Execution.verdicts x h result.steps)) :
    SameCourse (Progress.of (Execution.verdicts x h result.steps))
      (w.exits.filterMap fun step => ((Progress.of (Execution.verdicts x h result.steps)).outputs step.id).map
        fun v => (step.id, v)) h result := by
  have houtput : ∀ s v, (Progress.of (Execution.verdicts x h result.steps)).outputs s = some v ↔
      ∃ o, result.steps.get? s = some o ∧ o.status = .succeeded ∧ o.output = v := by
    intro s v
    rw [outputs_of, Execution.verdicts]
    cases result.steps.get? s with
    | none => simp
    | some o => by_cases hstatus : o.status = .succeeded <;> simp [hstatus, outputOf]
  refine ⟨fun s => ?_, fun s => ?_, fun s value => ?_, fun s => ?_⟩
  · rw [states_of, Execution.verdicts]
    cases result.steps.get? s with
    | none => simp
    | some o => by_cases hstatus : o.status = .succeeded <;> simp [hstatus, stateOf]
  · rw [states_of, Execution.verdicts]
    cases ho : result.steps.get? s with
    | none => simp
    | some o =>
      rcases (hm.settled s o ho).status with hstatus | hstatus <;> simp [hstatus, stateOf]
  · constructor
    · intro hgiven
      obtain ⟨verdict, hv, hvalue⟩ := Option.bind_eq_some_iff.mp (given_of.symm.trans hgiven)
      cases verdict with
      | skipped => cases hvalue
      | ran value' output =>
        obtain rfl := Option.some.inj hvalue
        obtain ⟨o, ho, hstatus, -, -⟩ := Execution.verdicts_ran hv
        have hreturns := hm.once s o ho
        rw [if_pos hstatus] at hreturns
        obtain ⟨c, hc, hret⟩ := List.mem_filterMap.mp (hreturns ▸ List.mem_singleton_self o.output)
        have hstep := Execution.step_of_returned hret
        obtain ⟨output', hv'⟩ := value_of_trial hm hD hc
        rw [hstep, hv] at hv'
        exact ⟨c, hc, hstep, (Execution.Verdict.ran.inj (Option.some.inj hv')).1.symm⟩
    · rintro ⟨c, hc, rfl, rfl⟩
      obtain ⟨output, hv⟩ := value_of_trial hm hD hc
      rw [given_of, hv]
      rfl
  · rw [lookup_results]
    refine Option.ext fun v => ?_
    rw [hm.outputs s v, ← houtput s v]
    split_ifs with hexit
    · obtain ⟨step, hstep, rfl⟩ := List.mem_map.mp hexit
      have hnil : w.outgoing step.id = [] := by simpa using (List.mem_filter.mp hstep).2
      exact (and_iff_right hnil).symm
    · refine iff_of_false (by simp) ?_
      rintro ⟨hnil, hv⟩
      obtain ⟨o, ho, -⟩ := (houtput s v).mp hv
      obtain ⟨step, hstep, rfl⟩ := List.mem_map.mp (hm.steps.mem_iff.mp (Dict.mem_keys.mpr ⟨o, ho⟩))
      exact hexit (List.mem_map_of_mem (List.mem_filter.mpr ⟨hstep, by rw [hnil]; rfl⟩))

end Agreement

/-- **The two engines agree.**  For every definition that is accepted, with total predicates and steps that are functions
of what they are given: on an input of the declared type the iteration ends in a conflict exactly when the run fails
because two branches reach a step, it completes exactly when the run returns a result, and then both show the same
course. -/
theorem engines_agree {x : Execution.WorkflowExecutor V} {w : Workflow V} (hv : w.validate = .ok ())
    (ht : w.Total) (f : String → V → V) (input : V)
    (haccepted : ∀ type ∈ w.inputType, type.isInstance input = true) {h : Execution.History V}
    {r : Except (Execution.Thrown V) (Execution.WorkflowResult V)}
    (hrun : Traced (Execution.Functional f) (x.run w input none) h r) :
    ((∃ step sources, iteratePlan w x.null f input (w.steps.length + 1) {} = .ok (.conflict step sources)) ↔
      ∃ e, r = .error (.execution e) ∧ Execution.Merges e) ∧
    ((∃ p outputs, iteratePlan w x.null f input (w.steps.length + 1) {} = .ok (.completed p outputs)) ↔
      ∃ result, r = .ok result) ∧
    ∀ p outputs result, iteratePlan w x.null f input (w.steps.length + 1) {} = .ok (.completed p outputs) →
      r = .ok result → SameCourse p outputs h result := by
  have hg := graph_of_validate hv
  have hempty : Execution.Consistent w f input fun _ => none := ⟨nofun, nofun, nofun⟩
  have hfuel : (unresolved w (Progress.of (fun _ => none : Execution.Verdicts V)).states).length < w.steps.length + 1 :=
    Nat.lt_succ_of_le (List.length_filter_le _ _)
  obtain ⟨D, hD, hends⟩ := iteratePlan_ends hg ht x.null f input _ hempty hfuel
  have hstart : (Progress.of (fun _ => none : Execution.Verdicts V)) = {} := rfl
  rw [hstart] at hends
  rcases Execution.run_functional hv ht haccepted hrun with ⟨result, rfl, hm, hD'⟩ | ⟨⟨e, rfl, he⟩, D', hD', hcontested⟩
  · -- the run returned a result
    have hcomplete : Execution.Complete w (Execution.verdicts x h result.steps) := by
      intro s hs
      obtain ⟨o, ho⟩ := Dict.mem_keys.mp (hm.steps.mem_iff.mpr hs)
      rw [Execution.verdicts, ho]
      exact ⟨_, rfl⟩
    rcases hends with ⟨hall, hend⟩ | ⟨hcontested, step, sources, hend⟩
    · obtain rfl := hD.eq_of_complete hg hD' hall hcomplete
      rw [hend]
      refine ⟨iff_of_false (fun h => ?_) (fun h => ?_), iff_of_true ⟨_, _, rfl⟩ ⟨_, rfl⟩, ?_⟩
      · obtain ⟨step, sources, h⟩ := h
        cases h
      · obtain ⟨e, h, -⟩ := h
        cases h
      · intro p outputs result' hp hr
        obtain ⟨rfl, rfl⟩ := Ending.completed.inj (Except.ok.inj hp)
        obtain rfl := Except.ok.inj hr
        exact sameCourse_of_verdicts hm hD'
    · obtain ⟨s, e, he, e', he', hne, hc, hc'⟩ := hcontested
      exact (hD.no_conflict hg hD' hcomplete he he' hne hc hc').elim
  · -- two branches reached a step
    rcases hends with ⟨hall, hend⟩ | ⟨-, step, sources, hend⟩
    · obtain ⟨s, e, he, e', he', hne, hc, hc'⟩ := hcontested
      exact (hD'.no_conflict hg hD hall he he' hne hc hc').elim
    · rw [hend]
      refine ⟨iff_of_true ⟨step, sources, rfl⟩ ⟨e, rfl, he⟩, iff_of_false (fun h => ?_) (fun h => ?_), ?_⟩
      · obtain ⟨p, outputs, h⟩ := h
        cases h
      · obtain ⟨result, h⟩ := h
        cases h
      · intro p outputs result hp
        cases hp

theorem engines_agree_fork : ∃ h r, Traced (Execution.Functional fun _ n => n + 1)
    (Execution.numbers.run Execution.fork 3 none) h r ∧ ∃ p outputs result,
      iteratePlan Execution.fork 0 (fun _ n => n + 1) 3 5 {} = .ok (.completed p outputs) ∧ r = .ok result ∧
        SameCourse p outputs h result := by
  have hended : ((Execution.numbers.run Execution.fork 3 none).replay Execution.addsOne).2.toOption.isSome := by
    decide +kernel
  have hanswers : ∀ q, Execution.Functional (fun _ n => n + 1) q (Execution.addsOne q) := by
    intro q
    cases q <;> first | rfl | trivial
  have htraced := traced_replay hanswers (Execution.numbers.run Execution.fork 3 none)
  obtain ⟨-, hcompleted, hsame⟩ := engines_agree (by decide +kernel) Execution.total_fork _ 3 nofun htraced
  cases hr : ((Execution.numbers.run Execution.fork 3 none).replay Execution.addsOne).2 with
  | error e =>
    rw [hr] at hended
    cases hended
  | ok result =>
    obtain ⟨p, outputs, hend⟩ := hcompleted.mpr ⟨result, hr⟩
    rw [hr] at htraced
    exact ⟨_, _, htraced, p, outputs, result, hend, rfl, hsame p outputs result hend hr⟩

/-- Two entries that lead to one step, on inputs that are not `None`. -/
def meeting : Workflow (Option ℕ) where
  name := "meeting"
  inputType := some { name := "int", isInstance := Option.isSome }
  steps := [{ id := "a" }, { id := "b" }, { id := "c" }]
  edges := [{ source := "a", target := "c" }, { source := "b", target := "c" }]

/-- An executor of numbers and `None`. -/
def optionalNumbers : Execution.WorkflowExecutor (Option ℕ) where
  null := none
  typeName value := if value.isSome then "int" else "NoneType"
  formatG _ := "0"
  reprFloat _ := "0.0"

/-- On an input of another type the run fails before any branch is taken, and the iteration ends in a conflict. -/
theorem conflict_without_failure : meeting.validate = .ok () ∧ meeting.Total ∧
    (∃ step sources, iteratePlan meeting none (fun _ v => v) none 4 {} = .ok (.conflict step sources)) ∧
    ∃ h r, Traced (Execution.Functional fun _ v => v) (optionalNumbers.run meeting none none) h r ∧
      ¬ ∃ e, r = .error (.execution e) ∧ Execution.Merges e := by
  have hv : meeting.validate = .ok () := by decide +kernel
  have hraise : ∃ e : Execution.ExecutionError (Option ℕ),
      optionalNumbers.run meeting none none = .raise (.execution e) ∧ e.step = none := by
    unfold Execution.WorkflowExecutor.run
    rw [hv]
    exact ⟨_, rfl, rfl⟩
  have htotal : meeting.Total := by
    intro e he p hp
    simp only [meeting, List.mem_cons, List.not_mem_nil, or_false] at he
    rcases he with rfl | rfl
    · cases hp
    · cases hp
  obtain ⟨e, hrun, hstep⟩ := hraise
  refine ⟨hv, htotal, ⟨_, _, rfl⟩, [], .error (.execution e), ?_, ?_⟩
  · rw [hrun]
    exact .raise
  · rintro ⟨e', he, s, sources, hs, -⟩
    obtain rfl := Execution.Thrown.execution.inj (Except.error.inj he)
    rw [hstep] at hs
    cases hs

end Xyberos.Durable
