import Xyberos.Durable.Runs
import Xyberos.Durable.Worker
import Xyberos.Execution.Graph

/-!
# Xyberos.Durable.Plans — what `plan_next` decides

`Plan.Follows` says what a plan means for the states and outputs it was made from; every plan of `plan_next` follows
(`planNext_follows`).  On a validated definition with total predicates there always is a plan (`planNext_total`): the
least unresolved step of the graph has only resolved sources, so the loop does not pass it by, wherever it stands in
the declaration.  `plan_next_progress` puts this together, with what it means for the loop of `run_once`.
-/

set_option autoImplicit false

namespace Xyberos.Durable

variable {V : Type}

/-- The step is SUCCEEDED, SKIPPED or FAILED. -/
def Resolved (states : String → Option StepState) (stepId : String) : Prop :=
  ((states stepId).getD .pending).IsTerminal

instance (states : String → Option StepState) (stepId : String) : Decidable (Resolved states stepId) :=
  inferInstanceAs (Decidable (StepState.IsTerminal _))

/-- The step is in an unknown outcome. -/
def Unknown (states : String → Option StepState) (stepId : String) : Prop :=
  (states stepId).getD .pending = .outcomeUnknown

/-! ## The edges taken -/

section Select

variable {edges : List (Edge V)} {e : Edge V} {v : V}

theorem selectEdge_mem (h : selectEdge v edges = .ok (some e)) : e ∈ edges := by
  induction edges with
  | nil => cases h
  | cons edge rest ih =>
    unfold selectEdge at h
    split at h
    · cases h
      exact List.mem_cons_self
    · rename_i p _
      cases hp : p v with
      | error err =>
        rw [hp] at h
        cases h
      | ok b =>
        rw [hp] at h
        cases b with
        | true =>
          cases h
          exact List.mem_cons_self
        | false => exact List.mem_cons_of_mem _ (ih h)

theorem selectEdge_total (h : ∀ e ∈ edges, ∀ p, e.when = some p → ∀ v, ∃ b, p v = .ok b) (v : V) :
    ∃ e?, selectEdge v edges = .ok e? := by
  induction edges with
  | nil => exact ⟨none, rfl⟩
  | cons edge rest ih =>
    unfold selectEdge
    split
    · exact ⟨_, rfl⟩
    · rename_i p hp
      obtain ⟨b, hb⟩ := h edge List.mem_cons_self p hp v
      rw [hb]
      cases b with
      | true => exact ⟨_, rfl⟩
      | false => exact ih fun e he => h e (List.mem_cons_of_mem _ he)

end Select

section Plans

variable (w : Workflow V) (null : V) (states : String → Option StepState) (outputs : String → Option V)

/-- The edge was selected by the output of its source, which has succeeded. -/
def Taken (e : Edge V) : Prop :=
  (states e.source).getD .pending = .succeeded ∧
    selectEdge ((outputs e.source).getD null) (w.outgoing e.source) = .ok (some e)

/-- What a plan means, if the edges with `T` are taken. -/
def Plan.Follows (T : Edge V → Prop) : Plan V → Prop
  | .runStep step value sources =>
    (step ∈ w.steps ∧ ¬ Resolved states step.id ∧ ¬ Unknown states step.id) ∧
    (∀ e ∈ w.incoming step.id, Resolved states e.source) ∧
    (w.incoming step.id = [] ∧ sources = [] ∧ value = null ∨
      ∃ e ∈ w.incoming step.id, (∀ e' ∈ w.incoming step.id, T e' ↔ e' = e) ∧ sources = [e.source] ∧
        value = (outputs e.source).getD null)
  | .skipStep step _ =>
    (step ∈ w.steps ∧ ¬ Resolved states step.id ∧ ¬ Unknown states step.id) ∧
    (∀ e ∈ w.incoming step.id, Resolved states e.source) ∧
    w.incoming step.id ≠ [] ∧ ∀ e ∈ w.incoming step.id, ¬ T e
  | .complete results _ =>
    (∀ step ∈ w.steps, Resolved states step.id) ∧
    results = w.exits.filterMap fun step => (outputs step.id).map fun v => (step.id, v)
  | .conflict step sources _ =>
    (step ∈ w.steps ∧ ¬ Resolved states step.id ∧ ¬ Unknown states step.id) ∧
    ∃ e ∈ w.incoming step.id, ∃ e' ∈ w.incoming step.id, e ≠ e' ∧ T e ∧ T e' ∧
      e.source ∈ sources ∧ e'.source ∈ sources
  | .needsDecision step _ => step ∈ w.steps ∧ ¬ Resolved states step.id ∧ Unknown states step.id

variable {w null states outputs}

theorem Plan.Follows.congr {T T' : Edge V → Prop} {plan : Plan V} (h : plan.Follows w null states outputs T)
    (hT : ∀ e ∈ w.edges, T e ↔ T' e) : plan.Follows w null states outputs T' := by
  have hin : ∀ s, ∀ e ∈ w.incoming s, T e ↔ T' e := fun s e he => hT e (Workflow.mem_incoming.mp he).1
  cases plan with
  | runStep step value sources =>
    obtain ⟨hstep, hres, hvalue⟩ := h
    refine ⟨hstep, hres, hvalue.imp_right ?_⟩
    rintro ⟨e, he, honly, hsources⟩
    exact ⟨e, he, fun e' he' => (hin _ e' he').symm.trans (honly e' he'), hsources⟩
  | skipStep step reason =>
    obtain ⟨hstep, hres, hne, hnone⟩ := h
    exact ⟨hstep, hres, hne, fun e he ht => hnone e he ((hin _ e he).mpr ht)⟩
  | complete results reason => exact h
  | conflict step sources reason =>
    obtain ⟨hstep, e, he, e', he', hne, ht, ht', hsources⟩ := h
    exact ⟨hstep, e, he, e', he', hne, (hin _ e he).mp ht, (hin _ e' he').mp ht', hsources⟩
  | needsDecision step reason => exact h

/-- `_taken_edges` returns the pairs of the edges taken. -/
theorem takenEdges_spec {steps : List (Step V)} {taken : List (String × String)}
    (h : takenEdges w null states outputs steps = .ok taken) (a : String × String) :
    a ∈ taken ↔ ∃ step ∈ steps, (states step.id).getD .pending = .succeeded ∧ ∃ e,
      selectEdge ((outputs step.id).getD null) (w.outgoing step.id) = .ok (some e) ∧ a = (e.source, e.target) := by
  induction steps generalizing taken with
  | nil =>
    cases h
    simp
  | cons step rest ih =>
    unfold takenEdges at h
    split_ifs at h with hs
    · simp only [ih h, List.exists_mem_cons_iff, hs, false_and, false_or]
    · cases hsel : selectEdge ((outputs step.id).getD null) (w.outgoing step.id) with
      | error e =>
        rw [hsel] at h
        cases h
      | ok selected =>
        cases hrest : takenEdges w null states outputs rest with
        | error e =>
          rw [hsel, hrest] at h
          cases h
        | ok taken' =>
          rw [hsel, hrest] at h
          cases h
          rw [List.mem_append, ih hrest, List.exists_mem_cons_iff]
          refine or_congr ?_ Iff.rfl
          rw [hsel]
          cases selected with
          | none => simp
          | some e => simp [not_not.mp hs]

theorem takenEdges_total (ht : w.Total) (steps : List (Step V)) :
    ∃ taken, takenEdges w null states outputs steps = .ok taken := by
  induction steps with
  | nil => exact ⟨[], rfl⟩
  | cons step rest ih =>
    obtain ⟨taken, htaken⟩ := ih
    obtain ⟨selected, hsel⟩ := selectEdge_total
      (fun e he => ht e (Workflow.mem_outgoing.mp he).1) ((outputs step.id).getD null)
    unfold takenEdges
    split_ifs
    · exact ⟨taken, htaken⟩
    · rw [hsel, htaken]
      exact ⟨_, rfl⟩

/-- In a graph, the pair of an edge says whether it was taken. -/
theorem mem_taken_iff (hg : w.Graph) {taken : List (String × String)}
    (h : takenEdges w null states outputs w.steps = .ok taken) {e : Edge V} (he : e ∈ w.edges) :
    (e.source, e.target) ∈ taken ↔ Taken w null states outputs e := by
  rw [takenEdges_spec h]
  constructor
  · rintro ⟨step, -, hs, e', hsel, hpair⟩
    obtain ⟨hsource, htarget⟩ := Prod.mk.inj hpair
    obtain ⟨he', hid⟩ := Workflow.mem_outgoing.mp (selectEdge_mem hsel)
    obtain rfl : e = e' := Workflow.eq_of_distinct hg.distinct he he' hsource htarget
    rw [Taken, hid]
    exact ⟨hs, hsel⟩
  · rintro ⟨hs, hsel⟩
    obtain ⟨step, hstep, hid⟩ := List.mem_map.mp (hg.source_mem e he)
    exact ⟨step, hstep, hid ▸ hs, e, hid ▸ hsel, rfl⟩

/-! ## The loop over the steps -/

/-- The loop passes the step by: it is resolved, or one of its sources is not. -/
def Passed (w : Workflow V) (states : String → Option StepState) (stepId : String) : Prop :=
  Resolved states stepId ∨ ¬ Unknown states stepId ∧ ∃ e ∈ w.incoming stepId, ¬ Resolved states e.source

/-- The loop decides at the first step that it does not pass by. -/
theorem planSteps_cases (hg : w.Graph) (taken : List (String × String)) {steps : List (Step V)} (hsteps : ∀ s ∈ steps, s ∈ w.steps)
    (undecided : Bool) :
    (∃ plan, planSteps w null states outputs taken steps undecided = .ok plan ∧
      (∀ results reason, plan ≠ .complete results reason) ∧
      plan.Follows w null states outputs fun e => (e.source, e.target) ∈ taken) ∨
    (∀ s ∈ steps, Passed w states s.id) ∧ planSteps w null states outputs taken steps undecided =
      planSteps w null states outputs taken [] (undecided || steps.any fun s => ¬ Resolved states s.id) := by
  induction steps generalizing undecided with
  | nil => exact .inr ⟨by simp, by simp⟩
  | cons step rest ih =>
    have hstep : step ∈ w.steps := hsteps step List.mem_cons_self
    have hrest : ∀ s ∈ rest, s ∈ w.steps := fun s hs => hsteps s (List.mem_cons_of_mem _ hs)
    generalize hend : planSteps w null states outputs taken [] _ = ending
    unfold planSteps
    dsimp only
    split_ifs with hterm hunknown hmany hopen
    · -- the step is resolved
      have hres : Resolved states step.id := hterm
      rcases ih hrest undecided with h | ⟨hall, heq⟩
      · exact .inl h
      · exact .inr ⟨List.forall_mem_cons.mpr ⟨.inl hres, hall⟩, by simp [heq, ← hend, hres]⟩
    · refine .inl ⟨_, rfl, fun _ _ h => (nomatch h), ?_⟩
      exact ⟨hstep, hterm, hunknown⟩
    · -- two edges reached the step
      refine .inl ⟨_, rfl, fun _ _ h => (nomatch h), ?_⟩
      have hnodup : ((w.incoming step.id).filter fun e => (e.source, e.target) ∈ taken).Nodup :=
        ((List.Nodup.of_map _ hg.distinct).filter _).filter _
      rw [List.length_map] at hmany
      refine ⟨⟨hstep, hterm, hunknown⟩, ?_⟩
      generalize hf : (w.incoming step.id).filter (fun e => (e.source, e.target) ∈ taken) = reached at *
      have hmem : ∀ e ∈ reached, e ∈ w.incoming step.id ∧ (e.source, e.target) ∈ taken := by
        intro e he
        rw [← hf] at he
        simpa using List.mem_filter.mp he
      match reached with
      | [] => simp at hmany
      | [e] => simp at hmany
      | e :: e' :: rest' =>
        obtain ⟨he, ht⟩ := hmem e (by simp)
        obtain ⟨he', ht'⟩ := hmem e' (by simp)
        refine ⟨e, he, e', he', ?_, ht, ht', ?_, ?_⟩
        · rintro rfl
          simp at hnodup
        · simp [List.mem_insertionSort]
        · simp [List.mem_insertionSort]
    · -- a source is still to come
      have hnot : ¬ Resolved states step.id := hterm
      rcases ih hrest true with h | ⟨hall, heq⟩
      · exact .inl h
      · exact .inr ⟨List.forall_mem_cons.mpr ⟨.inr ⟨hunknown, hopen⟩, hall⟩, by simp [heq, ← hend, hnot]⟩
    · -- at most one edge reached the step, and every source is resolved
      have hsources : ∀ e ∈ w.incoming step.id, Resolved states e.source := by
        push Not at hopen
        exact hopen
      left
      have hfilter : ∀ e ∈ w.incoming step.id, (e.source, e.target) ∈ taken ↔
          e ∈ (w.incoming step.id).filter fun e => (e.source, e.target) ∈ taken := by
        intro e he
        simp [he]
      generalize hf : (w.incoming step.id).filter (fun e => (e.source, e.target) ∈ taken) = reached at *
      have hin : ∀ e ∈ reached, e ∈ w.incoming step.id := fun e he => List.mem_of_mem_filter (hf ▸ he)
      rw [List.length_map] at hmany
      match hinc : w.incoming step.id, reached with
      | [], [] =>
        refine ⟨_, rfl, fun _ _ h => (nomatch h), ?_⟩
        exact ⟨⟨hstep, hterm, hunknown⟩, hsources, .inl ⟨hinc, rfl, rfl⟩⟩
      | [], e :: _ =>
        have he := hin e List.mem_cons_self
        rw [hinc] at he
        cases he
      | _ :: _, [] =>
        refine ⟨_, rfl, fun _ _ h => (nomatch h), ?_⟩
        exact ⟨⟨hstep, hterm, hunknown⟩, hsources, by simp [hinc], fun e he ht => by simpa using (hfilter e he).mp ht⟩
      | _ :: _, [e] =>
        refine ⟨_, rfl, fun _ _ h => (nomatch h), ?_⟩
        refine ⟨⟨hstep, hterm, hunknown⟩, hsources, .inr ⟨e, hin e (by simp), fun e' he' => ?_, rfl, rfl⟩⟩
        exact (hfilter e' he').trans List.mem_singleton
      | _ :: _, _ :: _ :: _ => simp at hmany

/-- **Every plan follows** from the states and outputs it was made from. -/
theorem planNext_follows (hg : w.Graph) {plan : Plan V} (h : planNext w null states outputs = .ok plan) :
    plan.Follows w null states outputs (Taken w null states outputs) := by
  unfold planNext at h
  cases ht : takenEdges w null states outputs w.steps with
  | error e =>
    rw [ht] at h
    cases h
  | ok taken =>
    rw [ht] at h
    have hplan : planSteps w null states outputs taken w.steps false = .ok plan := h
    rcases planSteps_cases hg taken (fun _ hs => hs) false with ⟨plan', heq, -, hfollows⟩ | ⟨-, heq⟩
    · cases hplan.symm.trans heq
      exact hfollows.congr fun e he => mem_taken_iff hg ht he
    · rw [heq, planSteps] at hplan
      split_ifs at hplan with hundecided
      cases hplan
      refine ⟨fun step hstep => ?_, rfl⟩
      by_contra hn
      exact hundecided (by simpa using ⟨step, hstep, hn⟩)

/-- Every step the loop went over is resolved when the plan is to complete; this needs no graph. -/
theorem resolved_of_complete {taken : List (String × String)} {steps : List (Step V)} {undecided : Bool}
    {results : List (String × V)} {reason : String}
    (h : planSteps w null states outputs taken steps undecided = .ok (.complete results reason)) :
    undecided = false ∧ ∀ s ∈ steps, Resolved states s.id := by
  induction steps generalizing undecided with
  | nil =>
    unfold planSteps at h
    split_ifs at h with hu
    exact ⟨by simpa using hu, by simp⟩
  | cons step rest ih =>
    unfold planSteps at h
    dsimp only at h
    split_ifs at h with hterm hunknown hmany hopen
    · obtain ⟨hu, hrest⟩ := ih h
      exact ⟨hu, List.forall_mem_cons.mpr ⟨hterm, hrest⟩⟩
    · cases h
    · cases h
    · obtain ⟨hu, -⟩ := ih h
      cases hu
    · split at h <;> cases h

theorem planNext_complete {results : List (String × V)} {reason : String}
    (h : planNext w null states outputs = .ok (.complete results reason)) : ∀ s ∈ w.steps, Resolved states s.id := by
  unfold planNext at h
  cases ht : takenEdges w null states outputs w.steps with
  | error e =>
    rw [ht] at h
    cases h
  | ok taken =>
    rw [ht] at h
    exact (resolved_of_complete h).2

/-- On an acyclic graph some unresolved step is not passed by. -/
theorem resolved_of_passed (hg : w.Graph) (h : ∀ s ∈ w.steps, Passed w states s.id) :
    ∀ s ∈ w.steps, Resolved states s.id := by
  by_contra hn
  push Not at hn
  obtain ⟨s, hs, hopen⟩ := hn
  obtain ⟨order, ho, hmem⟩ := hg.ordered
  have hids : ∀ {t : Step V}, t ∈ w.steps → t.id ∈ w.stepIds := fun ht => List.mem_map_of_mem ht
  obtain ⟨t, -, ⟨ht, htopen⟩, hleast⟩ :=
    ho.exists_least (P := fun t => t ∈ w.stepIds ∧ ¬ Resolved states t) ⟨s.id, hmem _ (hids hs), hids hs, hopen⟩
  obtain ⟨step, hstep, rfl⟩ := List.mem_map.mp ht
  rcases h step hstep with hres | ⟨-, e, he, hsource⟩
  · exact htopen hres
  · obtain ⟨he, htarget⟩ := Workflow.mem_incoming.mp he
    exact hleast e.source (Workflow.mem_sources.mpr ⟨e, he, rfl, htarget⟩) ⟨hg.source_mem e he, hsource⟩

/-- **There always is a plan**, from any states and outputs. -/
theorem planNext_total (hg : w.Graph) (ht : w.Total) (null : V) (states : String → Option StepState)
    (outputs : String → Option V) : ∃ plan, planNext w null states outputs = .ok plan := by
  obtain ⟨taken, htaken⟩ : ∃ taken, takenEdges w null states outputs w.steps = .ok taken := takenEdges_total ht _
  unfold planNext
  rw [htaken]
  show ∃ plan, planSteps w null states outputs taken w.steps false = .ok plan
  rcases planSteps_cases hg taken (fun _ hs => hs) false with ⟨plan, heq, -, -⟩ | ⟨hpassed, heq⟩
  · exact ⟨plan, heq⟩
  · have hall := resolved_of_passed hg hpassed
    rw [heq, planSteps, if_neg (by simpa using hall)]
    exact ⟨_, rfl⟩

/-- The plan is to complete exactly when every step is resolved. -/
theorem planNext_complete_iff (hg : w.Graph) {plan : Plan V} (h : planNext w null states outputs = .ok plan) :
    (∃ results reason, plan = .complete results reason) ↔ ∀ s ∈ w.steps, Resolved states s.id := by
  have hf := planNext_follows hg h
  constructor
  · rintro ⟨results, reason, rfl⟩
    exact hf.1
  · intro hall
    cases plan with
    | complete results reason => exact ⟨results, reason, rfl⟩
    | runStep step value sources => exact absurd (hall step hf.1.1) hf.1.2.1
    | skipStep step reason => exact absurd (hall step hf.1.1) hf.1.2.1
    | conflict step sources reason => exact absurd (hall step hf.1.1) hf.1.2.1
    | needsDecision step reason => exact absurd (hall step hf.1) hf.2.1

/-! ## RUNNING steps -/

/-- The state, with RUNNING read as PENDING. -/
def StepState.unstarted : StepState → StepState
  | .running => .pending
  | s => s

theorem StepState.unstarted_cases {s t : StepState} (h : s.unstarted = t.unstarted) :
    (s = .succeeded ↔ t = .succeeded) ∧ (s.IsTerminal ↔ t.IsTerminal) ∧ (s = .outcomeUnknown ↔ t = .outcomeUnknown) := by
  revert h
  cases s <;> cases t <;> decide

section Unstarted

variable {states' : String → Option StepState}

theorem takenEdges_congr (h : ∀ s, ((states s).getD .pending).unstarted = ((states' s).getD .pending).unstarted)
    (steps : List (Step V)) : takenEdges w null states outputs steps = takenEdges w null states' outputs steps := by
  induction steps with
  | nil => rfl
  | cons step rest ih =>
    have hsucceeded := (StepState.unstarted_cases (h step.id)).1
    rw [takenEdges, takenEdges, ih]
    simp only [ne_eq, hsucceeded]

theorem planSteps_congr (h : ∀ s, ((states s).getD .pending).unstarted = ((states' s).getD .pending).unstarted)
    (taken : List (String × String)) (steps : List (Step V)) (undecided : Bool) :
    planSteps w null states outputs taken steps undecided = planSteps w null states' outputs taken steps undecided := by
  induction steps generalizing undecided with
  | nil => rfl
  | cons step rest ih =>
    obtain ⟨-, hterminal, hunknown⟩ := StepState.unstarted_cases (h step.id)
    have hsources : (∃ e ∈ w.incoming step.id, ¬ ((states e.source).getD .pending).IsTerminal) ↔
        ∃ e ∈ w.incoming step.id, ¬ ((states' e.source).getD .pending).IsTerminal :=
      exists_congr fun e => and_congr_right fun _ => not_congr (StepState.unstarted_cases (h e.source)).2.1
    rw [planSteps, planSteps]
    simp only [hterminal, hunknown, hsources, ih]

/-- **The scheduler takes no notice of whether a step was started.** -/
theorem planNext_congr (h : ∀ s, ((states s).getD .pending).unstarted = ((states' s).getD .pending).unstarted) :
    planNext w null states outputs = planNext w null states' outputs := by
  unfold planNext
  rw [takenEdges_congr h]
  simp only [planSteps_congr h]

end Unstarted

/-- The step a plan runs or skips. -/
def Plan.ready? : Plan V → Option (Step V)
  | .runStep step _ _ => some step
  | .skipStep step _ => some step
  | _ => none

/-- The first step that the loop does not pass by is the ready one, if any is. -/
theorem planSteps_cons_ready {taken : List (String × String)} {first : Step V} {rest : List (Step V)}
    {undecided : Bool} {plan : Plan V} {step : Step V}
    (h : planSteps w null states outputs taken (first :: rest) undecided = .ok plan) (hstep : plan.ready? = some step) :
    (Passed w states first.id ∧ ∃ undecided', planSteps w null states outputs taken rest undecided' = .ok plan) ∨
      ¬ Passed w states first.id ∧ step = first := by
  rw [planSteps] at h
  dsimp only at h
  split_ifs at h with hterminal hunknown hmany hopen
  · exact .inl ⟨.inl hterminal, _, h⟩
  · cases h
    cases hstep
  · cases h
    cases hstep
  · exact .inl ⟨.inr ⟨hunknown, hopen⟩, _, h⟩
  · refine .inr ⟨fun hp => hp.elim hterminal fun hp => hopen hp.2, ?_⟩
    split at h <;> cases h <;> exact (Option.some.inj hstep).symm

/-- The states alone say which step is ready. -/
theorem planSteps_ready {outputs' : String → Option V} {taken taken' : List (String × String)} {steps : List (Step V)}
    {undecided undecided' : Bool} {plan plan' : Plan V} {step step' : Step V}
    (h : planSteps w null states outputs taken steps undecided = .ok plan) (hstep : plan.ready? = some step)
    (h' : planSteps w null states outputs' taken' steps undecided' = .ok plan') (hstep' : plan'.ready? = some step') :
    step = step' := by
  induction steps generalizing undecided undecided' with
  | nil =>
    rw [planSteps] at h
    split_ifs at h
    cases h
    cases hstep
  | cons first rest ih =>
    rcases planSteps_cons_ready h hstep with ⟨hp, u, hrest⟩ | ⟨hp, rfl⟩
    · rcases planSteps_cons_ready h' hstep' with ⟨-, u', hrest'⟩ | ⟨hp', -⟩
      · exact ih hrest hrest'
      · exact absurd hp hp'
    · rcases planSteps_cons_ready h' hstep' with ⟨hp', -⟩ | ⟨-, rfl⟩
      · exact absurd hp' hp
      · rfl

theorem planNext_ready {outputs' : String → Option V} {plan plan' : Plan V} {step step' : Step V}
    (h : planNext w null states outputs = .ok plan) (hstep : plan.ready? = some step)
    (h' : planNext w null states outputs' = .ok plan') (hstep' : plan'.ready? = some step') : step = step' := by
  unfold planNext at h h'
  cases ht : takenEdges w null states outputs w.steps with
  | error e =>
    rw [ht] at h
    cases h
  | ok taken =>
    cases ht' : takenEdges w null states outputs' w.steps with
    | error e =>
      rw [ht'] at h'
      cases h'
    | ok taken' =>
      rw [ht] at h
      rw [ht'] at h'
      exact planSteps_ready h hstep h' hstep'

/-! ## The loop of `run_once` -/

/-- The steps that are not resolved. -/
def unresolved (w : Workflow V) (states : String → Option StepState) : List (Step V) :=
  w.steps.filter fun s => ¬ Resolved states s.id

/-- The states with one step marked. -/
def mark (states : String → Option StepState) (stepId : String) (state : StepState) : String → Option StepState :=
  fun s => if s = stepId then some state else states s

theorem resolved_mark {stepId : String} {state : StepState} (hs : state.IsTerminal) (s : String) :
    Resolved (mark states stepId state) s ↔ s = stepId ∨ Resolved states s := by
  unfold Resolved mark
  split_ifs with h
  · simp [h, hs]
  · simp [h]

/-- Marking an unresolved step terminal leaves fewer. -/
theorem unresolved_mark {step : Step V} (hstep : step ∈ w.steps) (hopen : ¬ Resolved states step.id)
    {state : StepState} (hs : state.IsTerminal) :
    (∀ s ∈ unresolved w (mark states step.id state), s ∈ unresolved w states) ∧
      step ∈ unresolved w states ∧ step ∉ unresolved w (mark states step.id state) := by
  simp only [unresolved, List.mem_filter, resolved_mark hs, decide_eq_true_eq]
  exact ⟨fun s ⟨hsteps, hn⟩ => ⟨hsteps, fun h => hn (.inr h)⟩, ⟨hstep, hopen⟩, fun h => h.2 (.inl trivial)⟩

theorem length_unresolved_mark {step : Step V} (hstep : step ∈ w.steps) (hopen : ¬ Resolved states step.id)
    {state : StepState} (hs : state.IsTerminal) :
    (unresolved w (mark states step.id state)).length < (unresolved w states).length := by
  obtain ⟨hsub, hin, hout⟩ := unresolved_mark hstep hopen hs
  have hsublist : (unresolved w (mark states step.id state)).Sublist (unresolved w states) := by
    refine List.monotone_filter_right _ fun s hn => ?_
    simp only [resolved_mark hs, decide_eq_true_eq] at hn ⊢
    exact fun h => hn (.inr h)
  refine lt_of_le_of_ne hsublist.length_le fun heq => hout ?_
  rw [hsublist.eq_of_length heq]
  exact hin

/-- The loop of `run_once` falls through after that many iterations: each of them skipped a step. -/
inductive FallsThrough (w : Workflow V) (null : V) (outputs : String → Option V) :
    ℕ → (String → Option StepState) → Prop
  | done (states : String → Option StepState) : FallsThrough w null outputs 0 states
  | skip {n : ℕ} {states : String → Option StepState} {step : Step V} {reason : String}
      (plan : planNext w null states outputs = .ok (.skipStep step reason))
      (rest : FallsThrough w null outputs n (mark states step.id .skipped)) : FallsThrough w null outputs (n + 1) states

/-- Every skip leaves fewer steps, so the loop ends before its iterations do. -/
theorem not_fallsThrough (hg : w.Graph) {n : ℕ} (h : FallsThrough w null outputs n states) :
    n ≤ (unresolved w states).length := by
  induction h with
  | done states => exact Nat.zero_le _
  | skip plan rest ih =>
    obtain ⟨⟨hstep, hopen, -⟩, -⟩ := planNext_follows hg plan
    have := length_unresolved_mark hstep hopen (show StepState.skipped.IsTerminal by decide)
    omega

/-- Where the loop does not fall through, more iterations make no difference. -/
theorem advance_of_not_fallsThrough (worker : DurableWorker V) (claim : Claim V) {n m : ℕ} (hle : n ≤ m)
    (h : ¬ FallsThrough w worker.store.values.null outputs n states) :
    worker.advance claim w outputs m states = worker.advance claim w outputs n states := by
  induction n generalizing m states with
  | zero => exact absurd (.done states) h
  | succ n ih =>
    obtain ⟨m, rfl⟩ : ∃ m', m = m' + 1 := ⟨m - 1, by omega⟩
    unfold DurableWorker.advance
    cases hplan : planNext w worker.store.values.null states outputs with
    | error e => rfl
    | ok plan =>
      cases plan with
      | skipStep step reason =>
        have hrest := ih (Nat.le_of_succ_le_succ hle) fun hf => h (.skip hplan hf)
        exact congrArg (fun p => call (.skipStep claim step.id reason) >>= fun _ => p) hrest
      | _ => rfl

/-- The step a plan is about. -/
def Plan.step? : Plan V → Option (Step V)
  | .runStep step _ _ => some step
  | .skipStep step _ => some step
  | .complete .. => none
  | .conflict step _ _ => some step
  | .needsDecision step _ => some step

theorem planSteps_mem {taken : List (String × String)} {steps : List (Step V)} {undecided : Bool} {plan : Plan V}
    {step : Step V} (h : planSteps w null states outputs taken steps undecided = .ok plan)
    (hstep : plan.step? = some step) : step ∈ steps := by
  induction steps generalizing undecided with
  | nil =>
    rw [planSteps] at h
    split_ifs at h
    cases h
    cases hstep
  | cons first rest ih =>
    rw [planSteps] at h
    dsimp only at h
    split_ifs at h
    · exact List.mem_cons_of_mem _ (ih h)
    · cases h
      exact Option.some.inj hstep ▸ List.mem_cons_self
    · cases h
      exact Option.some.inj hstep ▸ List.mem_cons_self
    · exact List.mem_cons_of_mem _ (ih h)
    · split at h <;> cases h <;> exact Option.some.inj hstep ▸ List.mem_cons_self

/-- A plan is about a step of the definition; this needs no graph. -/
theorem planNext_mem {plan : Plan V} {step : Step V} (h : planNext w null states outputs = .ok plan)
    (hstep : plan.step? = some step) : step ∈ w.steps := by
  unfold planNext at h
  cases ht : takenEdges w null states outputs w.steps with
  | error e =>
    rw [ht] at h
    cases h
  | ok taken =>
    rw [ht] at h
    exact planSteps_mem h hstep

theorem Plan.Follows.unresolved {T : Edge V → Prop} {plan : Plan V} (h : plan.Follows w null states outputs T)
    {step : Step V} (hstep : plan.step? = some step) : step ∈ w.steps ∧ ¬ Resolved states step.id := by
  cases plan <;> cases hstep
  · exact ⟨h.1.1, h.1.2.1⟩
  · exact ⟨h.1.1, h.1.2.1⟩
  · exact ⟨h.1.1, h.1.2.1⟩
  · exact ⟨h.1, h.2.1⟩

end Plans

/-- **Progress.**  On a validated definition with total predicates, and from any states and outputs, `plan_next`
returns a plan.  It completes exactly when every step is resolved; otherwise its step is unresolved and the plan
follows, and resolving the step leaves strictly fewer unresolved steps.  The loop of `run_once` does not fall through
its iterations, and having more of them would make no difference. -/
theorem plan_next_progress (w : Workflow V) (hw : w.validate = .ok ()) (ht : w.Total)
    (worker : DurableWorker V) (states : String → Option StepState) (outputs : String → Option V) :
    (∃ plan, planNext w worker.store.values.null states outputs = .ok plan ∧
      plan.Follows w worker.store.values.null states outputs (Taken w worker.store.values.null states outputs) ∧
      ((∃ results reason, plan = .complete results reason) ↔ ∀ s ∈ w.steps, Resolved states s.id) ∧
      ∀ step ∈ plan.step?, ∀ state : StepState, state.IsTerminal →
        (∀ s ∈ unresolved w (mark states step.id state), s ∈ unresolved w states) ∧
        step ∈ unresolved w states ∧ step ∉ unresolved w (mark states step.id state)) ∧
    ¬ FallsThrough w worker.store.values.null outputs (w.steps.length + 1) states ∧
    ∀ (claim : Claim V) (n : ℕ), w.steps.length + 1 ≤ n →
      worker.advance claim w outputs n states = worker.advance claim w outputs (w.steps.length + 1) states := by
  have hg := graph_of_validate hw
  have hfalls : ¬ FallsThrough w worker.store.values.null outputs (w.steps.length + 1) states := by
    intro h
    have hle := not_fallsThrough hg h
    have hfilter : (unresolved w states).length ≤ w.steps.length := List.length_filter_le _ _
    omega
  refine ⟨?_, hfalls, fun claim n hn => advance_of_not_fallsThrough worker claim hn hfalls⟩
  obtain ⟨plan, hplan⟩ := planNext_total hg ht worker.store.values.null states outputs
  have hfollows := planNext_follows hg hplan
  refine ⟨plan, hplan, hfollows, planNext_complete_iff hg hplan, fun step hstep state hs => ?_⟩
  obtain ⟨hmem, hopen⟩ := hfollows.unresolved hstep
  exact unresolved_mark hmem hopen hs

/-- `"a"` leads to `"b"` if its output is `"yes"`, and to `"c"` otherwise; both lead to `"d"`, which is declared
first. -/
def branching : Workflow String where
  name := "w"
  steps := [{ id := "d" }, { id := "a" }, { id := "b" }, { id := "c" }]
  edges := [{ source := "a", target := "b", «when» := some fun v => .ok (v = "yes") }, { source := "a", target := "c" },
    { source := "b", target := "d" }, { source := "c", target := "d" }]

/-- A worker that has `branching`. -/
def branchingWorker : DurableWorker String where
  store := textStore
  definitions _ _ := some branching
  activities _ := .undeclared
  owner := "o"

/-- `"a"` has put out `"yes"`, and `"c"` is skipped. -/
def halfway : String → Option StepState
  | "a" => some .succeeded
  | "c" => some .skipped
  | _ => none

theorem plan_next_progress_branching :
    ∃ plan, planNext branching "null" halfway (fun _ => some "yes") = .ok plan ∧ ∃ step ∈ plan.step?, step.id = "b" := by
  have htotal : branching.Total := by
    intro e he p hp v
    simp only [branching, List.mem_cons, List.not_mem_nil, or_false] at he
    rcases he with rfl | rfl | rfl | rfl <;> cases hp
    exact ⟨_, rfl⟩
  obtain ⟨⟨plan, hplan, -⟩, -⟩ :=
    plan_next_progress branching (by decide +kernel) htotal branchingWorker halfway fun _ => some "yes"
  refine ⟨plan, hplan, ?_⟩
  cases hplan
  exact ⟨_, rfl, rfl⟩

end Xyberos.Durable
