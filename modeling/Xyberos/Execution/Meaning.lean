import Xyberos.Execution.Course
import Xyberos.Execution.Queue

/-!
# Xyberos.Execution.Meaning — a run computes the meaning of its graph

`Meaning` says what the result of a run is, by the graph alone: which steps ran, which were skipped, what each was
given and what the run returns.  The invariant `Computed` says it of the steps that had their turn; every turn keeps it,
in whatever order the queue lets the steps have theirs (`run_meaning`).
-/

set_option autoImplicit false

namespace Xyberos.Execution

open Proc

variable {V : Type}

/-! ## Selection -/

/-- The edge is the first whose predicate holds on the output, or the unconditional one. -/
def Selects (output : V) (edges : List (Edge V)) (edge : Edge V) : Prop :=
  ∃ pre post, edges = pre ++ edge :: post ∧ (∀ e ∈ pre, ∃ p ∈ e.when, p output = .ok false) ∧
    ∀ p ∈ edge.when, p output = .ok true

theorem selectEdge_fallback {output : V} {edges : List (Edge V)} {edge : Edge V} (h : edge.when = none) :
    selectEdge output (edge :: edges) = .ok (some edge) := by
  rw [selectEdge, h]

theorem selectEdge_when {output : V} {edges : List (Edge V)} {edge : Edge V} {p : V → Except Exc Bool}
    (h : edge.when = some p) : selectEdge output (edge :: edges) =
      match p output with
      | .error e => .error e
      | .ok true => .ok (some edge)
      | .ok false => selectEdge output edges := by
  rw [selectEdge, h]
  dsimp only
  cases p output with
  | error e => rfl
  | ok b => cases b <;> rfl

theorem selectEdge_eq_some_iff {output : V} {edges : List (Edge V)} {edge : Edge V} :
    selectEdge output edges = .ok (some edge) ↔ Selects output edges edge := by
  induction edges with
  | nil =>
    constructor
    · intro h
      cases h
    · rintro ⟨pre, post, h, -⟩
      cases pre <;> cases h
  | cons e edges ih =>
    -- the edge is this one, or this one is passed over
    have hcons : Selects output (e :: edges) edge ↔
        (edge = e ∧ ∀ p ∈ e.when, p output = .ok true) ∨ (∃ p ∈ e.when, p output = .ok false) ∧
          Selects output edges edge := by
      constructor
      · rintro ⟨pre, post, h, hpre, hedge⟩
        cases pre with
        | nil =>
          obtain ⟨rfl, rfl⟩ := List.cons.inj h
          exact .inl ⟨rfl, hedge⟩
        | cons e' pre =>
          obtain ⟨rfl, rfl⟩ := List.cons.inj h
          exact .inr ⟨hpre e (by simp), pre, post, rfl, fun e' he' => hpre e' (by simp [he']), hedge⟩
      · rintro (⟨rfl, hedge⟩ | ⟨he, pre, post, rfl, hpre, hedge⟩)
        · exact ⟨[], edges, rfl, by simp, hedge⟩
        · refine ⟨e :: pre, post, rfl, fun e' he' => ?_, hedge⟩
          rcases List.mem_cons.mp he' with rfl | he'
          · exact he
          · exact hpre e' he'
    rw [hcons]
    cases hwhen : e.when with
    | none =>
      rw [selectEdge_fallback hwhen, Except.ok.injEq, Option.some.injEq]
      simp [eq_comm]
    | some p =>
      rw [selectEdge_when hwhen]
      cases hp : p output with
      | error e' => simp [hp]
      | ok b =>
        cases b with
        | true => simp [hp, eq_comm]
        | false => simpa [hp] using ih

theorem selectEdge_total {w : Workflow V} (ht : w.Total) (output : V) (s : String) :
    ∃ selected, selectEdge output (w.outgoing s) = .ok selected := by
  have hedges : ∀ edges : List (Edge V), (∀ e ∈ edges, e ∈ w.edges) →
      ∃ selected, selectEdge output edges = .ok selected := by
    intro edges
    induction edges with
    | nil => exact fun _ => ⟨_, rfl⟩
    | cons e edges ih =>
      intro hmem
      cases hwhen : e.when with
      | none => exact ⟨_, selectEdge_fallback hwhen⟩
      | some p =>
        obtain ⟨b, hb⟩ := ht e (hmem e (by simp)) p hwhen output
        rw [selectEdge_when hwhen, hb]
        cases b with
        | true => exact ⟨_, rfl⟩
        | false => exact ih fun e he => hmem e (by simp [he])
  exact hedges _ fun e he => (Workflow.mem_outgoing.mp he).1

/-! ## What the result means -/

/-- The value an attempt at a step returned. -/
def returnedBy (stepId : String) : Trial V → Option V
  | (call, .returned output) => if call.step = stepId then some output else none
  | _ => none

/-- The values that attempts at a step returned. -/
def returns (h : History V) (stepId : String) : List V := (trials h).filterMap (returnedBy stepId)

/-- A step has had its turn: it was skipped, or an attempt at it returned. -/
def DecidedIn (h : History V) (stepId : String) : Prop :=
  (∃ e ∈ emissions h, e.type = .stepSkipped ∧ e.step = some stepId) ∨ returns h stepId ≠ []

/-- The source of the edge succeeded, and its output selects the edge. -/
def Selected (w : Workflow V) (outcomes : Dict (StepOutcome V)) (edge : Edge V) : Prop :=
  ∃ o, outcomes.get? edge.source = some o ∧ o.status = .succeeded ∧ Selects o.output (w.outgoing edge.source) edge

/-- What a step is given: the input of the run, or the output of the source whose edge reached it. -/
def Receives (w : Workflow V) (input : V) (outcomes : Dict (StepOutcome V)) (stepId : String) (value : V) : Prop :=
  (w.incoming stepId = [] ∧ value = input) ∨
    ∃ edge ∈ w.incoming stepId, ∃ o, outcomes.get? edge.source = some o ∧ Selected w outcomes edge ∧ value = o.output

/-- A step runs if it has no incoming edge or exactly one of them was selected; it is skipped if none of them was. -/
structure Settled (w : Workflow V) (outcomes : Dict (StepOutcome V)) (stepId : String) (o : StepOutcome V) : Prop where
  named : o.step = stepId
  status : o.status = .succeeded ∨ o.status = .skipped
  succeeded : o.status = .succeeded ↔
    w.incoming stepId = [] ∨ ∃! edge, edge ∈ w.incoming stepId ∧ Selected w outcomes edge
  skipped : o.status = .skipped → ∀ edge ∈ w.incoming stepId, ¬ Selected w outcomes edge

/-- Every attempt of a history is made after the sources of its step had their turns. -/
def InOrder (w : Workflow V) (h : History V) : Prop :=
  ∀ before call ended after, h = before ++ ⟨.attempt call, ended⟩ :: after →
    ∀ t ∈ w.sources call.step, DecidedIn before t

/-- The meaning of a definition on an input, for the result of a run and what was exchanged in it. -/
structure Meaning (w : Workflow V) (input : V) (h : History V) (result : WorkflowResult V) : Prop where
  /-- one outcome per declared step -/
  steps : (result.steps.items.map Prod.fst).Perm w.stepIds
  settled : ∀ s o, result.steps.get? s = some o → Settled w result.steps s o
  received : ∀ c ∈ trials h, Receives w input result.steps c.1.step c.1.value
  /-- an attempt at a step that runs returned its output, and no other attempt returned -/
  once : ∀ s o, result.steps.get? s = some o → returns h s = if o.status = .succeeded then [o.output] else []
  ran : ∀ c ∈ trials h, ∃ o, result.steps.get? c.1.step = some o ∧ o.status = .succeeded
  inOrder : InOrder w h
  outputs : ∀ s v, result.outputs.get? s = some v ↔
    w.outgoing s = [] ∧ ∃ o, result.steps.get? s = some o ∧ o.status = .succeeded ∧ o.output = v

/-! ## The attempts at a step -/

section Trials

variable {A : (q : Request V) → q.Reply → Prop} {x : WorkflowExecutor V} {step : Step V} {value : V}
  {deadline : Option ℚ} {number : ℕ} {cs : List (Trial V)} {es : List Emission}

/-- A value that an attempt at a step returned was returned by an attempt at it. -/
theorem step_of_returned {c : Trial V} {s : String} {v : V} (h : returnedBy s c = some v) : c.1.step = s := by
  by_contra hne
  obtain ⟨call, ended⟩ := c
  cases ended with
  | returned output => cases (if_neg hne).symm.trans h
  | _ => cases h

/-- A result without an error or a stop is the value that was returned. -/
theorem raceResult_succeeded {call : AttemptCall V} {ended : RaceEnd V} {result : AttemptResult V}
    (h : x.raceResult call ended = .ok result) (hstop : result.stop = none) (herror : result.error = none) :
    ended = .returned result.output := by
  cases ended <;> obtain ⟨⟩ := h
  case returned output => rfl
  case raised e => cases herror
  case cancelled => cases hstop
  case stopped cancelled now => cases hstop

/-- An attempt that returned did not fail. -/
theorem returnedBy_of_failed {call : AttemptCall V} {ended : RaceEnd V} {result : AttemptResult V} (s : String)
    (h : x.raceResult call ended = .ok result) (hfailed : result.stop.isSome ∨ result.error.isSome) :
    returnedBy s (call, ended) = none := by
  cases ended with
  | returned output =>
    obtain ⟨⟩ := h
    rcases hfailed with h | h <;> cases h
  | _ => rfl

theorem failure_failed {result : AttemptResult V} {error : Exc} (h : error ∈ x.failure step result) :
    result.stop.isSome ∨ result.error.isSome := by
  unfold WorkflowExecutor.failure at h
  cases hstop : result.stop with
  | some stop => exact .inl rfl
  | none =>
    rw [hstop] at h
    cases herror : result.error with
    | some error => exact .inr rfl
    | none =>
      rw [herror] at h
      cases h

/-- The attempts at a step are attempts at it, with its value. -/
theorem StepRun.of_mem {r : Except (Thrown V) (StepOutcome V)} (h : StepRun A x step value deadline number cs es r) :
    ∀ c ∈ cs, c.1.step = step.id ∧ c.1.value = value := by
  induction h with
  | uncalled of => simp [of.step, of.value]
  | done of => simp [of.step, of.value]
  | raised of => simp [of.step, of.value]
  | again of _ _ _ _ _ _ ih =>
    intro c hc
    rcases List.mem_cons.mp hc with rfl | hc
    · exact ⟨of.step, of.value⟩
    · exact ih c hc

/-- The last attempt at a step that runs returns its output, and no other returns. -/
theorem StepRun.succeeded {o : StepOutcome V} (h : StepRun A x step value deadline number cs es (.ok o)) :
    o.step = step.id ∧ o.status = .succeeded ∧ cs.filterMap (returnedBy step.id) = [o.output] := by
  generalize hr : Except.ok o = r at h
  induction h with
  | uncalled => cases hr
  | done of _ _ _ raced judged =>
    cases hr
    cases judged with
    | succeeded stop error _ _ named status output =>
      refine ⟨named, status, ?_⟩
      rw [output, raceResult_succeeded raced stop error]
      simp [returnedBy, of.step]
  | raised => cases hr
  | again of _ _ _ raced judged _ ih =>
    cases judged with
    | retried fails =>
      obtain ⟨hnamed, hstatus, hreturns⟩ := ih hr
      refine ⟨hnamed, hstatus, ?_⟩
      rwa [List.filterMap_cons_none (returnedBy_of_failed _ raced (failure_failed fails))]

/-- What the attempts at a step raise on their own account is not a failed lookup. -/
theorem StepRun.other {e : Exc} (h : StepRun A x step value deadline number cs es (.error (.other e))) :
    ¬ e.isInstance "KeyError" ∧ ¬ e.isInstance "WorkflowValidationError" := by
  generalize hr : Except.error (Thrown.other e) = r at h
  induction h with
  | uncalled =>
    cases hr
    constructor <;> simp [typeError, Exc.isInstance]
  | done => cases hr
  | raised _ _ _ _ _ judged =>
    cases hr
    cases judged with
    | overflowed => decide
    | unformatted => decide
  | again _ _ _ _ _ _ _ ih => exact ih hr

end Trials

/-! ## The outcome of another step -/

section Outcomes

variable {w : Workflow V} {input : V} {d : Dict (StepOutcome V)} {k s : String} {o : StepOutcome V} {edge : Edge V}

theorem Selects.mem {output : V} {edges : List (Edge V)} (h : Selects output edges edge) : edge ∈ edges := by
  obtain ⟨pre, post, rfl, -⟩ := h
  simp

theorem Selected.get? (h : Selected w d edge) : ∃ o, d.get? edge.source = some o := by
  obtain ⟨o, ho, -⟩ := h
  exact ⟨o, ho⟩

theorem selected_set_of_ne (h : edge.source ≠ k) : Selected w (d.set k o) edge ↔ Selected w d edge := by
  unfold Selected
  rw [Dict.get?_set_of_ne _ _ h]

theorem selected_set_self (h : edge.source = k) :
    Selected w (d.set k o) edge ↔ o.status = .succeeded ∧ Selects o.output (w.outgoing k) edge := by
  unfold Selected
  subst h
  rw [Dict.get?_set_self]
  constructor
  · rintro ⟨o', ho, hstatus, hselects⟩
    obtain rfl := Option.some.inj ho
    exact ⟨hstatus, hselects⟩
  · rintro ⟨hstatus, hselects⟩
    exact ⟨o, rfl, hstatus, hselects⟩

/-- A step that has no outcome yet has selected nothing, so its outcome changes nothing for the others. -/
theorem Selected.set (hk : d.get? k = none) (h : Selected w d edge) :
    edge.source ≠ k ∧ Selected w (d.set k o) edge := by
  have hne : edge.source ≠ k := by
    rintro rfl
    obtain ⟨o', ho⟩ := h.get?
    rw [hk] at ho
    cases ho
  exact ⟨hne, (selected_set_of_ne hne).mpr h⟩

theorem Receives.set {value : V} (hk : d.get? k = none) (h : Receives w input d s value) :
    Receives w input (d.set k o) s value := by
  rcases h with h | ⟨edge, hedge, o', ho, hselected, hvalue⟩
  · exact .inl h
  · obtain ⟨hne, hselected'⟩ := hselected.set (o := o) hk
    refine .inr ⟨edge, hedge, o', ?_, hselected', hvalue⟩
    rwa [Dict.get?_set_of_ne _ _ hne]

theorem Settled.set {o' : StepOutcome V} (hs : ∀ edge ∈ w.incoming s, edge.source ≠ k) (h : Settled w d s o') :
    Settled w (d.set k o) s o' where
  named := h.named
  status := h.status
  succeeded := by
    rw [h.succeeded]
    refine or_congr Iff.rfl (existsUnique_congr fun edge => and_congr_right fun hedge => ?_)
    exact (selected_set_of_ne (hs edge hedge)).symm
  skipped hstatus edge hedge hselected := by
    rw [selected_set_of_ne (hs edge hedge)] at hselected
    exact h.skipped hstatus edge hedge hselected

end Outcomes

/-! ## Histories that go on -/

section Histories

variable {h l : History V} {s : String}

theorem returns_append : returns (h ++ l) s = returns h s ++ returns l s := by
  rw [returns, trials_append, List.filterMap_append]
  rfl

theorem DecidedIn.append (hs : DecidedIn h s) (l : History V) : DecidedIn (h ++ l) s := by
  rcases hs with ⟨e, he, htype, hstep⟩ | hs
  · exact .inl ⟨e, by simp [he], htype, hstep⟩
  · refine .inr ?_
    rw [returns_append]
    exact fun hnil => hs (List.append_eq_nil_iff.mp hnil).1

theorem mem_trials_of_mem {call : AttemptCall V} {ended : RaceEnd V}
    (hmem : (⟨.attempt call, ended⟩ : Exchange (Request.Reply (V := V))) ∈ l) : (call, ended) ∈ trials l :=
  List.mem_filterMap.mpr ⟨_, hmem, rfl⟩

/-- A history goes on in order with attempts at steps whose sources have had their turns. -/
theorem InOrder.append {w : Workflow V} (hh : InOrder w h)
    (hl : ∀ c ∈ trials l, ∀ t ∈ w.sources c.1.step, DecidedIn h t) : InOrder w (h ++ l) := by
  intro before call ended after heq t ht
  rcases List.append_eq_append_iff.mp heq with ⟨mid, rfl, hmid⟩ | ⟨mid, rfl, hmid⟩
  · -- the attempt is one of the new ones
    refine (hl (call, ended) (mem_trials_of_mem ?_) t ht).append mid
    rw [hmid]
    simp
  · cases mid with
    | nil =>
      obtain rfl : ⟨.attempt call, ended⟩ :: after = l := by simpa using hmid
      rw [List.append_nil] at hl
      exact hl (call, ended) (by simp) t ht
    | cons y mid =>
      obtain ⟨rfl, rfl⟩ := List.cons.inj hmid
      exact hh before call ended mid rfl t ht

end Histories

/-! ## The invariant of the loop -/

/-- What the variables and the history say of the steps in `done`, which had their turns. -/
structure Computed (w : Workflow V) (input : V) (done : List String) (h : History V) (st : RunState V) : Prop where
  queued : Queued w done st
  keys : st.outcomes.items.map Prod.fst = done
  settled : ∀ s o, st.outcomes.get? s = some o → Settled w st.outcomes s o
  taken : ∀ e ∈ w.edges, (e.source, e.target) ∈ st.taken ↔ Selected w st.outcomes e
  produced : ∀ s v, st.produced.get? s = some v ↔ ∃ o, st.outcomes.get? s = some o ∧ o.status = .succeeded ∧ o.output = v
  outputs : ∀ s v, st.outputs.get? s = some v ↔ w.outgoing s = [] ∧ st.produced.get? s = some v
  received : ∀ c ∈ trials h, Receives w input st.outcomes c.1.step c.1.value
  once : ∀ s o, st.outcomes.get? s = some o → returns h s = if o.status = .succeeded then [o.output] else []
  ran : ∀ c ∈ trials h, ∃ o, st.outcomes.get? c.1.step = some o ∧ o.status = .succeeded
  inOrder : InOrder w h
  decided : ∀ s ∈ done, DecidedIn h s

namespace Computed

variable {A : (q : Request V) → q.Reply → Prop} {x : WorkflowExecutor V} {w : Workflow V} {input : V}
  {deadline : Option ℚ} {done : List String} {h l : History V} {st : RunState V} {step : Step V} {ready : List (Step V)}

theorem get?_isSome (hc : Computed w input done h st) {s : String} : s ∈ done ↔ ∃ o, st.outcomes.get? s = some o := by
  rw [← hc.keys]
  exact Dict.mem_keys

theorem get?_eq_none (hc : Computed w input done h st) {s : String} (hs : s ∉ done) : st.outcomes.get? s = none := by
  rw [← hc.keys] at hs
  exact Dict.get?_eq_none hs

/-- The outputs of the steps that reached a step are at hand. -/
theorem produced_of_reached (hc : Computed w input done h st) (s : String) :
    ∀ edge ∈ st.reached w s, (st.produced.get? edge.source).isSome := by
  intro edge hedge
  obtain ⟨hin, htaken⟩ := List.mem_filter.mp hedge
  obtain ⟨o, ho, hstatus, -⟩ := (hc.taken edge (Workflow.mem_incoming.mp hin).1).mp (by simpa using htaken)
  exact Option.isSome_iff_exists.mpr ⟨o.output, (hc.produced _ _).mpr ⟨o, ho, hstatus, rfl⟩⟩

/-- The edges that reached a step are the edges into it that were selected. -/
theorem mem_reached (hc : Computed w input done h st) {s : String} {edge : Edge V} :
    edge ∈ st.reached w s ↔ edge ∈ w.incoming s ∧ Selected w st.outcomes edge := by
  unfold RunState.reached
  rw [List.mem_filter]
  refine and_congr_right fun hin => ?_
  rw [decide_eq_true_iff]
  exact hc.taken edge (Workflow.mem_incoming.mp hin).1

/-- The outcomes of the steps that had their turns stay settled. -/
theorem settled_set (hc : Computed w input done h st) {o : StepOutcome V} (hid : step.id ∉ done) {s : String}
    {o' : StepOutcome V} (ho : st.outcomes.get? s = some o') : Settled w (st.outcomes.set step.id o) s o' := by
  refine (hc.settled s o' ho).set fun edge hedge he => hid ?_
  rw [← he]
  refine hc.queued.sources_done (hc.get?_isSome.mpr ⟨o', ho⟩) _ ?_
  exact List.mem_map_of_mem hedge

/-- The edges into a step whose turn it is were selected before. -/
theorem selected_set_iff (hc : Computed w input done h st) (hid : step.id ∉ done)
    (hsources : ∀ s ∈ w.sources step.id, s ∈ done) {o : StepOutcome V} {edge : Edge V}
    (hedge : edge ∈ w.incoming step.id) :
    Selected w (st.outcomes.set step.id o) edge ↔ edge ∈ st.reached w step.id := by
  have hne : edge.source ≠ step.id := by
    intro he
    rw [← he] at hid
    exact hid (hsources _ (List.mem_map_of_mem hedge))
  rw [selected_set_of_ne hne, hc.mem_reached]
  exact (and_iff_right hedge).symm

/-- **One turn.**  A step gets its outcome: its attempts were given what it receives and one of them returned, or it
was skipped. -/
theorem turn (hc : Computed w input done h st) (hready : st.ready = step :: ready) {o : StepOutcome V}
    {next : RunState V} (hqueued : Queued w (done ++ [step.id]) next)
    (houtcomes : next.outcomes = st.outcomes.set step.id o)
    (hsettled : Settled w (st.outcomes.set step.id o) step.id o)
    (htaken : ∀ e ∈ w.edges, (e.source, e.target) ∈ next.taken ↔ (e.source, e.target) ∈ st.taken ∨
      e.source = step.id ∧ o.status = .succeeded ∧ Selects o.output (w.outgoing step.id) e)
    (hproduced : ∀ s v, next.produced.get? s = some v ↔
      if s = step.id then o.status = .succeeded ∧ o.output = v else st.produced.get? s = some v)
    (houtputs : ∀ s v, next.outputs.get? s = some v ↔ w.outgoing s = [] ∧ next.produced.get? s = some v)
    (htrials : ∀ c ∈ trials l,
      c.1.step = step.id ∧ o.status = .succeeded ∧ Receives w input st.outcomes step.id c.1.value)
    (hreturns : returns l step.id = if o.status = .succeeded then [o.output] else [])
    (hdecided : DecidedIn l step.id) :
    Computed w input (done ++ [step.id]) (h ++ l) next := by
  obtain ⟨-, hid, hsources⟩ := hc.queued.head hready
  have hnone := hc.get?_eq_none hid
  have hnew : next.outcomes.get? step.id = some o := by rw [houtcomes, Dict.get?_set_self]
  have hsame : ∀ {s}, s ≠ step.id → next.outcomes.get? s = st.outcomes.get? s := by
    intro s hs
    rw [houtcomes, Dict.get?_set_of_ne _ _ hs]
  -- no attempt was made at this step before, and none at another step now
  have hbefore : returns h step.id = [] := by
    refine List.filterMap_eq_nil_iff.mpr fun c hmem => ?_
    obtain ⟨call, ended⟩ := c
    have hne : call.step ≠ step.id := by
      intro he
      obtain ⟨o', ho', -⟩ := hc.ran _ hmem
      rw [he, hnone] at ho'
      cases ho'
    cases ended with
    | returned output => exact if_neg hne
    | _ => rfl
  have hother : ∀ {s}, s ≠ step.id → returns l s = [] := by
    intro s hs
    refine List.filterMap_eq_nil_iff.mpr fun c hmem => ?_
    obtain ⟨call, ended⟩ := c
    have he := (htrials _ hmem).1
    cases ended with
    | returned output => exact if_neg fun h => hs (h.symm.trans he)
    | _ => rfl
  refine ⟨hqueued, ?_, ?_, ?_, ?_, houtputs, ?_, ?_, ?_, ?_, ?_⟩
  · rw [houtcomes, Dict.keys_set _ (by rwa [hc.keys]), hc.keys]
  · intro s o' ho
    rw [houtcomes]
    by_cases hs : s = step.id
    · subst hs
      obtain rfl := Option.some.inj (hnew.symm.trans ho)
      exact hsettled
    · rw [hsame hs] at ho
      exact hc.settled_set hid ho
  · intro e he
    rw [htaken e he, houtcomes, hc.taken e he]
    by_cases hs : e.source = step.id
    · rw [selected_set_self hs]
      constructor
      · rintro (hselected | ⟨-, hselects⟩)
        · exact absurd hs (hselected.set (o := o) hnone).1
        · exact hselects
      · exact fun hselects => .inr ⟨hs, hselects⟩
    · rw [selected_set_of_ne hs]
      exact ⟨fun hor => hor.resolve_right fun hr => hs hr.1, .inl⟩
  · intro s v
    rw [hproduced]
    split_ifs with hs
    · subst hs
      rw [hnew]
      constructor
      · rintro ⟨hstatus, hv⟩
        exact ⟨o, rfl, hstatus, hv⟩
      · rintro ⟨o', ho', hstatus, hv⟩
        obtain rfl := Option.some.inj ho'
        exact ⟨hstatus, hv⟩
    · rw [hsame hs]
      exact hc.produced s v
  · intro c hmem
    rw [houtcomes]
    rcases List.mem_append.mp (trials_append ▸ hmem) with hmem | hmem
    · exact (hc.received c hmem).set hnone
    · obtain ⟨hstep, -, hreceives⟩ := htrials c hmem
      rw [hstep]
      exact hreceives.set hnone
  · intro s o' ho
    rw [returns_append]
    by_cases hs : s = step.id
    · subst hs
      obtain rfl := Option.some.inj (hnew.symm.trans ho)
      rw [hbefore, hreturns, List.nil_append]
    · rw [hsame hs] at ho
      rw [hother hs, List.append_nil]
      exact hc.once s o' ho
  · intro c hmem
    rcases List.mem_append.mp (trials_append ▸ hmem) with hmem | hmem
    · obtain ⟨o', ho', hstatus⟩ := hc.ran c hmem
      refine ⟨o', ?_, hstatus⟩
      rwa [hsame]
      rintro he
      rw [he, hnone] at ho'
      cases ho'
    · obtain ⟨hstep, hstatus, -⟩ := htrials c hmem
      rw [hstep]
      exact ⟨o, hnew, hstatus⟩
  · refine hc.inOrder.append fun c hmem t ht => ?_
    rw [(htrials c hmem).1] at ht
    exact hc.decided t (hsources t ht)
  · intro s hs
    rcases List.mem_append.mp hs with hs | hs
    · exact (hc.decided s hs).append l
    · rw [List.mem_singleton.mp hs]
      rcases hdecided with ⟨e, he, htype, hof⟩ | hne
      · exact .inl ⟨e, by simp [he], htype, hof⟩
      · refine .inr ?_
        rw [returns_append]
        exact fun hnil => hne (List.append_eq_nil_iff.mp hnil).2

/-- The outcome of a step that no edge reached. -/
theorem settled_skipped (hc : Computed w input done h st) (hid : step.id ∉ done)
    (hsources : ∀ s ∈ w.sources step.id, s ∈ done) (hin : w.incoming step.id ≠ []) {o : StepOutcome V}
    (hnamed : o.step = step.id) (hstatus : o.status = .skipped) (hreached : st.reached w step.id = []) :
    Settled w (st.outcomes.set step.id o) step.id o := by
  have hnone : ∀ edge ∈ w.incoming step.id, ¬ Selected w (st.outcomes.set step.id o) edge := by
    intro edge hedge hselected
    rw [hc.selected_set_iff hid hsources hedge, hreached] at hselected
    cases hselected
  refine ⟨hnamed, .inr hstatus, ?_, fun _ => hnone⟩
  rw [hstatus]
  refine ⟨nofun, ?_⟩
  rintro (hnil | ⟨edge, ⟨hedge, hselected⟩, -⟩)
  · exact absurd hnil hin
  · exact absurd hselected (hnone edge hedge)

/-- The outcome of a step that runs. -/
theorem settled_ran (hc : Computed w input done h st) (hid : step.id ∉ done)
    (hsources : ∀ s ∈ w.sources step.id, s ∈ done) {value : V} (hfed : Fed w input st step.id value)
    {o : StepOutcome V} (hnamed : o.step = step.id) (hstatus : o.status = .succeeded) :
    Settled w (st.outcomes.set step.id o) step.id o := by
  have hran : ¬ o.status = .skipped := by
    rw [hstatus]
    exact nofun
  refine ⟨hnamed, .inl hstatus, iff_of_true hstatus ?_, fun h => absurd h hran⟩
  cases hfed with
  | entry hin => exact .inl hin
  | @edge edge _ hreached _ =>
    have hedge : edge ∈ st.reached w step.id := by simp [hreached]
    have hin := (hc.mem_reached.mp hedge).1
    refine .inr ⟨edge, ⟨hin, (hc.selected_set_iff hid hsources hin).mpr hedge⟩, ?_⟩
    rintro edge' ⟨hin', hselected⟩
    rw [hc.selected_set_iff hid hsources hin', hreached] at hselected
    exact List.mem_singleton.mp hselected

/-- What a step is run with is what it receives. -/
theorem receives_of_fed (hc : Computed w input done h st) {s : String} {value : V} (hfed : Fed w input st s value) :
    Receives w input st.outcomes s value := by
  cases hfed with
  | entry hin => exact .inl ⟨hin, rfl⟩
  | @edge edge _ hreached hproduced =>
    obtain ⟨hin, hselected⟩ := hc.mem_reached.mp (show edge ∈ st.reached w s by simp [hreached])
    obtain ⟨o, ho, -, hv⟩ := (hc.produced _ _).mp hproduced
    exact .inr ⟨edge, hin, o, ho, hselected, hv.symm⟩

/-- The edges taken after a step selected one of the edges that leave it, or none. -/
theorem mem_taken_record (hg : w.Graph) {o : StepOutcome V} {selected : Option (Edge V)} (hstatus : o.status = .succeeded)
    (hselect : selectEdge o.output (w.outgoing step.id) = .ok selected) {e : Edge V} (he : e ∈ w.edges) :
    (e.source, e.target) ∈ (st.record w step.id o selected).taken ↔ (e.source, e.target) ∈ st.taken ∨
      e.source = step.id ∧ o.status = .succeeded ∧ Selects o.output (w.outgoing step.id) e := by
  rw [← selectEdge_eq_some_iff, hselect, Except.ok.injEq]
  cases selected with
  | none => simp [RunState.record]
  | some edge =>
    have hedge := Workflow.mem_outgoing.mp (selectEdge_eq_some_iff.mp hselect).mem
    show _ ∈ (edge.source, edge.target) :: st.taken ↔ _
    rw [List.mem_cons, Prod.mk.injEq, or_comm, Option.some.injEq]
    refine or_congr Iff.rfl ⟨?_, ?_⟩
    · rintro ⟨hs, ht⟩
      exact ⟨hs.trans hedge.2, hstatus, (Workflow.eq_of_distinct hg.distinct he hedge.1 hs ht).symm⟩
    · rintro ⟨-, -, rfl⟩
      exact ⟨rfl, rfl⟩

/-- **A turn keeps the invariant**, and its lookups find what they look for. -/
theorem of_turnRun (hg : w.Graph) (hc : Computed w input done h st) (hready : st.ready = step :: ready)
    {st' : RunState V}
    (hturn : TurnRun A x w input deadline step { st with ready } (trials l) (emissions l) (.ok st')) :
    ∃ next, relaxEdges w (w.outgoing step.id) st' = .ok next ∧ Computed w input (done ++ [step.id]) (h ++ l) next := by
  obtain ⟨-, hid, hsources⟩ := hc.queued.head hready
  generalize hcs : trials l = cs at hturn
  generalize hes : emissions l = es at hturn
  generalize hr : (Except.ok st' : Except (Thrown V) (RunState V)) = r at hturn
  cases hturn with
  | conflict => cases hr
  | halted => cases hr
  | raised => cases hr
  | unselected => cases hr
  | skipped hin hreached htype hof =>
    obtain rfl := Except.ok.inj hr
    obtain ⟨next, hrelax, hqueued, hsame⟩ := hc.queued.relax hg hready
      (show (RunState.skip { st with ready } x step.id).waiters = st.waiters from rfl) rfl
    refine ⟨next, hrelax, hc.turn hready hqueued (by rw [hsame]; rfl) ?_ ?_ ?_ ?_ ?_ ?_ ?_⟩
    · exact hc.settled_skipped hid hsources hin rfl rfl hreached
    · intro e he
      rw [hsame]
      exact (or_iff_left fun h => nomatch h.2.1).symm
    · intro s v
      rw [hsame]
      show st.produced.get? s = some v ↔ _
      split_ifs with hs
      · subst hs
        rw [hc.produced, hc.get?_eq_none hid]
        simp
      · exact Iff.rfl
    · intro s v
      rw [hsame]
      exact hc.outputs s v
    · rw [hcs]
      exact fun c hmem => nomatch hmem
    · rw [returns, hcs]
      rfl
    · exact .inl ⟨_, by simp [hes], htype, hof⟩
  | @ran value cs es o selected hfed hrun hselect =>
    obtain rfl := Except.ok.inj hr
    obtain ⟨next, hrelax, hqueued, hsame⟩ := hc.queued.relax hg hready
      (show (RunState.record { st with ready } w step.id o selected).waiters = st.waiters from rfl) rfl
    obtain ⟨hnamed, hstatus, hreturns⟩ := hrun.succeeded
    have hfed' : Fed w input st step.id value := by
      cases hfed with
      | entry hin => exact .entry hin
      | edge hreached hproduced => exact .edge hreached hproduced
    refine ⟨next, hrelax, hc.turn hready hqueued (by rw [hsame]; rfl) ?_ ?_ ?_ ?_ ?_ ?_ ?_⟩
    · exact hc.settled_ran hid hsources hfed' hnamed hstatus
    · intro e he
      rw [hsame]
      exact mem_taken_record hg hstatus hselect he
    · intro s v
      rw [hsame]
      show (st.produced.set step.id o.output).get? s = some v ↔ _
      rw [Dict.get?_set]
      split_ifs with hs
      · rw [Option.some.injEq, and_iff_right hstatus]
      · exact Iff.rfl
    · intro s v
      rw [hsame]
      show (if (w.outgoing step.id).isEmpty then st.outputs.set step.id o.output else st.outputs).get? s = some v ↔
        _ ∧ (st.produced.set step.id o.output).get? s = some v
      have hold := hc.outputs s v
      rw [Dict.get?_set]
      split_ifs with hexit hs hs
      · rw [hs, Dict.get?_set_self]
        exact (and_iff_right (List.isEmpty_iff.mp hexit)).symm
      · rw [Dict.get?_set_of_ne _ _ hs]
        exact hold
      · subst hs
        have hne : w.outgoing step.id ≠ [] := fun h => hexit (by rw [h]; rfl)
        rw [hold]
        exact iff_of_false (fun h => hne h.1) fun h => hne h.1
      · exact hold
    · intro c hmem
      rw [hcs] at hmem
      obtain ⟨hstep, hvalue⟩ := hrun.of_mem c hmem
      refine ⟨hstep, hstatus, ?_⟩
      rw [hvalue]
      exact hc.receives_of_fed hfed'
    · rw [returns, hcs, hreturns, if_pos hstatus]
    · refine .inr ?_
      rw [returns, hcs, hreturns]
      simp

end Computed

/-! ## The run -/

section Runs

variable {A : (q : Request V) → q.Reply → Prop} {x : WorkflowExecutor V} {w : Workflow V} {input : V}

theorem computed_init (input : V) (hg : w.Graph) (started t : ℚ) : ∃ st, RunState.initial w = .ok st ∧
    Computed w input [] [⟨.monotonic, started⟩, ⟨.emit (startedEvent w), t⟩] st := by
  obtain ⟨st, hinit, hqueued, hst⟩ := Queued.init hg.nodup
  refine ⟨st, hinit, hqueued, ?_, ?_, ?_, ?_, ?_, ?_, ?_, ?_, ?_, ?_⟩
  · rw [hst]
    rfl
  · intro s o ho
    rw [hst] at ho
    cases ho
  · intro e _
    rw [hst]
    refine iff_of_false (fun h => nomatch h) ?_
    rintro ⟨o, ho, -⟩
    cases ho
  · intro s v
    rw [hst]
    refine iff_of_false (fun h => nomatch h) ?_
    rintro ⟨o, ho, -⟩
    cases ho
  · intro s v
    rw [hst]
    refine iff_of_false (fun h => nomatch h) ?_
    rintro ⟨-, h⟩
    cases h
  · exact fun c hc => nomatch hc
  · intro s o ho
    rw [hst] at ho
    cases ho
  · exact fun c hc => nomatch hc
  · have hnil : InOrder w ([] : History V) := by
      intro before call ended after h
      simp at h
    exact hnil.append (l := [_, _]) fun c hc => nomatch hc
  · exact fun s hs => nomatch hs

/-- The result of a run whose steps all had their turns. -/
theorem Computed.meaning {done : List String} {h l : History V} {st : RunState V} (hg : w.Graph)
    (hc : Computed w input done h st) (hready : st.ready = []) (hl : trials l = []) (duration : ℚ) :
    Meaning w input (h ++ l) (st.result w duration) where
  steps := by
    show (st.outcomes.items.map Prod.fst).Perm w.stepIds
    rw [hc.keys]
    exact hc.queued.perm hg hready
  settled := hc.settled
  received c hmem := hc.received c (by simpa [hl] using hmem)
  once s o ho := by
    rw [returns_append, returns, returns, hl, List.filterMap_nil, List.append_nil]
    exact hc.once s o ho
  ran c hmem := hc.ran c (by simpa [hl] using hmem)
  inOrder := hc.inOrder.append fun c hmem => by simp [hl] at hmem
  outputs s v := (hc.outputs s v).trans (and_congr_right fun _ => hc.produced s v)

/-- What a turn raises on its own account is not a failed lookup. -/
theorem TurnRun.other (ht : w.Total) {deadline : Option ℚ} {step : Step V} {st : RunState V} {cs : List (Trial V)}
    {es : List Emission} {e : Exc} (h : TurnRun A x w input deadline step st cs es (.error (.other e))) :
    ¬ e.isInstance "KeyError" ∧ ¬ e.isInstance "WorkflowValidationError" := by
  cases h with
  | raised _ run => exact run.other
  | @unselected _ _ _ o _ _ _ selects =>
    obtain ⟨selected, hselected⟩ := selectEdge_total ht o.output step.id
    rw [hselected] at selects
    cases selects

/-- The loop keeps the invariant: a step has its turn in each round. -/
theorem yields_loop_computed (hg : w.Graph) (ht : w.Total) {deadline : Option ℚ} {rounds : ℕ} {done : List String}
    {h : History V} {st : RunState V} (hc : Computed w input done h st)
    (hrounds : done.length + rounds = w.steps.length) :
    Yields A (x.loop w input deadline rounds st) fun l r =>
      LoopEnds (fun rounds h st => ∃ done, Computed w input done h st ∧ done.length + rounds = w.steps.length)
        (fun _ e => ∀ e', e = .other e' → ¬ e'.isInstance "KeyError" ∧ ¬ e'.isInstance "WorkflowValidationError")
        (h ++ l) r := by
  refine x.yields_loop ?_ ⟨done, hc, hrounds⟩
  rintro rounds h st step ready hready ⟨done, hc, hrounds⟩
  have hproduced : ∀ edge ∈ ({ st with ready } : RunState V).reached w step.id, (st.produced.get? edge.source).isSome :=
    hc.produced_of_reached step.id
  refine (x.yields_turn hproduced).mono ?_
  rintro l r ⟨r', hturn, rfl⟩
  cases r' with
  | error e =>
    rintro e' rfl
    exact hturn.other ht
  | ok st' =>
    obtain ⟨next, hrelax, hc'⟩ := hc.of_turnRun hg hready hturn
    show Ends _ _ ((relaxEdges w (w.outgoing step.id) st').mapError Thrown.other)
    rw [hrelax]
    refine ⟨_, hc', ?_⟩
    rw [List.length_append, List.length_singleton]
    omega

/-- **A run computes the meaning of its definition, and none of its lookups fails.** -/
theorem run_meaning (hv : w.validate = .ok ()) (ht : w.Total) (timeout : Option ℚ) {h : History V}
    {r : Except (Thrown V) (WorkflowResult V)} (hrun : Traced A (x.run w input timeout) h r) :
    (∀ result, r = .ok result → Meaning w input h result) ∧
      (h ≠ [] → ∀ e, r = .error (.other e) → ¬ e.isInstance "KeyError" ∧ ¬ e.isInstance "WorkflowValidationError") := by
  have hg := graph_of_validate hv
  obtain ⟨st, hinit, -⟩ := computed_init input hg 0 0
  suffices hall : Yields A (x.run w input timeout) fun h r => (∀ result, r = .ok result → Meaning w input h result) ∧
      (h ≠ [] → ∀ e, r = .error (.other e) → ¬ e.isInstance "KeyError" ∧ ¬ e.isInstance "WorkflowValidationError") from
    hall h r hrun
  refine x.yields_run hv hinit (fun _ e _ => ⟨nofun, fun h => absurd rfl h⟩) fun _ started t => ?_
  obtain ⟨st', hinit', hc⟩ := computed_init input hg started t
  obtain rfl := Except.ok.inj (hinit.symm.trans hinit')
  refine (yields_loop_computed hg ht hc (by simp)).mono fun l r hends => ?_
  cases r with
  | error e =>
    refine ⟨nofun, fun _ e' he => hends.1 e' ?_⟩
    exact Except.error.inj he
  | ok r =>
    obtain ⟨st', stop⟩ := r
    cases stop with
    | some a => exact fun t' => ⟨nofun, fun _ e he => nomatch he⟩
    | none =>
      obtain ⟨rounds, ⟨done, hc', hrounds⟩, hstop⟩ := hends
      have hready : st'.ready = [] := by
        rcases hstop with rfl | hready
        · exact hc'.queued.ready_nil hrounds
        · exact hready
      intro before now t'
      refine ⟨?_, fun _ e he => nomatch he⟩
      rintro result hresult
      obtain rfl := Except.ok.inj hresult
      exact hc'.meaning hg hready rfl _

/-- A definition with a branch whose ends meet. -/
def fork : Workflow ℕ where
  name := "fork"
  steps := [{ id := "a" }, { id := "b" }, { id := "c" }, { id := "d" }]
  edges := [
    { source := "a", target := "b", when := some fun n => .ok (decide (5 < n)) },
    { source := "a", target := "c" },
    { source := "b", target := "d" },
    { source := "c", target := "d" }]

/-- Surroundings in which a step adds one to what it is given, and no time passes. -/
def addsOne : (q : Request ℕ) → q.Reply
  | .monotonic => (0 : ℚ)
  | .random => (0 : ℚ)
  | .emit _ => (0 : ℚ)
  | .cancelled => false
  | .reason => none
  | .attempt call => .returned (call.value + 1)
  | .sleep _ => ()

theorem total_fork : fork.Total := by
  intro e he p hp output
  simp only [fork, List.mem_cons, List.not_mem_nil, or_false] at he
  rcases he with rfl | rfl | rfl | rfl
  · obtain rfl := Option.some.inj hp
    exact ⟨_, rfl⟩
  · cases hp
  · cases hp
  · cases hp

theorem run_meaning_fork : ∃ h result,
    Traced (fun _ _ => True) (numbers.run fork 3 none) h (.ok result) ∧ Meaning fork 3 h result := by
  have hended : ((numbers.run fork 3 none).replay addsOne).2.toOption.isSome := by decide +kernel
  have htraced : Traced (fun _ _ => True) (numbers.run fork 3 none) ((numbers.run fork 3 none).replay addsOne).1
      ((numbers.run fork 3 none).replay addsOne).2 := traced_replay (fun _ => trivial) _
  cases hr : ((numbers.run fork 3 none).replay addsOne).2 with
  | error e =>
    rw [hr] at hended
    cases hended
  | ok result =>
    rw [hr] at htraced
    exact ⟨_, result, htraced, (run_meaning (by decide +kernel) total_fork none htraced).1 result rfl⟩

end Runs

end Xyberos.Execution
