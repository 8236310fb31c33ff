import Xyberos.Execution.Meaning

/-!
# Xyberos.Execution.Verdicts — what becomes of the steps of a definition

When every step is a function of what it is given, the graph alone decides what becomes of its steps, whichever engine
walks it: two consistent sets of verdicts agree on every step that both decide (`Consistent.agree`), and a step that two
chosen edges enter has no verdict at all (`Consistent.no_conflict`).  A run in process ends with the verdicts on all
steps, or at such a step (`run_pure`).
-/

set_option autoImplicit false

namespace Xyberos.Execution

open Proc

variable {V : Type}

/-- What becomes of a step: it ran on a value and returned an output, or it was skipped. -/
inductive Verdict (V : Type)
  | ran (value output : V)
  | skipped

/-- The verdicts on the steps that are decided. -/
abbrev Verdicts (V : Type) := String → Option (Verdict V)

/-- The source of the edge ran, and its output selects the edge. -/
def Chosen (w : Workflow V) (D : Verdicts V) (edge : Edge V) : Prop :=
  ∃ value output, D edge.source = some (.ran value output) ∧ Selects output (w.outgoing edge.source) edge

/-- The verdict on a step that the verdicts on its sources leave. -/
inductive Justified (w : Workflow V) (f : String → V → V) (input : V) (D : Verdicts V) (s : String) : Verdict V → Prop
  | entry (incoming : w.incoming s = []) : Justified w f input D s (.ran input (f s input))
  | edge {edge : Edge V} {value output : V} (mem : edge ∈ w.incoming s)
      (only : ∀ e ∈ w.incoming s, Chosen w D e ↔ e = edge) (source : D edge.source = some (.ran value output)) :
      Justified w f input D s (.ran output (f s output))
  | skipped (incoming : w.incoming s ≠ []) (none : ∀ e ∈ w.incoming s, ¬ Chosen w D e) :
      Justified w f input D s .skipped

/-- Every verdict is on a declared step, after those on its sources, and as they leave it. -/
structure Consistent (w : Workflow V) (f : String → V → V) (input : V) (D : Verdicts V) : Prop where
  declared : ∀ s v, D s = some v → s ∈ w.stepIds
  sources : ∀ s v, D s = some v → ∀ t ∈ w.sources s, ∃ v', D t = some v'
  justified : ∀ s v, D s = some v → Justified w f input D s v

section Verdicts

variable {w : Workflow V} {f : String → V → V} {input : V} {D D' : Verdicts V} {s : String} {v v' : Verdict V}

theorem chosen_congr {edge : Edge V} (h : D edge.source = D' edge.source) : Chosen w D edge ↔ Chosen w D' edge := by
  unfold Chosen
  rw [h]

/-- The verdicts on the sources leave one verdict. -/
theorem Justified.unique (hsame : ∀ e ∈ w.incoming s, D e.source = D' e.source) (h : Justified w f input D s v)
    (h' : Justified w f input D' s v') : v = v' := by
  have hchosen : ∀ e ∈ w.incoming s, Chosen w D e ↔ Chosen w D' e := fun e he => chosen_congr (hsame e he)
  cases h with
  | entry hin =>
    cases h' with
    | entry => rfl
    | edge mem =>
      rw [hin] at mem
      cases mem
    | skipped hne => exact absurd hin hne
  | @edge e _ _ mem only source =>
    have hc : Chosen w D' e := (hchosen e mem).mp ((only e mem).mpr rfl)
    cases h' with
    | entry hin =>
      rw [hin] at mem
      cases mem
    | @edge e' _ _ mem' only' source' =>
      obtain rfl := (only' e mem).mp hc
      rw [hsame e mem, source'] at source
      obtain ⟨-, rfl⟩ := Verdict.ran.inj (Option.some.inj source)
      rfl
    | skipped _ none => exact absurd hc (none e mem)
  | skipped hne none =>
    cases h' with
    | entry hin => exact absurd hin hne
    | @edge e' _ _ mem' only' =>
      exact absurd ((hchosen e' mem').mpr ((only' e' mem').mpr rfl)) (none e' mem')
    | skipped => rfl

/-- **Consistent verdicts agree.** -/
theorem Consistent.agree (hg : w.Graph) (h : Consistent w f input D) (h' : Consistent w f input D')
    (hs : D s = some v) (hs' : D' s = some v') : v = v' := by
  obtain ⟨order, ho, hmem⟩ := hg.ordered
  have hall : ∀ t ∈ order, ∀ v v', D t = some v → D' t = some v' → v = v' := by
    refine ho.induction fun t _ ih v v' hv hv' => ?_
    refine (h.justified t v hv).unique (fun e he => ?_) (h'.justified t v' hv')
    have hsource : e.source ∈ w.sources t := List.mem_map_of_mem he
    obtain ⟨u, hu⟩ := h.sources t v hv _ hsource
    obtain ⟨u', hu'⟩ := h'.sources t v' hv' _ hsource
    rw [hu, hu', ih e.source hsource u u' hu hu']
  exact hall s (hmem s (h.declared s v hs)) v v' hs hs'

/-- Verdicts on all steps. -/
def Complete (w : Workflow V) (D : Verdicts V) : Prop := ∀ s ∈ w.stepIds, ∃ v, D s = some v

/-- Where every step has a verdict, no two chosen edges enter a step. -/
theorem Consistent.no_conflict (hg : w.Graph) (h : Consistent w f input D) (h' : Consistent w f input D')
    (htotal : Complete w D') {e e' : Edge V} (he : e ∈ w.incoming s) (he' : e' ∈ w.incoming s)
    (hne : e ≠ e') (hc : Chosen w D e) (hc' : Chosen w D e') : False := by
  have hmove : ∀ {e : Edge V}, Chosen w D e → Chosen w D' e := by
    rintro e ⟨value, output, hsource, hselects⟩
    obtain ⟨v, hv⟩ := htotal _ (h.declared _ _ hsource)
    obtain rfl := h.agree hg h' hsource hv
    exact ⟨value, output, hv, hselects⟩
  obtain ⟨hmem, htarget⟩ := Workflow.mem_incoming.mp he
  obtain ⟨v, hv⟩ := htotal s (htarget ▸ hg.target_mem e hmem)
  cases h'.justified s v hv with
  | entry hin =>
    rw [hin] at he
    cases he
  | edge _ only => exact hne (((only e he).mp (hmove hc)).trans ((only e' he').mp (hmove hc')).symm)
  | skipped _ none => exact none e he (hmove hc)

/-- There is one set of consistent verdicts on all steps at most. -/
theorem Consistent.eq_of_complete (hg : w.Graph) (h : Consistent w f input D) (h' : Consistent w f input D')
    (hc : Complete w D) (hc' : Complete w D') : D = D' := by
  funext s
  by_cases hs : s ∈ w.stepIds
  · obtain ⟨v, hv⟩ := hc s hs
    obtain ⟨v', hv'⟩ := hc' s hs
    rw [hv, hv', h.agree hg h' hv hv']
  · have hnone : ∀ {D : Verdicts V}, Consistent w f input D → D s = none := by
      intro D hD
      exact Option.eq_none_iff_forall_ne_some.mpr fun v hv => hs (hD.declared s v hv)
    rw [hnone h, hnone h']

/-- One more verdict, on a step whose sources are decided. -/
theorem Consistent.extend (h : Consistent w f input D) (hs : D s = none) (hmem : s ∈ w.stepIds)
    (hsources : ∀ t ∈ w.sources s, ∃ v, D t = some v) (hv : Justified w f input D s v) :
    Consistent w f input fun t => if t = s then some v else D t := by
  have hold : ∀ {t u}, D t = some u → (if t = s then some v else D t) = some u := by
    intro t u hu
    rw [if_neg, hu]
    rintro rfl
    rw [hs] at hu
    cases hu
  -- the sources of a decided step are not the new step
  have hjustified : ∀ {t : String} {u : Verdict V}, (∀ e ∈ w.incoming t, ∃ u, D e.source = some u) →
      Justified w f input D t u → Justified w f input (fun t => if t = s then some v else D t) t u := by
    intro t u ht hj
    have hchosen : ∀ e ∈ w.incoming t, Chosen w (fun t => if t = s then some v else D t) e ↔ Chosen w D e := by
      intro e he
      obtain ⟨u, hu⟩ := ht e he
      exact chosen_congr ((hold hu).trans hu.symm)
    cases hj with
    | entry hin => exact .entry hin
    | edge mem only source => exact .edge mem (fun e he => (hchosen e he).trans (only e he)) (hold source)
    | skipped hne none => exact .skipped hne fun e he hc => none e he ((hchosen e he).mp hc)
  have hincoming : ∀ {t : String}, (∀ t' ∈ w.sources t, ∃ u, D t' = some u) →
      ∀ e ∈ w.incoming t, ∃ u, D e.source = some u := fun ht e he => ht _ (List.mem_map_of_mem he)
  refine ⟨?_, ?_, ?_⟩
  · intro t u hu
    split_ifs at hu with ht
    · exact ht ▸ hmem
    · exact h.declared t u hu
  · intro t u hu t' ht'
    have hdecided : ∃ u', D t' = some u' := by
      split_ifs at hu with ht
      · subst ht
        exact hsources t' ht'
      · exact h.sources t u hu t' ht'
    obtain ⟨u', hu'⟩ := hdecided
    exact ⟨u', hold hu'⟩
  · intro t u hu
    split_ifs at hu with ht
    · subst ht
      obtain rfl := Option.some.inj hu
      exact hjustified (hincoming hsources) hv
    · exact hjustified (hincoming (h.sources t u hu)) (h.justified t u hu)

end Verdicts

/-! ## A run in process -/

/-- Surroundings in which every step is a function of what it is given, and nobody cancels. -/
def Functional (f : String → V → V) : (q : Request V) → q.Reply → Prop
  | .attempt call, ended => ended = .returned (f call.step call.value)
  | .cancelled, cancelled => cancelled = false
  | _, _ => True

/-- The value an attempt at the step was given. -/
def given (x : WorkflowExecutor V) (h : History V) (stepId : String) : V :=
  ((trials h).find? fun c => c.1.step = stepId).elim x.null fun c => c.1.value

/-- The verdicts that the outcomes of a run stand for. -/
def verdicts (x : WorkflowExecutor V) (h : History V) (outcomes : Dict (StepOutcome V)) : Verdicts V := fun s =>
  (outcomes.get? s).map fun o => if o.status = .succeeded then .ran (given x h s) o.output else .skipped

section Functional

variable {x : WorkflowExecutor V} {w : Workflow V} {input : V} {f : String → V → V} {done : List String}
  {h : History V} {st : RunState V}

theorem verdicts_ran {outcomes : Dict (StepOutcome V)} {s : String} {value output : V}
    (hv : verdicts x h outcomes s = some (.ran value output)) :
    ∃ o, outcomes.get? s = some o ∧ o.status = .succeeded ∧ o.output = output ∧ given x h s = value := by
  unfold verdicts at hv
  obtain ⟨o, ho, hv⟩ := Option.map_eq_some_iff.mp hv
  split_ifs at hv with hstatus
  obtain ⟨rfl, rfl⟩ := Verdict.ran.inj hv
  exact ⟨o, ho, hstatus, rfl, rfl⟩

theorem verdicts_of_succeeded {outcomes : Dict (StepOutcome V)} {s : String} {o : StepOutcome V}
    (ho : outcomes.get? s = some o) (hstatus : o.status = .succeeded) :
    verdicts x h outcomes s = some (.ran (given x h s) o.output) := by
  rw [verdicts, ho, Option.map_some, if_pos hstatus]

/-- An edge is chosen by the verdicts if it was selected. -/
theorem chosen_verdicts {outcomes : Dict (StepOutcome V)} {edge : Edge V} :
    Chosen w (verdicts x h outcomes) edge ↔ Selected w outcomes edge := by
  constructor
  · rintro ⟨value, output, hv, hselects⟩
    obtain ⟨o, ho, hstatus, rfl, -⟩ := verdicts_ran hv
    exact ⟨o, ho, hstatus, hselects⟩
  · rintro ⟨o, ho, hstatus, hselects⟩
    exact ⟨_, o.output, verdicts_of_succeeded ho hstatus, hselects⟩

/-- A step that ran was given a value once, and its output is the function of it. -/
theorem Computed.given (hc : Computed w input done h st)
    (hf : ∀ c ∈ trials h, c.2 = .returned (f c.1.step c.1.value)) {s : String} {o : StepOutcome V}
    (ho : st.outcomes.get? s = some o) (hstatus : o.status = .succeeded) :
    (∃ c ∈ trials h, c.1.step = s ∧ c.1.value = given x h s) ∧ o.output = f s (given x h s) := by
  have hreturns := hc.once s o ho
  rw [if_pos hstatus] at hreturns
  obtain ⟨c, hmem, hret⟩ := List.mem_filterMap.mp (hreturns ▸ List.mem_singleton_self o.output)
  have hstep := step_of_returned hret
  cases hfind : (trials h).find? fun c => c.1.step = s with
  | none =>
    have := List.find?_eq_none.mp hfind c hmem
    simp [hstep] at this
  | some c' =>
    have hmem' := List.mem_of_find?_eq_some hfind
    have hstep' : c'.1.step = s := by simpa using List.find?_some hfind
    have hgiven : Xyberos.Execution.given x h s = c'.1.value := by
      rw [Xyberos.Execution.given, hfind]
      rfl
    refine ⟨⟨c', hmem', hstep', hgiven.symm⟩, ?_⟩
    have hout : f s c'.1.value ∈ returns h s := by
      refine List.mem_filterMap.mpr ⟨c', hmem', ?_⟩
      have hended := hf c' hmem'
      obtain ⟨call, ended⟩ := c'
      have hcall : call.step = s := hstep'
      rw [show ended = .returned (f call.step call.value) from hended, returnedBy, if_pos hcall, hcall]
    rw [hreturns, List.mem_singleton] at hout
    rw [hgiven, hout]

theorem Computed.consistent (hc : Computed w input done h st)
    (hf : ∀ c ∈ trials h, c.2 = .returned (f c.1.step c.1.value)) :
    Consistent w f input (verdicts x h st.outcomes) := by
  have hdone : ∀ {s}, (∃ v, verdicts x h st.outcomes s = some v) ↔ s ∈ done := by
    intro s
    rw [hc.get?_isSome, verdicts]
    cases st.outcomes.get? s with
    | none => simp
    | some o => simp
  refine ⟨fun s v hv => hc.queued.subset s (hdone.mp ⟨v, hv⟩),
    fun s v hv t ht => hdone.mpr (hc.queued.sources_done (hdone.mp ⟨v, hv⟩) t ht), fun s v hv => ?_⟩
  obtain ⟨o, ho, hv⟩ := Option.map_eq_some_iff.mp hv
  have hsettled := hc.settled s o ho
  have hchosen : ∀ e, Chosen w (verdicts x h st.outcomes) e ↔ Selected w st.outcomes e := fun e => chosen_verdicts
  split_ifs at hv with hstatus
  · subst hv
    obtain ⟨⟨c, hmem, rfl, hvalue⟩, hout⟩ := hc.given (x := x) hf ho hstatus
    rw [hout, ← hvalue]
    rcases hc.received c hmem with ⟨hin, hinput⟩ | ⟨edge, hedge, o', ho', hselected, hv'⟩
    · rw [hinput]
      exact .entry hin
    · rcases hsettled.succeeded.mp hstatus with hin | ⟨e, -, honly⟩
      · rw [hin] at hedge
        cases hedge
      · rw [hv']
        refine .edge hedge (fun e' he' => ?_) (verdicts_of_succeeded ho' ?_)
        · rw [hchosen]
          constructor
          · intro hs
            exact (honly e' ⟨he', hs⟩).trans (honly edge ⟨hedge, hselected⟩).symm
          · rintro rfl
            exact hselected
        · obtain ⟨o'', ho'', hstatus', -⟩ := hselected
          obtain rfl := Option.some.inj (ho'.symm.trans ho'')
          exact hstatus'
  · subst hv
    have hskipped : o.status = .skipped := hsettled.status.resolve_left hstatus
    refine .skipped (fun hin => hstatus (hsettled.succeeded.mpr (.inl hin))) fun e he hc' => ?_
    exact hsettled.skipped hskipped e he ((hchosen e).mp hc')

/-- The attempts of a run answered by a function returned it. -/
theorem trials_functional {α : Type} {p : Coroutine V α} {r : Except (Thrown V) α}
    (hrun : Traced (Functional f) p h r) : ∀ c ∈ trials h, c.2 = .returned (f c.1.step c.1.value) := by
  intro c hc
  obtain ⟨⟨q, ended⟩, hmem, hx⟩ := List.mem_filterMap.mp hc
  cases q with
  | attempt call =>
    obtain rfl := Option.some.inj hx
    exact hrun.allowed _ hmem
  | _ => cases hx

/-- A step that always returns has an outcome. -/
theorem StepRun.functional {step : Step V} {value : V} {number : ℕ} {cs : List (Trial V)} {es : List Emission}
    {deadline : Option ℚ} {r : Except (Thrown V) (StepOutcome V)}
    (hrun : StepRun (Functional f) x step value deadline number cs es r) : ∃ o, r = .ok o := by
  have hfails : ∀ {call : AttemptCall V} {ended : RaceEnd V} {result : AttemptResult V},
      Functional f (.attempt call) ended → x.raceResult call ended = .ok result →
        ¬ (result.stop.isSome ∨ result.error.isSome) := by
    rintro call ended result rfl ⟨⟩ (h | h) <;> cases h
  induction hrun with
  | uncalled _ allowed => cases allowed
  | done => exact ⟨_, rfl⟩
  | raised _ allowed _ _ raced judged =>
    have hfails := hfails allowed raced
    cases judged with
    | aborted _ _ _ failed => exact absurd failed hfails
    | interrupted fails => exact absurd (failure_failed fails) hfails
    | overflowed fails => exact absurd (failure_failed fails) hfails
    | unformatted stop => exact absurd (.inl (by rw [stop]; rfl)) hfails
  | again _ allowed _ _ raced judged =>
    cases judged with
    | retried fails => exact absurd (failure_failed fails) (hfails allowed raced)

/-- The error of a run in which more than one branch reached a step. -/
def Merges (e : ExecutionError V) : Prop :=
  ∃ s sources, e.step = some s ∧ e.error = workflowExecutionError (conflictMessage s sources)

/-- The verdicts choose two edges into one step. -/
def Contested (w : Workflow V) (D : Verdicts V) : Prop :=
  ∃ s, ∃ e ∈ w.incoming s, ∃ e' ∈ w.incoming s, e ≠ e' ∧ Chosen w D e ∧ Chosen w D e'

/-- How the loop is left by a turn: at a step that two branches reached. -/
def LeftAt (x : WorkflowExecutor V) (w : Workflow V) (input : V) (h : History V) (e : Thrown V) : Prop :=
  ∃ a s sources, e = .abort a ∧ a.kind = .failed ∧ a.step = some s ∧ a.message = conflictMessage s sources ∧
    ∃ done h' st, (∀ c ∈ trials h', c ∈ trials h) ∧ Computed w input done h' st ∧
      Contested w (verdicts x h' st.outcomes)

/-- Two edges reached the step. -/
theorem Computed.contested (hg : w.Graph) (hc : Computed w input done h st) {s : String}
    (hmany : 2 ≤ (st.reached w s).length) : Contested w (verdicts x h st.outcomes) := by
  have hnodup : (st.reached w s).Nodup := ((List.Nodup.of_map _ hg.distinct).filter _).filter _
  have hmem : ∀ e ∈ st.reached w s, e ∈ w.incoming s ∧ Chosen w (verdicts x h st.outcomes) e := fun e he => by
    rw [chosen_verdicts]
    exact hc.mem_reached.mp he
  match hreached : st.reached w s with
  | [] =>
    rw [hreached] at hmany
    simp at hmany
  | [e] =>
    rw [hreached] at hmany
    simp at hmany
  | e :: e' :: rest =>
    rw [hreached] at hnodup hmem
    obtain ⟨he, hchosen⟩ := hmem e (by simp)
    obtain ⟨he', hchosen'⟩ := hmem e' (by simp)
    refine ⟨s, e, he, e', he', ?_, hchosen, hchosen'⟩
    rintro rfl
    simp at hnodup

theorem yields_loop_functional (hg : w.Graph) (ht : w.Total) {rounds : ℕ} (hc : Computed w input done h st)
    (hrounds : done.length + rounds = w.steps.length) :
    Yields (Functional f) (x.loop w input none rounds st) fun l r =>
      LoopEnds (fun rounds h st => ∃ done, Computed w input done h st ∧ done.length + rounds = w.steps.length)
        (LeftAt x w input) (h ++ l) r := by
  refine x.yields_loop ?_ ⟨done, hc, hrounds⟩
  rintro rounds h st step ready hready ⟨done, hc, hrounds⟩
  have hproduced : ∀ edge ∈ ({ st with ready } : RunState V).reached w step.id, (st.produced.get? edge.source).isSome :=
    hc.produced_of_reached step.id
  refine (x.yields_turn hproduced).mono ?_
  rintro l r ⟨r', hturn, rfl⟩
  cases r' with
  | error e =>
    generalize trials l = cs at hturn
    generalize emissions l = es at hturn
    cases hturn with
    | @conflict a sources hmany hkind hnamed hmessage =>
      refine ⟨a, step.id, sources, rfl, hkind, hnamed, hmessage, done, h, st, fun c hmem => by simp [hmem], hc, ?_⟩
      exact hc.contested hg hmany
    | halted kind =>
      rcases kind with ⟨-, hcancelled⟩ | ⟨-, hdeadline⟩
      · cases hcancelled
      · cases hdeadline
    | raised _ run =>
      obtain ⟨o, ho⟩ := run.functional
      cases ho
    | @unselected _ _ _ o _ _ _ selects =>
      obtain ⟨selected, hselected⟩ := selectEdge_total ht o.output step.id
      rw [hselected] at selects
      cases selects
  | ok st' =>
    obtain ⟨next, hrelax, hc'⟩ := hc.of_turnRun hg hready hturn
    show Ends _ _ ((relaxEdges w (w.outgoing step.id) st').mapError Thrown.other)
    rw [hrelax]
    refine ⟨_, hc', ?_⟩
    rw [List.length_append, List.length_singleton]
    omega

/-- **A run of functions** ends with consistent verdicts on all steps, which its result shows, or because two branches
reach a step. -/
theorem run_functional (hv : w.validate = .ok ()) (ht : w.Total)
    (haccepted : ∀ type ∈ w.inputType, type.isInstance input = true) {r : Except (Thrown V) (WorkflowResult V)}
    (hrun : Traced (Functional f) (x.run w input none) h r) :
    (∃ result, r = .ok result ∧ Meaning w input h result ∧ Consistent w f input (verdicts x h result.steps)) ∨
      (∃ e, r = .error (.execution e) ∧ Merges e) ∧ ∃ D, Consistent w f input D ∧ Contested w D := by
  have hg := graph_of_validate hv
  obtain ⟨st, hinit, -⟩ := computed_init input hg 0 0
  have hf := trials_functional hrun
  suffices hall : Yields (Functional f) (x.run w input none) fun h r =>
      (∃ result done h' st, r = .ok result ∧ trials h = trials h' ∧ Computed w input done h' st ∧
          Meaning w input h result ∧ result.steps = st.outcomes) ∨
        (∃ e, r = .error (.execution e) ∧ Merges e) ∧ ∃ done h' st, (∀ c ∈ trials h', c ∈ trials h) ∧
          Computed w input done h' st ∧ Contested w (verdicts x h' st.outcomes) by
    rcases hall h r hrun with ⟨result, done, h', st, hr, htrials, hc, hmeaning, hsteps⟩ |
      ⟨he, done, h', st, htrials, hc, hcontested⟩
    · refine .inl ⟨result, hr, hmeaning, ?_⟩
      have hsame : verdicts x h result.steps = verdicts x h' st.outcomes := by
        rw [hsteps]
        unfold verdicts Xyberos.Execution.given
        rw [htrials]
      rw [hsame]
      exact hc.consistent fun c hmem => hf c (htrials ▸ hmem)
    · exact .inr ⟨he, _, hc.consistent fun c hmem => hf c (htrials c hmem), hcontested⟩
  refine x.yields_run hv hinit (fun hrefused e _ => ?_) fun _ started t => ?_
  · exact absurd ⟨nofun, haccepted⟩ hrefused
  · obtain ⟨st', hinit', hc⟩ := computed_init input hg started t
    obtain rfl := Except.ok.inj (hinit.symm.trans hinit')
    refine (yields_loop_functional hg ht hc (by simp)).mono fun l r hends => ?_
    cases r with
    | error e =>
      obtain ⟨⟨a, _, _, rfl, -⟩, hno⟩ := hends
      exact absurd rfl (hno a)
    | ok r =>
      obtain ⟨st', stop⟩ := r
      cases stop with
      | some a =>
        obtain ⟨a', s, sources, ha, hkind, hnamed, hmessage, done, h', st'', htrials, hc', hcontested⟩ := hends
        obtain rfl := Thrown.abort.inj ha
        intro before t'
        refine .inr ⟨⟨_, rfl, s, sources, hnamed, ?_⟩, done, h', st'', fun c hmem => ?_, hc', hcontested⟩
        · show a.kind.error a.message = _
          rw [hkind, hmessage]
          rfl
        · rw [trials_append]
          exact List.mem_append_left _ (htrials c hmem)
      | none =>
        obtain ⟨rounds, ⟨done, hc', hrounds⟩, hstop⟩ := hends
        have hready : st'.ready = [] := by
          rcases hstop with rfl | hready
          · exact hc'.queued.ready_nil hrounds
          · exact hready
        intro before now t'
        refine .inl ⟨_, done, _, st', rfl, ?_, hc', hc'.meaning hg hready rfl _, rfl⟩
        rw [trials_append]
        exact List.append_nil _

end Functional

end Xyberos.Execution
