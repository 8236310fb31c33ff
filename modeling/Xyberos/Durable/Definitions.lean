import Xyberos.Durable.Grounds
import Mathlib.Data.Rat.Encodable
import Mathlib.Logic.Equiv.List

/-!
# Xyberos.Durable.Definitions — an execution advances on the graph it was submitted with

The fingerprint of a definition covers its name, its version, the ids and timeouts of its steps and its edges, and
which of them are conditioned (`fingerprintPayload_eq_iff`), and with the branch predicates that is all `plan_next`
looks at (`planNext_bare`).  So whatever definitions the workers hold, those that decide about an execution match the
one it was submitted with (`advances_on_submitted`).
-/

set_option autoImplicit false

namespace Xyberos

variable {V : Type}

/-! ## Definitions that match -/

/-- The definitions differ at most in their metadata, their input type, their retry policies and their branch
predicates. -/
structure Workflow.Matches (w w' : Workflow V) : Prop where
  name : w.name = w'.name
  version : w.version = w'.version
  steps : (w.steps.map fun s => (s.id, s.timeout)) = w'.steps.map fun s => (s.id, s.timeout)
  edges : (w.edges.map fun e => (e.source, e.target, e.when.isSome)) =
    w'.edges.map fun e => (e.source, e.target, e.when.isSome)

/-- The step with nothing but its id. -/
def Step.bare (s : Step V) : Step V := { id := s.id }

/-- The definition with nothing but what `plan_next` looks at. -/
def Workflow.bare (w : Workflow V) : Workflow V :=
  { w with inputType := none, steps := w.steps.map Step.bare, metadata := [] }

theorem Workflow.Matches.stepIds {w w' : Workflow V} (h : w.Matches w') : w.stepIds = w'.stepIds := by
  have hids := congrArg (List.map Prod.fst) h.steps
  simpa [Workflow.stepIds, Function.comp_def] using hids

/-- Matching definitions with the same predicates are the same to `plan_next`. -/
theorem Workflow.Matches.bare {w w' : Workflow V} (h : w.Matches w')
    (hwhen : w.edges.map Edge.when = w'.edges.map Edge.when) : w.bare = w'.bare := by
  have hsteps : w.steps.map Step.bare = w'.steps.map Step.bare := by
    have hids := congrArg (List.map fun s : String => ({ id := s } : Step V)) h.stepIds
    rw [Workflow.stepIds, Workflow.stepIds, List.map_map, List.map_map] at hids
    exact hids
  have hedges : w.edges = w'.edges := by
    have hpairs := congrArg (List.map fun x : String × String × Bool => (x.1, x.2.1)) h.edges
    simp only [List.map_map] at hpairs
    refine List.ext_getElem (by simpa using congrArg List.length h.edges) fun i hi hi' => ?_
    have hpair := List.getElem_of_eq hpairs (by simpa using hi)
    have hw := List.getElem_of_eq hwhen (by simpa using hi)
    simp only [List.getElem_map, Function.comp_apply, Prod.mk.injEq] at hpair hw
    cases hx : w.edges[i]
    cases hy : w'.edges[i]
    simp_all
  rw [Workflow.bare, Workflow.bare, h.name, h.version, hsteps, hedges]

namespace Durable

/-- The payload of the fingerprint is what matching definitions agree on. -/
theorem fingerprintPayload_eq_iff {w w' : Workflow V} : fingerprintPayload w = fingerprintPayload w' ↔ w.Matches w' := by
  constructor
  · intro h
    have hsteps := congrArg (List.map fun x : String × Option ℚ × List String => (x.1, x.2.1))
      (congrArg FingerprintPayload.steps h)
    refine ⟨congrArg FingerprintPayload.name h, congrArg FingerprintPayload.version h, ?_,
      congrArg FingerprintPayload.edges h⟩
    simpa [fingerprintPayload, Function.comp_def] using hsteps
  · intro h
    have hpairs : (w.edges.map fun e => (e.source, e.target)) = w'.edges.map fun e => (e.source, e.target) := by
      have hpairs := congrArg (List.map fun x : String × String × Bool => (x.1, x.2.1)) h.edges
      simpa [Function.comp_def] using hpairs
    have hsources : ∀ (w : Workflow V) (s : String), (w.incoming s).map Edge.source =
        ((w.edges.map fun e => (e.source, e.target)).filter fun x => x.2 = s).map Prod.fst := by
      intro w s
      rw [List.filter_map, List.map_map]
      rfl
    have hsteps : ∀ w : Workflow V, (fingerprintPayload w).steps =
        (w.steps.map fun s => (s.id, s.timeout)).map fun x => (x.1, x.2,
          (((w.edges.map fun e => (e.source, e.target)).filter fun y => y.2 = x.1).map Prod.fst).insertionSort (· ≤ ·)) := by
      intro w
      simp [fingerprintPayload, hsources]
    have hs : (fingerprintPayload w).steps = (fingerprintPayload w').steps := by rw [hsteps, hsteps, h.steps, hpairs]
    have he : (fingerprintPayload w).edges = (fingerprintPayload w').edges := h.edges
    cases hx : fingerprintPayload w
    cases hy : fingerprintPayload w'
    rw [hx, hy] at hs he
    obtain rfl : w.name = _ := congrArg FingerprintPayload.name hx
    obtain rfl : w.version = _ := congrArg FingerprintPayload.version hx
    obtain rfl : w'.name = _ := congrArg FingerprintPayload.name hy
    obtain rfl : w'.version = _ := congrArg FingerprintPayload.version hy
    simp_all [h.name, h.version]

/-! ## What `plan_next` looks at -/

section Bare

variable (w : Workflow V) (null : V) (states : String → Option StepState) (outputs : String → Option V)

/-- The plan with nothing but the id of its step. -/
def Plan.bare : Plan V → Plan V
  | .runStep step value sources => .runStep step.bare value sources
  | .skipStep step reason => .skipStep step.bare reason
  | .complete results reason => .complete results reason
  | .conflict step sources reason => .conflict step.bare sources reason
  | .needsDecision step reason => .needsDecision step.bare reason

theorem takenEdges_bare (steps : List (Step V)) :
    takenEdges w.bare null states outputs (steps.map Step.bare) = takenEdges w null states outputs steps := by
  induction steps with
  | nil => rfl
  | cons step rest ih =>
    rw [List.map_cons, takenEdges, takenEdges, ih]
    rfl

theorem exits_bare : w.bare.exits = w.exits.map Step.bare := by
  unfold Workflow.exits
  rw [Workflow.bare, List.filter_map]
  rfl

theorem planSteps_bare (taken : List (String × String)) (steps : List (Step V)) (undecided : Bool) :
    planSteps w.bare null states outputs taken (steps.map Step.bare) undecided =
      (planSteps w null states outputs taken steps undecided).map Plan.bare := by
  induction steps generalizing undecided with
  | nil =>
    rw [List.map_nil, planSteps, planSteps]
    split_ifs
    · rfl
    · rw [exits_bare, List.filterMap_map]
      rfl
  | cons step rest ih =>
    rw [List.map_cons, planSteps, planSteps]
    have hin : w.bare.incoming step.bare.id = w.incoming step.id := rfl
    dsimp only
    rw [hin, show step.bare.id = step.id from rfl]
    split_ifs
    · exact ih undecided
    · rfl
    · rfl
    · exact ih true
    · split <;> rfl

/-- **The scheduler depends on nothing else of the definition.** -/
theorem planNext_bare : planNext w.bare null states outputs = (planNext w null states outputs).map Plan.bare := by
  unfold planNext
  rw [show w.bare.steps = w.steps.map Step.bare from rfl, takenEdges_bare]
  cases takenEdges w null states outputs w.steps with
  | error e => rfl
  | ok taken => exact planSteps_bare w null states outputs taken w.steps false

end Bare

/-! ## Histories with different definitions -/

theorem requireDefinition_eq_ok {store : JournalStore V} {lookup : DefinitionLookup V} {c : Claim V} {w : Workflow V} :
    requireDefinition store lookup c = .ok w ↔
      lookup c.workflow c.version = some w ∧ store.definitionFingerprint w = c.fingerprint := by
  unfold requireDefinition
  cases hl : lookup c.workflow c.version with
  | none => simp
  | some w' =>
    dsimp only
    split_ifs with hne
    · simp only [Option.some.injEq, false_iff, not_and]
      rintro rfl
      exact hne
    · rw [Except.ok.injEq, Option.some.injEq]
      refine ⟨?_, fun h => h.1⟩
      rintro rfl
      exact ⟨rfl, not_not.mp hne⟩

/-- Only starts, skips and ends of attempts change the steps of an execution. -/
theorem Record.Step.steps_of_none {store : JournalStore V} {now : Instant} {id : String} {op : Op V} {r r' : Record}
    (h : Record.Step store now id op r r') (hrow : r.row ≠ none) (hop : ¬ op.Decided) (hs : op.attempt? = none) :
    r'.steps = r.steps := by
  cases h with
  | submit absent => exact absurd absent hrow
  | startStep => exact absurd trivial hop
  | skipStep => exact absurd trivial hop
  | completeStep => cases hs
  | failStep => cases hs
  | retryStep => cases hs
  | markUnknown => cases hs
  | resolveStep => cases hs
  | requestLive => exact recordRequest_steps
  | requestFinish => exact recordRequest_steps
  | acknowledge => exact recordOwnRequest_steps
  | _ => rfl

/-- Those operations are made under a claim. -/
theorem Op.writer_of_decided {op : Op V} (h : op.Decided ∨ op.attempt? ≠ none) : ∃ c, op.writer? = some c := by
  cases op <;> simp_all [Op.Decided, Op.attempt?, Op.writer?, Op.claim?]

section History

variable (f : Fleet V)

/-- Workers that each hold definitions of their own, and may hold others the next time they are called. -/
def ownDefinitions : Planned V (DefinitionLookup V) where
  store := f.store
  fleet d := { f with definitions := d }
  inv _ := True
  fair _ _ _ _ := True

theorem ownDefinitions_kept : (ownDefinitions f).discipline.Kept (ownDefinitions f).fleet :=
  Planned.kept _ (fun _ => rfl) trivial (fun _ _ _ _ => trivial) fun _ _ _ _ _ _ _ _ _ => trivial

/-- What the call `op` of worker `i` has to do with the definitions.  If it starts or skips a step, reports a conflict or
completes the execution, and is accepted, then it carries out a plan of `plan_next` on a definition that matches the
submitted one; and if the worker has no such definition, the steps of the execution stay as they are. -/
structure AdvancesOnSubmitted (s : Roster V (DefinitionLookup V) (Notes V)) (i : ℕ) (now : Instant) (op : Op V) :
    Prop where
  decided : ∀ c a, op.writer? = some c → op.Decided → ((op.txn f.store now).commit s.system.journal).1 = .ok a →
    ∃ submitted w plan, s.submitted c.executionId = some submitted ∧
      s.param i submitted.name submitted.version = some w ∧ w.Matches submitted ∧
      (s.scene.record c.executionId).Plans f.store w ((s.notes i).resolved = false) plan ∧ op.CarriesOut f.store plan
  spared : ∀ id submitted, s.submitted id = some submitted →
    (∀ w, s.param i submitted.name submitted.version = some w → ¬ w.Matches submitted) →
    ((Call.exec f.store s.system.journal ⟨op, now⟩).record id).steps = (s.system.journal.record id).steps

variable {f}

/-- The definition that a claim requires matches the submitted one. -/
theorem matches_of_required (hdigest : Function.Injective f.store.digest) {x : Scene V} (hx : x.Proper f.store)
    {lookup : DefinitionLookup V} {c : Claim V} (habout : ∃ row, (x.record c.executionId).row = some row ∧
      c.About f.store row) {w : Workflow V} (hw : requireDefinition f.store lookup c = .ok w) :
    ∃ submitted, x.submitted c.executionId = some submitted ∧
      lookup submitted.name submitted.version = some w ∧ w.Matches submitted := by
  obtain ⟨row, hrow, habout⟩ := habout
  obtain ⟨submitted, hsub, hname, hversion, hprint, -⟩ := hx.submitted _ row hrow
  obtain ⟨hlookup, hfingerprint⟩ := requireDefinition_eq_ok.mp hw
  refine ⟨submitted, hsub, ?_, fingerprintPayload_eq_iff.mp (hdigest ?_)⟩
  · rw [← hname, ← hversion, ← habout.workflow, ← habout.version]
    exact hlookup
  · exact hfingerprint.trans (habout.fingerprint.trans hprint)

theorem advancesOnSubmitted (hdigest : Function.Injective f.store.digest)
    {s : Roster V (DefinitionLookup V) (Notes V)} {held : ℕ → Set (String × ℕ)}
    (h : s.Sound (ownDefinitions f).discipline held) {i : ℕ} {now : Instant} {op : Op V}
    (hq : s.asks i = some (.store op)) : AdvancesOnSubmitted f s i now op := by
  obtain ⟨-, hmay⟩ := h.asked hq now trivial
  -- the definition the worker decided on
  have required : ∀ c, op.writer? = some c → op.Decided ∨ op.attempt? ≠ none → ∃ w submitted,
      (ownDefinitions f).Grounded (s.param i) ⟨s.scene, held i, s.notes i⟩ c op w ∧
      s.submitted c.executionId = some submitted ∧ s.param i submitted.name submitted.version = some w ∧
      w.Matches submitted := by
    intro c hc hop
    obtain ⟨-, hhas, hgrounded⟩ := hmay c hc
    obtain ⟨w, hw⟩ := hgrounded hop
    obtain ⟨submitted, hsub⟩ := matches_of_required hdigest h.inv.1 hhas.about hw.definition
    exact ⟨w, submitted, hw, hsub⟩
  constructor
  · intro c a hc hop ha
    obtain ⟨w, submitted, hw, hsub, hparam, hmatches⟩ := required c hc (.inl hop)
    have hclaim : op.claim? = some c := by cases op <;> first | exact hc | cases hc
    have hguard := guard_of_run hclaim (Txn.run_of_commit ha)
    obtain ⟨plan, hplan, hcarries⟩ := hw.decided hop (Record.Guard.fence_eq hguard)
    exact ⟨submitted, w, plan, hsub, hparam, hmatches, hplan, hcarries⟩
  · intro id submitted hsub hnone
    rcases Scene.call_cases f.store s.scene ⟨op, now⟩ id with he | hstep
    · exact congrArg Record.steps he
    · by_cases hop : op.Decided ∨ op.attempt? ≠ none
      · obtain ⟨c, hc⟩ := Op.writer_of_decided hop
        obtain ⟨w, submitted', -, hsub', hparam, hmatches⟩ := required c hc hop
        obtain ⟨rfl, -⟩ := hstep.writer hc
        cases hsub.symm.trans hsub'
        exact absurd hmatches (hnone w hparam)
      · rw [not_or, not_not] at hop
        exact hstep.steps_of_none (h.inv.1.placed id submitted hsub) hop.1 hop.2

end History

/-- **Executions advance on the graph they were submitted with**, whatever definitions the workers hold; and definitions
that match and have the same branch predicates give the same plans. -/
theorem advances_on_submitted (f : Fleet V) (hdigest : Function.Injective f.store.digest) :
    (∀ (d : DefinitionLookup V) (l : List (DefinitionLookup V × Action V)),
      Steps (Roster.exec (ownDefinitions f).discipline (ownDefinitions f).fleet)
        (fun s x => ∀ i now env op, x.2 = .main i now env → s.asks i = some (.store op) →
          AdvancesOnSubmitted f s i now op)
        (Roster.empty (ownDefinitions f).discipline d) l) ∧
    ∀ w w' : Workflow V, w.Matches w' → w.edges.map Edge.when = w'.edges.map Edge.when →
      ∀ null states outputs, (planNext w null states outputs).map Plan.bare =
        (planNext w' null states outputs).map Plan.bare := by
  constructor
  · intro d l
    refine steps_of_invariant (I := fun s => ∃ held, s.Sound (ownDefinitions f).discipline held)
      ⟨_, Roster.empty_sound (ownDefinitions_kept f) d⟩ fun s x h => ⟨?_, ?_⟩
    · obtain ⟨held, h⟩ := h
      exact fun i now env op _ hq => advancesOnSubmitted hdigest h hq
    · refine Roster.exec_sound (ownDefinitions_kept f) h ?_
      unfold Roster.Fair
      split
      · exact fun _ _ => trivial
      · trivial
  · intro w w' hmatches hwhen null states outputs
    rw [← planNext_bare, ← planNext_bare, hmatches.bare hwhen]

/-! ## A digest without collisions -/

/-- The characters of a text. -/
def codes (s : String) : List ℕ := s.toList.map Char.toNat

theorem codes_injective : Function.Injective codes := fun _ _ h =>
  String.toList_inj.mp (List.map_injective_iff.mpr (fun _ _ hc => Char.toNat_inj.mp hc) h)

/-- The payload as a tuple. -/
def FingerprintPayload.tuple (p : FingerprintPayload) : List ℕ × List ℕ × List (List ℕ × Option ℚ × List (List ℕ)) ×
    List (List ℕ × List ℕ × Bool) :=
  (codes p.name, codes p.version, p.steps.map fun s => (codes s.1, s.2.1, s.2.2.map codes),
    p.edges.map fun e => (codes e.1, codes e.2.1, e.2.2))

theorem tuple_injective : Function.Injective FingerprintPayload.tuple := by
  intro p q h
  simp only [FingerprintPayload.tuple, Prod.mk.injEq] at h
  obtain ⟨hname, hversion, hsteps, hedges⟩ := h
  have hsteps' : p.steps = q.steps := by
    refine List.map_injective_iff.mpr ?_ hsteps
    rintro ⟨id, timeout, sources⟩ ⟨id', timeout', sources'⟩ h
    simp only [Prod.mk.injEq] at h
    obtain ⟨hid, htimeout, hsources⟩ := h
    rw [codes_injective hid, htimeout, List.map_injective_iff.mpr codes_injective hsources]
  have hedges' : p.edges = q.edges := by
    refine List.map_injective_iff.mpr ?_ hedges
    rintro ⟨source, target, conditioned⟩ ⟨source', target', conditioned'⟩ h
    simp only [Prod.mk.injEq] at h
    obtain ⟨hsource, htarget, hconditioned⟩ := h
    rw [codes_injective hsource, codes_injective htarget, hconditioned]
  cases p
  cases q
  simp_all [codes_injective.eq_iff]

/-- A digest without collisions; the one of `oneStep` is its SHA-256. -/
def oneStepDigest (p : FingerprintPayload) : String :=
  if p = fingerprintPayload oneStep then textStore.digest p
  else String.ofList ('x' :: List.replicate (Encodable.encode p.tuple) 'x')

theorem oneStepDigest_injective : Function.Injective oneStepDigest := by
  intro p q h
  have hlist := congrArg String.toList h
  unfold oneStepDigest at hlist
  split_ifs at hlist with hp hq hq
  · rw [hp, hq]
  · simp [textStore] at hlist
  · simp [textStore] at hlist
  · have hlength := congrArg List.length hlist
    rw [String.toList_ofList, String.toList_ofList, List.length_cons, List.length_cons, List.length_replicate,
      List.length_replicate] at hlength
    exact tuple_injective (Encodable.encode_injective (Nat.succ.inj hlength))

/-- Workers that declare nothing about the step of `oneStep`. -/
def digestFleet : Fleet String where
  store := { textStore with digest := oneStepDigest }
  definitions _ _ := none
  activities _ := .undeclared
  owner _ := "o"

/-- A worker that has `oneStep` claims `"e"` and starts its step; another one has no definitions. -/
def startedOnce : List (DefinitionLookup String × Action String) :=
  (fun _ _ => none, .operate (.submit oneStep "null" none "e" none) 0) :: (fun _ _ => some oneStep, .runOnce 0) ::
    (fun _ _ => none, .runOnce 1) ::
      List.replicate 5 (fun _ _ => none, .main 0 1 ⟨0, .ok "null", .ok (.other "NoneType")⟩)

theorem advances_on_submitted_started :
    ((after (Roster.exec (ownDefinitions digestFleet).discipline (ownDefinitions digestFleet).fleet)
      (Roster.empty (ownDefinitions digestFleet).discipline fun _ _ => none) startedOnce).system.journal.record "e").Running
        "a" ∧
    Steps (Roster.exec (ownDefinitions digestFleet).discipline (ownDefinitions digestFleet).fleet)
      (fun s x => ∀ i now env op, x.2 = .main i now env → s.asks i = some (.store op) →
        AdvancesOnSubmitted digestFleet s i now op)
      (Roster.empty (ownDefinitions digestFleet).discipline fun _ _ => none) startedOnce :=
  ⟨⟨{ state := .running, attempts := 1, startedAt := some 1, idempotencyKey := some "e:a" }, by decide +kernel, rfl⟩,
    (advances_on_submitted digestFleet oneStepDigest_injective).1 _ _⟩

end Durable

end Xyberos
