import Xyberos.Execution.Models
import Mathlib.Data.List.Sort
import Mathlib.Data.String.Basic

/-!
# Xyberos.Execution.Validation — `validate_workflow`

The rules that are decidable from the graph.  A step function and a branch predicate are functions by their type
here, so the checks that they are callable, take the positional arguments they are given and are (a)synchronous hold by
construction; Python annotations are not part of the model.  A function that needs more arguments than it is given
passes the checks too: it raises where it is called, a predicate as any predicate may, and a step function before its
attempt has a race.
-/

set_option autoImplicit false

namespace Xyberos

variable {V : Type}

private def require (ok : Bool) (message : String) : Except Exc Unit :=
  if ok then .ok () else .error (workflowValidationError message)

/-- `_validate_identity`. -/
def validateIdentity (w : Workflow V) : Except Exc Unit := do
  require (!isBlank w.name) "a workflow needs a non-empty name"
  require (isIdentifier (w.name.map fun c => if c = '-' then '_' else c))
    s!"workflow name {reprStr w.name} must be an identifier so events and configuration can name it"
  require (!isBlank w.version)
    (s!"workflow {reprStr w.name} needs a non-empty version: a definition is versioned because a " ++
      "durable executor records the version it ran")

/-- `_validate_steps`, with the ids seen so far; the message about a timeout is cut before the number. -/
def validateSteps (w : Workflow V) : List String → List (Step V) → Except Exc Unit
  | _, [] => .ok ()
  | seen, step :: steps => do
    require (!isBlank step.id) s!"every step of workflow {reprStr w.name} needs a non-empty id"
    require (!seen.contains step.id)
      s!"workflow {reprStr w.name} declares step {reprStr step.id} more than once"
    require (step.timeout.all fun t => 0 < t)
      s!"step {reprStr step.id} timeout must be greater than zero"
    validateSteps w (step.id :: seen) steps

/-- `_validate_edges`, with the pairs and the fallback sources seen so far. -/
def validateEdges (w : Workflow V) :
    List (String × String) → List String → List (Edge V) → Except Exc Unit
  | _, _, [] => .ok ()
  | seen, fallback, edge :: edges => do
    let arrow := s!"{reprStr edge.source} -> {reprStr edge.target}"
    require (w.stepIds.contains edge.source)
      (s!"edge {arrow} names source {reprStr edge.source}, which is not a step of workflow " ++ reprStr w.name)
    require (w.stepIds.contains edge.target)
      (s!"edge {arrow} names target {reprStr edge.target}, which is not a step of workflow " ++ reprStr w.name)
    require (edge.source != edge.target) s!"edge {arrow} is a self-loop; cycles are not supported"
    require (!seen.contains (edge.source, edge.target))
      s!"workflow {reprStr w.name} declares the edge {arrow} more than once"
    let seen := (edge.source, edge.target) :: seen
    if edge.when.isNone then
      require (!fallback.contains edge.source)
        (s!"step {reprStr edge.source} has more than one edge without a condition; only one " ++
          "unconditional edge can act as the fallback")
      validateEdges w seen (edge.source :: fallback) edges
    else
      require (!fallback.contains edge.source)
        (s!"step {reprStr edge.source} declares the branch condition {arrow} after its unconditional " ++
          "fallback edge; declare conditional edges first so the fallback is considered last")
      validateEdges w seen fallback edges

/-! ## `_validate_acyclic` -/

/-- The targets of a step, in declaration order. -/
def successors (w : Workflow V) (stepId : String) : List String := (w.outgoing stepId).map Edge.target

/-- One pass over the targets of a step that was taken off the queue. -/
def relaxTargets : List String → (String → ℤ) → List String → (String → ℤ) × List String
  | [], indegree, ready => (indegree, ready)
  | target :: targets, indegree, ready =>
    let left := indegree target - 1
    relaxTargets targets (fun s => if s = target then left else indegree s)
      (if left = 0 then ready ++ [target] else ready)

/-- The queue of `_validate_acyclic`: the number of steps visited and the indegrees that are left.  A step enters
the queue at most once after it started there, so `2 * len(steps)` rounds empty it. -/
def visitReady (w : Workflow V) : ℕ → List String → (String → ℤ) → ℕ → ℕ × (String → ℤ)
  | 0, _, indegree, visited => (visited, indegree)
  | _ + 1, [], indegree, visited => (visited, indegree)
  | fuel + 1, current :: ready, indegree, visited =>
    let next := relaxTargets (successors w current) indegree ready
    visitReady w fuel next.2 next.1 (visited + 1)

/-- `_describe_cycle` from `current`, with the path walked so far (latest first). -/
def describeCycle (w : Workflow V) (remaining : List String) : ℕ → String → List String → List String
  | 0, _, path => path.reverse
  | fuel + 1, current, path =>
    match (successors w current).filter remaining.contains with
    | [] => path.reverse
    | candidate :: _ =>
      if path.contains candidate then
        (path.reverse.dropWhile fun s => s ≠ candidate) ++ [candidate]
      else describeCycle w remaining fuel candidate (candidate :: path)

/-- `_validate_acyclic`. -/
def validateAcyclic (w : Workflow V) : Except Exc Unit :=
  let indegree := fun s => ((w.incoming s).length : ℤ)
  let ready := w.stepIds.filter fun s => indegree s = 0
  let (visited, left) := visitReady w (2 * w.stepIds.length) ready indegree 0
  if visited = w.stepIds.length then .ok ()
  else
    let remaining := w.stepIds.filter fun s => 0 < left s
    let cycle := match remaining.mergeSort (· ≤ ·) with
      | [] => []
      | start :: _ => describeCycle w remaining (remaining.length + 1) start [start]
    .error (workflowValidationError
      (s!"workflow {reprStr w.name} contains a cycle: " ++ " -> ".intercalate cycle ++
        "; sequential and conditional execution does not support loops"))

/-- `validate_workflow`. -/
def Workflow.validate (w : Workflow V) : Except Exc Unit := do
  validateIdentity w
  require (!w.steps.isEmpty) s!"workflow {reprStr w.name} declares no steps"
  validateSteps w [] w.steps
  validateEdges w [] [] w.edges
  validateAcyclic w

/-! ## What is established -/

private theorem require_then {ok : Bool} {message : String} {rest : Except Exc Unit} :
    (require ok message >>= fun _ => rest) = .ok () ↔ ok = true ∧ rest = .ok () := by
  cases ok with
  | false => exact ⟨fun h => (nomatch h), fun h => absurd h.1 Bool.false_ne_true⟩
  | true => exact ⟨fun h => ⟨rfl, h⟩, fun h => h.2⟩

theorem validateSteps_ok {w : Workflow V} {seen : List String} {steps : List (Step V)}
    (h : validateSteps w seen steps = .ok ()) :
    (steps.map Step.id).Nodup ∧ (∀ s ∈ steps, s.id ∉ seen) ∧ ∀ s ∈ steps, ∀ t ∈ s.timeout, 0 < t := by
  induction steps generalizing seen with
  | nil => simp
  | cons step steps ih =>
    unfold validateSteps at h
    obtain ⟨-, h⟩ := require_then.mp h
    obtain ⟨hseen, h⟩ := require_then.mp h
    obtain ⟨htimeout, h⟩ := require_then.mp h
    obtain ⟨hnodup, hfresh, htimeouts⟩ := ih h
    have hstep : step.id ∉ steps.map Step.id := by
      intro hmem
      obtain ⟨s, hs, he⟩ := List.mem_map.mp hmem
      exact hfresh s hs (he ▸ List.mem_cons_self)
    refine ⟨List.nodup_cons.mpr ⟨hstep, hnodup⟩, ?_, ?_⟩
    · intro s hs
      rcases List.mem_cons.mp hs with rfl | hs
      · simpa using hseen
      · exact fun hmem => hfresh s hs (List.mem_cons_of_mem _ hmem)
    · intro s hs t ht
      rcases List.mem_cons.mp hs with rfl | hs
      · rw [Option.mem_def.mp ht] at htimeout
        simpa using htimeout
      · exact htimeouts s hs t ht

theorem validateEdges_ok {w : Workflow V} {seen : List (String × String)} {fallback : List String}
    {edges : List (Edge V)} (h : validateEdges w seen fallback edges = .ok ()) :
    (edges.map fun e => (e.source, e.target)).Nodup ∧ (∀ e ∈ edges, (e.source, e.target) ∉ seen) ∧
      ∀ e ∈ edges, e.source ∈ w.stepIds ∧ e.target ∈ w.stepIds := by
  induction edges generalizing seen fallback with
  | nil => simp
  | cons edge edges ih =>
    unfold validateEdges at h
    obtain ⟨hsource, h⟩ := require_then.mp h
    obtain ⟨htarget, h⟩ := require_then.mp h
    obtain ⟨-, h⟩ := require_then.mp h
    obtain ⟨hseen, h⟩ := require_then.mp h
    have hrest : ∃ fallback', validateEdges w ((edge.source, edge.target) :: seen) fallback' edges = .ok () := by
      dsimp only at h
      split_ifs at h
      · exact ⟨_, (require_then.mp h).2⟩
      · exact ⟨_, (require_then.mp h).2⟩
    obtain ⟨fallback', hrest⟩ := hrest
    obtain ⟨hnodup, hfresh, hmem⟩ := ih hrest
    have hedge : (edge.source, edge.target) ∉ edges.map fun e => (e.source, e.target) := by
      intro hin
      obtain ⟨e, he, heq⟩ := List.mem_map.mp hin
      exact hfresh e he (heq ▸ List.mem_cons_self)
    refine ⟨List.nodup_cons.mpr ⟨hedge, hnodup⟩, ?_, ?_⟩
    · intro e he
      rcases List.mem_cons.mp he with rfl | he
      · simpa using hseen
      · exact fun hin => hfresh e he (List.mem_cons_of_mem _ hin)
    · intro e he
      rcases List.mem_cons.mp he with rfl | he
      · exact ⟨by simpa using hsource, by simpa using htarget⟩
      · exact hmem e he

/-- A definition that is accepted has passed every check. -/
theorem Workflow.validate_ok {w : Workflow V} (h : w.validate = .ok ()) :
    w.steps ≠ [] ∧ validateSteps w [] w.steps = .ok () ∧ validateEdges w [] [] w.edges = .ok () ∧
      validateAcyclic w = .ok () := by
  have then_ok : ∀ {x y : Except Exc Unit}, (x >>= fun _ => y) = .ok () → x = .ok () ∧ y = .ok () := by
    intro x y hxy
    cases x with
    | error e => cases hxy
    | ok u => exact ⟨rfl, hxy⟩
  unfold Workflow.validate at h
  obtain ⟨-, h⟩ := then_ok h
  obtain ⟨hsteps, h⟩ := require_then.mp h
  obtain ⟨h1, h⟩ := then_ok h
  obtain ⟨h2, h3⟩ := then_ok h
  exact ⟨by simpa using hsteps, h1, h2, h3⟩

/-- A check that raises nothing but `WorkflowValidationError`. -/
def Checks (x : Except Exc Unit) : Prop := ∀ e, x = .error e → ∃ message, e = workflowValidationError message

private theorem checks_require (ok : Bool) (message : String) : Checks (require ok message) := by
  intro e h
  cases ok with
  | false => exact ⟨message, (Except.error.inj h).symm⟩
  | true => cases h

private theorem Checks.and {x y : Except Exc Unit} (hx : Checks x) (hy : Checks y) : Checks (x >>= fun _ => y) := by
  intro e h
  cases x with
  | error e' => exact hx e h
  | ok u => exact hy e h

private theorem checks_steps (w : Workflow V) (seen : List String) (steps : List (Step V)) :
    Checks (validateSteps w seen steps) := by
  induction steps generalizing seen with
  | nil =>
    intro e h
    cases h
  | cons step steps ih =>
    exact (checks_require _ _).and ((checks_require _ _).and ((checks_require _ _).and (ih _)))

private theorem checks_edges (w : Workflow V) (seen : List (String × String)) (fallback : List String)
    (edges : List (Edge V)) : Checks (validateEdges w seen fallback edges) := by
  induction edges generalizing seen fallback with
  | nil =>
    intro e h
    cases h
  | cons edge edges ih =>
    unfold validateEdges
    refine (checks_require _ _).and ((checks_require _ _).and ((checks_require _ _).and ((checks_require _ _).and ?_)))
    split_ifs
    · exact (checks_require _ _).and (ih _ _)
    · exact (checks_require _ _).and (ih _ _)

/-- A definition is refused with `WorkflowValidationError`. -/
theorem Workflow.checks_validate (w : Workflow V) : Checks w.validate := by
  have hidentity : Checks (validateIdentity w) :=
    (checks_require _ _).and ((checks_require _ _).and (checks_require _ _))
  have hacyclic : Checks (validateAcyclic w) := by
    intro e h
    unfold validateAcyclic at h
    dsimp only at h
    split_ifs at h
    exact ⟨_, (Except.error.inj h).symm⟩
  exact hidentity.and ((checks_require _ _).and ((checks_steps _ _ _).and ((checks_edges _ _ _ _).and hacyclic)))

end Xyberos
