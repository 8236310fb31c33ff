import Xyberos.Durable.Models
import Mathlib.Data.List.Sort

/-!
# Xyberos.Durable.Scheduler — which step runs next

`plan_next` decides from the definition and the persisted step states and outputs alone.  A mapping is a function
into `Option`; a missing output reads as `null`.  Branch predicates may raise, and so may `plan_next`.
-/

set_option autoImplicit false

namespace Xyberos.Durable

variable {V : Type}

/-- `Plan`, one constructor for each `PlanKind`. -/
inductive Plan (V : Type)
  | runStep (step : Step V) (value : V) (sources : List String)
  | skipStep (step : Step V) (reason : String)
  | complete (outputs : List (String × V)) (reason : String)
  | conflict (step : Step V) (sources : List String) (reason : String)
  | needsDecision (step : Step V) (reason : String)

/-- `select_edge`: the edge the output of a step selects, the first whose predicate holds. -/
def selectEdge (output : V) : List (Edge V) → Except Exc (Option (Edge V))
  | [] => .ok none
  | edge :: rest =>
    match edge.when with
    | none => .ok (some edge)
    | some p => do
      if ← p output then return some edge
      else selectEdge output rest

/-- `_taken_edges`: source and target of the edge each succeeded step selected. -/
def takenEdges (w : Workflow V) (null : V) (states : String → Option StepState) (outputs : String → Option V) :
    List (Step V) → Except Exc (List (String × String))
  | [] => .ok []
  | step :: rest => do
    if (states step.id).getD .pending ≠ .succeeded then takenEdges w null states outputs rest
    else
      let selected ← selectEdge ((outputs step.id).getD null) (w.outgoing step.id)
      let taken ← takenEdges w null states outputs rest
      return (selected.map fun e => (e.source, e.target)).toList ++ taken

section PlanNext

variable (w : Workflow V) (null : V) (states : String → Option StepState) (outputs : String → Option V)
  (taken : List (String × String))

/-- The loop of `plan_next` over the steps; `undecided` is its flag. -/
def planSteps : List (Step V) → Bool → Except Exc (Plan V)
  | [], undecided =>
    if undecided then .error (durableStateError
      (s!"workflow {reprStr w.name} has undecided steps but nothing is ready; the persisted " ++
        "step states cannot be completed, which means the journal and the definition disagree"))
    else .ok (.complete (w.exits.filterMap fun step => (outputs step.id).map fun v => (step.id, v))
      "every step resolved")
  | step :: rest, undecided =>
    let state := (states step.id).getD .pending
    if state.IsTerminal then planSteps rest undecided
    else if state = .outcomeUnknown then .ok (.needsDecision step
      (s!"step {reprStr step.id} has an unresolved attempt: whether its effect happened is " ++
        "unknown, so it must be reconciled or explicitly repeated before the run continues"))
    else
      let incoming := w.incoming step.id
      let reached := (incoming.filter fun e => (e.source, e.target) ∈ taken).map Edge.source
      if 1 < reached.length then
        let sources := reached.insertionSort (· ≤ ·)
        let named := ", ".intercalate sources
        .ok (.conflict step sources
          (s!"step {reprStr step.id} was reached by more than one branch ({named}); " ++
            "branches that merge into one step must be mutually exclusive"))
      else if ∃ e ∈ incoming, ¬ ((states e.source).getD .pending).IsTerminal then planSteps rest true
      else match incoming, reached with
        | _ :: _, [] => .ok (.skipStep step "no branch reached this step")
        | [], _ => .ok (.runStep step null [])
        | _ :: _, source :: _ => .ok (.runStep step ((outputs source).getD null) [source])

/-- `plan_next`. -/
def planNext : Except Exc (Plan V) := do
  let taken ← takenEdges w null states outputs w.steps
  planSteps w null states outputs taken w.steps false

end PlanNext

end Xyberos.Durable
