import Xyberos.Python

/-!
# Xyberos.Execution.Models — retry policies and workflow definitions

A definition is a value: steps with their policies, and edges with their branch predicates.  What a step function
does when it is called is not part of the definition; it is a choice of the environment wherever a step is run.
`V` is the type of the values that flow between steps.
-/

set_option autoImplicit false

namespace Xyberos

/-! ## Policies -/

/-- `Backoff`, with the checks of its constructor. -/
structure Backoff where
  initial : ℚ
  multiplier : ℚ
  maxDelay : ℚ
  jitter : ℚ
  initial_nonneg : 0 ≤ initial
  one_le_multiplier : 1 ≤ multiplier
  maxDelay_nonneg : 0 ≤ maxDelay
  jitter_nonneg : 0 ≤ jitter
  jitter_le_one : jitter ≤ 1

/-- The largest finite `float`. -/
def floatMax : ℚ := 2 ^ 1024 - 2 ^ 971

/-- `Backoff.delay_for`: `draw` is what `random.random()` returns.  A power beyond the floats raises; a product
beyond them is cut to `max_delay` like any other. -/
def Backoff.delayFor (b : Backoff) (attempt : ℕ) (draw : ℚ) : Except Exc ℚ :=
  if attempt < 1 then .error (workflowValidationError "attempt numbers start at 1")
  else if floatMax < b.multiplier ^ (attempt - 1) then .error (overflowError "Numerical result out of range")
  else
    let delay := min (b.initial * b.multiplier ^ (attempt - 1)) b.maxDelay
    let delay := if b.jitter = 0 then delay else delay * (1 - b.jitter * draw)
    .ok (max delay 0)

/-- `Retry`: `retry_on` holds the names of exception classes. -/
structure Retry where
  maxAttempts : ℕ
  retryOn : List String
  backoff : Backoff
  one_le_maxAttempts : 1 ≤ maxAttempts
  retryOn_ne_nil : retryOn ≠ []

/-- `Retry.allows`. -/
def Retry.allows (r : Retry) (error : Exc) : Bool := r.retryOn.any error.isInstance

/-! ## Definitions -/

/-- `Step`: `timeout` bounds one attempt, in seconds. -/
structure Step (V : Type) where
  id : String
  retry : Option Retry := none
  timeout : Option ℚ := none
  metadata : List (String × V) := []

/-- `Edge`: `when` is a predicate over the output of the source, which may raise. -/
structure Edge (V : Type) where
  source : String
  target : String
  «when» : Option (V → Except Exc Bool) := none

/-- The ends of an edge are compared by `==`. -/
instance lawfulBEqEnds : LawfulBEq (String × String) := inferInstance

/-- `InputType`: a class or a tuple of classes, by its name and what `isinstance` says. -/
structure InputType (V : Type) where
  name : String
  isInstance : V → Bool

/-- `Workflow`. -/
structure Workflow (V : Type) where
  name : String
  version : String := "1"
  inputType : Option (InputType V) := none
  steps : List (Step V) := []
  edges : List (Edge V) := []
  metadata : List (String × V) := []

namespace Workflow

variable {V : Type} (w : Workflow V)

def stepIds : List String := w.steps.map Step.id

/-- The edges leaving a step, in declaration order. -/
def outgoing (stepId : String) : List (Edge V) := w.edges.filter fun e => e.source = stepId

/-- The edges entering a step, in declaration order. -/
def incoming (stepId : String) : List (Edge V) := w.edges.filter fun e => e.target = stepId

/-- The steps without an incoming edge. -/
def entries : List (Step V) := w.steps.filter fun s => (w.incoming s.id).isEmpty

/-- The steps without an outgoing edge. -/
def exits : List (Step V) := w.steps.filter fun s => (w.outgoing s.id).isEmpty

/-- `Workflow.step_by_id`. -/
def stepById (stepId : String) : Except Exc (Step V) :=
  match w.steps.find? fun s => s.id = stepId with
  | some s => .ok s
  | none =>
    let declared := if w.stepIds.isEmpty then "none" else ", ".intercalate w.stepIds
    .error (workflowValidationError
      s!"workflow {reprStr w.name} has no step {reprStr stepId}; declared steps: {declared}")

end Workflow

end Xyberos
