import Xyberos.Durable.Evolution
import Xyberos.Durable.Queue
import Xyberos.Durable.Takeover

/-!
# Xyberos.Durable.Recovering — what recovery makes of one execution

A recovery pass is alone with the clock and with the reconcilers.  What these contribute to a turn of it, the time of
the claim, the times of the writes under it and the answers, is a `Turn`; `Manageable` says of the record of an
execution and a turn that nothing gets in the way of dealing with the execution, and `Returns` that it goes back to the
queue. `_recover_one` does what they say (`runs_recoverOne`).
-/

set_option autoImplicit false

namespace Xyberos.Durable

open Proc (Runs World)

variable {V α β : Type}

/-! ## What a pass does not decide itself -/

/-- The reconcilers of a pass: what they decide about an attempt of a step, given its input and all there is to see. -/
abbrev Reconcilers (V : Type) := String → V → Desk V → Reconciliation V

/-- A request to a reconciler is answered as the reconcilers say. -/
def Reconcilers.Answer (reconcilers : Reconcilers V) : (q : Request V) → Desk V → Except Exc q.Reply → Prop
  | .reconcile step value, s, x => x = .ok (.decided (reconcilers step value s))
  | _, _, _ => True

/-- The world of a pass alone. -/
def asking (store : JournalStore V) (reconcilers : Reconcilers V) : World (Request V) Request.Reply Exc (Desk V) where
  interferes := Desk.Passes store store.leaseTtl
  allows _ _ := True
  answers q s x s' := (alone store store.leaseTtl fun _ => True).answers q s x s' ∧ reconcilers.Answer q s x

/-- One claim of a pass: when it is made, what the reconcilers answer under it, and when something is written under it.
-/
structure Turn (V : Type) where
  claimed : Instant
  answers : List (Reconciliation V)
  written : List Instant

/-- A request for a claim. -/
def IsClaim : Request V × Desk V → Bool
  | (.store (.claimNext _ _), _) => true
  | _ => false

/-- The answers of the reconcilers in a part of a run. -/
def answersOf (reconcilers : Reconcilers V) (l : List (Request V × Desk V)) : List (Reconciliation V) :=
  l.filterMap fun
    | (.reconcile step value, y) => some (reconcilers step value y)
    | _ => none

/-- The times of the guarded writes of a part of a run. -/
def writtenIn (l : List (Request V × Desk V)) : List Instant :=
  l.filterMap fun
    | (.store op, y) => op.writer?.map fun _ => y.clock
    | _ => none

/-- The turns of a run: a claim, and what goes on until the next one. -/
def turnsOf (reconcilers : Reconcilers V) : List (Request V × Desk V) → List (Turn V)
  | [] => []
  | (.store (.claimNext _ _), y) :: l =>
    let m := l.takeWhile fun x => !IsClaim x
    { claimed := y.clock, answers := answersOf reconcilers m, written := writtenIn m } :: turnsOf reconcilers l
  | _ :: l => turnsOf reconcilers l

section Requests

variable {store : JournalStore V} {reconcilers : Reconcilers V} {s t : Desk V} {l l' : List (Request V × Desk V)}

@[simp] theorem answersOf_nil : answersOf reconcilers ([] : List (Request V × Desk V)) = [] := rfl

@[simp] theorem answersOf_append :
    answersOf reconcilers (l ++ l') = answersOf reconcilers l ++ answersOf reconcilers l' :=
  List.filterMap_append

@[simp] theorem answersOf_store {op : Op V} :
    answersOf reconcilers ((.store op, s) :: l) = answersOf reconcilers l := rfl

@[simp] theorem answersOf_reconcile {step : String} {value : V} :
    answersOf reconcilers ((.reconcile step value, s) :: l) = reconcilers step value s :: answersOf reconcilers l := rfl

@[simp] theorem writtenIn_nil : writtenIn ([] : List (Request V × Desk V)) = [] := rfl

@[simp] theorem writtenIn_append : writtenIn (l ++ l') = writtenIn l ++ writtenIn l' := List.filterMap_append

@[simp] theorem writtenIn_reconcile {step : String} {value : V} :
    writtenIn ((.reconcile step value, s) :: l) = writtenIn l := rfl

@[simp] theorem writtenIn_runningSteps {id : String} :
    writtenIn ((.store (.runningSteps id), s) :: l) = writtenIn l := rfl

@[simp] theorem writtenIn_stepStates {id : String} :
    writtenIn ((.store (.stepStates id), s) :: l) = writtenIn l := rfl

@[simp] theorem writtenIn_completedOutputs {id : String} :
    writtenIn ((.store (.completedOutputs id), s) :: l) = writtenIn l := rfl

theorem writtenIn_write {op : Op V} {c : Claim V} (hop : op.writer? = some c) :
    writtenIn ((.store op, s) :: l) = s.clock :: writtenIn l := by
  simp [writtenIn, hop]

theorem turnsOf_cons {x : Request V × Desk V} (h : IsClaim x = false) :
    turnsOf reconcilers (x :: l) = turnsOf reconcilers l := by
  obtain ⟨q, y⟩ := x
  cases q with
  | store op => cases op <;> first | rfl | cases h
  | _ => rfl

/-- A claim, what is done under it, and the rest. -/
theorem turnsOf_claim {owner : String} {ttl : Option Duration} {m : List (Request V × Desk V)}
    (hm : ∀ x ∈ m, IsClaim x = false) (hl : ∀ x ∈ l.head?, IsClaim x = true) :
    turnsOf reconcilers ([(.store (.claimNext owner ttl), s)] ++ (m ++ l)) =
      ⟨s.clock, answersOf reconcilers m, writtenIn m⟩ :: turnsOf reconcilers l := by
  have htake : (m ++ l).takeWhile (fun x => !IsClaim x) = m := by
    rw [List.takeWhile_append_of_pos fun x hx => by simp [hm x hx]]
    cases l with
    | nil => simp
    | cons x l => simp [hl x rfl]
  have hdrop : ∀ {m}, (∀ x ∈ m, IsClaim x = false) → turnsOf reconcilers (m ++ l) = turnsOf reconcilers l := by
    intro m hm
    induction m with
    | nil => rfl
    | cons x m ih =>
      obtain ⟨hx, hm⟩ := List.forall_mem_cons.mp hm
      rw [List.cons_append, turnsOf_cons hx, ih hm]
  rw [List.cons_append, List.nil_append, turnsOf, hdrop hm, htake]

/-! ## Runs -/

theorem runs_alone {p : Coroutine V α} {r : Except Exc α} (h : Runs (asking store reconcilers) p s l r t) :
    Runs (alone store store.leaseTtl fun _ => True) p s l r t := by
  induction h with
  | ret => exact .ret
  | raise => exact .raise
  | ask later answer _ ih => exact .ask later answer.1 ih

theorem runs_asked (hs : s.heartbeat = none) {step : String} {value : V} {r : Except Exc (Reconciled V)}
    (h : Runs (asking store reconcilers) (await (.reconcile step value)) s l r t) :
    ∃ delay : ℕ, l = [(.reconcile step value, s.wait delay)] ∧
      r = .ok (.decided (reconcilers step value (s.wait delay))) ∧ t = s.wait delay := by
  obtain ⟨delay, env, -, rfl, -, rfl⟩ := runs_reconcile hs (runs_alone h)
  obtain ⟨s', -, hl, -, hr⟩ := Proc.runs_request.mp h
  cases hl
  exact ⟨delay, rfl, hr, rfl⟩

/-- A read, and what goes on with its answer. -/
theorem runs_reads (hs : s.heartbeat = none) {op : Op V} {a : op.Reply}
    (ha : ∀ now, (op.txn store now).run s.journal = .ok (a, s.journal)) {f : op.Reply → Coroutine V α}
    {r : Except Exc α}
    (h : Runs (asking store reconcilers) (call op >>= f) s l r t) : ∃ (delay : ℕ) (l' : List (Request V × Desk V)),
      l = [(.store op, s.wait delay)] ++ l' ∧ Runs (asking store reconcilers) (f a) (s.wait delay) l' r t := by
  rcases Proc.runs_bind.mp h with ⟨e, -, h⟩ | ⟨a', s', l₁, l₂, rfl, h, h'⟩
  · obtain ⟨delay, -, hr, -⟩ := runs_read hs ha (runs_alone h)
    cases hr
  · obtain ⟨delay, rfl, hr, rfl⟩ := runs_read hs ha (runs_alone h)
    cases hr
    exact ⟨delay, l₂, rfl, h'⟩

end Requests

/-! ## The condition -/

/-- What `_recover_one` computes before it writes: the definition, and the plan that says what the step received. -/
def recoveryPlan (store : JournalStore V) (definitions : DefinitionLookup V) (c : Claim V)
    (steps : String → Option StepRow) : Except Exc (Plan V) := do
  let workflow ← requireDefinition store definitions c
  planNext workflow store.values.null (statesOf steps) (outputsOf store steps)

/-- There is an interrupted attempt to decide, and the plan raises `e`. -/
def Unplanned (store : JournalStore V) (definitions : DefinitionLookup V) (c : Claim V) (r : Record) (e : Exc) : Prop :=
  c.cancellationRequested = false ∧ (∃ step, r.Running step) ∧ recoveryPlan store definitions c r.steps = .error e

/-- Nothing gets in the way of dealing with an execution in this turn. -/
structure Manageable (store : JournalStore V) (definitions : DefinitionLookup V) (c : Claim V) (r : Record)
    (turn : Turn V) : Prop where
  /-- what is written is written before the lease of the claim expires -/
  prompt : ∀ w ∈ turn.written, w < c.expiresAt
  /-- the plan raises nothing but the error about a definition -/
  planned : ∀ e, Unplanned store definitions c r e → e.isInstance "DurableVersionError" = true
  /-- one attempt at most was interrupted -/
  single : c.cancellationRequested = false → ∀ plan, recoveryPlan store definitions c r.steps = .ok plan →
    ∀ step step', r.Running step → r.Running step' → step = step'
  /-- the outputs the reconcilers report can be saved -/
  saved : ∀ step, r.Running step → ∀ d ∈ turn.answers, ∃ payload,
    resolvedPayload store step d.state d.output = .ok payload

/-- Recovery returns the execution to the queue: no attempt was interrupted, or it is decided what became of it. -/
def Returns (store : JournalStore V) (definitions : DefinitionLookup V) (activities : String → ActivityPolicy)
    (c : Claim V) (r : Record) (turn : Turn V) : Prop :=
  c.cancellationRequested = false ∧ ((∀ step, ¬ r.Running step) ∨
    (∃ plan, recoveryPlan store definitions c r.steps = .ok plan) ∧
      ∀ step, r.Running step → activities step ≠ .undeclared ∧ ∀ d ∈ turn.answers, d.state ≠ .outcomeUnknown)

section Congr

variable {store : JournalStore V} {definitions : DefinitionLookup V} {activities : String → ActivityPolicy}
  {c : Claim V}
  {r r' : Record} {turn : Turn V}

theorem running_congr (h : r'.steps = r.steps) {step : String} : r'.Running step ↔ r.Running step := by
  rw [Record.Running, Record.Running, h]

theorem Unplanned.congr {e : Exc} (h : r'.steps = r.steps) :
    Unplanned store definitions c r' e ↔ Unplanned store definitions c r e := by
  rw [Unplanned, Unplanned, h]
  simp only [running_congr h]

theorem Manageable.congr (h : r'.steps = r.steps) :
    Manageable store definitions c r' turn ↔ Manageable store definitions c r turn := by
  constructor
  · rintro ⟨hprompt, hplanned, hsingle, hsaved⟩
    exact ⟨hprompt, fun e he => hplanned e ((Unplanned.congr h).mpr he),
      by simpa only [h, running_congr h] using hsingle,
      fun step hstep => hsaved step ((running_congr h).mpr hstep)⟩
  · rintro ⟨hprompt, hplanned, hsingle, hsaved⟩
    exact ⟨hprompt, fun e he => hplanned e ((Unplanned.congr h).mp he),
      by simpa only [h, running_congr h] using hsingle,
      fun step hstep => hsaved step ((running_congr h).mp hstep)⟩

theorem Returns.congr (h : r'.steps = r.steps) :
    Returns store definitions activities c r' turn ↔ Returns store definitions activities c r turn := by
  simp only [Returns, h, running_congr h]

end Congr

/-! ## The errors of a failing write -/

/-- Not the error about a definition. -/
def Exc.Other (e : Exc) : Prop := e.isInstance "DurableVersionError" = false

/-- `json.dumps` raises no error about a definition. -/
def JournalStore.Plain (store : JournalStore V) : Prop := ∀ value e, store.values.dumps value = .raised e → Exc.Other e

section Raises

open Txn (Raises raises_pure raises_raise raises_ofExcept raises_select raises_write)
open JournalStore

variable {c : Claim V} {now : Instant} {store : JournalStore V}

theorem other_durableStateError (message : String) : Exc.Other (durableStateError message) := rfl

theorem other_durableLeaseError (message : String) : Exc.Other (durableLeaseError message) := rfl

theorem raises_explainRefusedWrite {expected : String} {allow : Bool} :
    Raises Exc.Other (explainRefusedWrite c now expected allow : Tx α) := by
  refine (raises_select _).bind fun row? => ?_
  cases row? with
  | none => exact raises_raise (other_durableStateError _)
  | some row =>
    dsimp only
    split_ifs
    · exact raises_raise (other_durableStateError _)
    · refine (raises_select _).bind fun lease? => ?_
      cases lease? with
      | none => exact raises_raise (other_durableLeaseError _)
      | some lease =>
        dsimp only
        split_ifs
        · exact raises_raise (other_durableLeaseError _)
        · exact raises_raise (other_durableLeaseError _)

theorem raises_appendEvent {e : EventRow} : Raises Exc.Other (appendEvent e) :=
  (raises_write _).bind fun _ => raises_pure _

theorem raises_stepRow {id step : String} : Raises Exc.Other (stepRow id step) := by
  refine (raises_select _).bind fun row? => ?_
  cases row? with
  | none => exact raises_raise (other_durableStateError _)
  | some row => exact raises_pure _

theorem raises_setExecutionStatus {target : ExecutionStatus} {f : ExecutionRow → ExecutionRow} {allow : Bool} :
    Raises Exc.Other (setExecutionStatus c target now f allow) := by
  have htransition : ∀ current e, requireExecutionTransition current target = .error e → Exc.Other e := by
    intro current e h
    unfold requireExecutionTransition at h
    split_ifs at h
    cases h
    exact other_durableStateError _
  refine Raises.bind ?_ fun row => (raises_ofExcept (htransition _)).bind fun _ => (raises_write _).bind fun n => ?_
  · refine (raises_select _).bind fun row? => ?_
    cases row? with
    | none => exact raises_raise (other_durableStateError _)
    | some row => exact raises_pure _
  · split_ifs
    · exact raises_explainRefusedWrite
    · exact raises_pure _

theorem raises_setStepState {step : String} {target : StepState} {f : StepRow → StepRow}
    {allowed : Option (List StepState)} :
    Raises Exc.Other (setStepState c step target now f allowed) := by
  have htransition : ∀ current e, requireStepTransition current target = .error e → Exc.Other e := by
    intro current e h
    unfold requireStepTransition at h
    split_ifs at h
    cases h
    exact other_durableStateError _
  refine raises_stepRow.bind fun row => (raises_ofExcept (htransition _)).bind fun _ => ?_
  refine (raises_write _).bind fun n => ?_
  split_ifs
  · exact raises_explainRefusedWrite
  · exact raises_pure _

theorem other_of_dump {value : V} {what : String} {e : Exc} (hplain : store.Plain)
    (h : store.dump value what = .error e) : Exc.Other e := by
  unfold JournalStore.dump at h
  split at h
  · cases h
    rfl
  · cases h
    exact hplain value e ‹_›
  · split_ifs at h
    cases h
    rfl

theorem other_of_payload {step : String} {state : StepState} {output : V} {e : Exc} (hplain : store.Plain)
    (h : resolvedPayload store step state output = .error e) : Exc.Other e := by
  unfold resolvedPayload at h
  split_ifs at h
  cases hd : store.dump output s!"output of step {reprStr step}" with
  | ok text =>
    rw [hd] at h
    cases h
  | error e' =>
    rw [hd] at h
    cases h
    exact other_of_dump hplain hd

/-- A write that returns the execution to the queue, parks it or ends it. -/
def Op.Stops (c : Claim V) : Op V → Prop
  | yieldExecution c' _ => c' = c
  | resolveStep c' _ _ _ _ => c' = c
  | markStepOutcomeUnknown c' _ _ => c' = c
  | failExecution c' _ _ => c' = c
  | acknowledgeCancellation c' _ => c' = c
  | _ => False

theorem Op.Stops.writer_eq {op : Op V} (h : op.Stops c) : op.writer? = some c := by
  cases op <;> cases h <;> rfl

theorem Op.Stops.under {op : Op V} (h : op.Stops c) : op.Under c := by
  cases op <;> cases h <;> rfl

theorem raises_stops {op : Op V} (hplain : store.Plain) (hop : op.Stops c) : Raises Exc.Other (op.txn store now) := by
  have release : ∀ {u : Claim V}, Raises Exc.Other (releaseLease' u now) :=
    (raises_write _).bind fun _ => raises_pure _
  cases op <;> cases hop
  case yieldExecution =>
    exact raises_setExecutionStatus.bind fun _ => release.bind fun _ => raises_appendEvent
  case resolveStep =>
    refine (raises_ofExcept fun e he => other_of_payload hplain he).bind fun _ => raises_setStepState.bind fun _ => ?_
    exact raises_setExecutionStatus.bind fun _ => release.bind fun _ => raises_appendEvent
  case markStepOutcomeUnknown =>
    refine raises_stepRow.bind fun _ => raises_setStepState.bind fun _ => raises_setExecutionStatus.bind fun _ => ?_
    exact raises_appendEvent.bind fun _ => raises_appendEvent
  case failExecution =>
    exact raises_setExecutionStatus.bind fun _ => raises_appendEvent
  case acknowledgeCancellation =>
    refine (raises_select _).bind fun row? => ?_
    cases row? with
    | none => exact raises_raise (other_durableStateError _)
    | some row =>
      refine Raises.bind ?_ fun _ => raises_setExecutionStatus.bind fun _ =>
        (raises_write _).bind fun _ => raises_appendEvent
      split_ifs
      · exact (raises_write _).bind fun _ => raises_appendEvent
      · exact raises_pure _

end Raises

/-! ## One write -/

/-- The execution of the claim has this status, and else what the claim says; no retry is scheduled for it. -/
structure Desk.Left (c : Claim V) (status : ExecutionStatus) (s : Desk V) : Prop where
  row : ∃ row, (s.record c.executionId).row = some row ∧ row.status = status ∧
    row.cancellationRequestedAt.isSome = c.cancellationRequested ∧ row.deadlineAt = c.deadlineAt
  retry : (s.record c.executionId).retry = none

/-- The desk right after the claim: nothing has been written under it. -/
structure Desk.Claims (c : Claim V) (s : Desk V) : Prop where
  idle : s.heartbeat = none
  left : s.Left c .running
  lease : ∃ l, (s.record c.executionId).lease = some l ∧ l.owner = c.owner ∧ l.fence = c.fence ∧
    l.expiresAt = c.expiresAt

/-- The execution of the claim was brought into this status, and nothing else was touched. -/
structure Settles (c : Claim V) (status : ExecutionStatus) (s t : Desk V) : Prop where
  idle : t.heartbeat = none
  left : t.Left c status
  frame : ∀ id ≠ c.executionId, t.record id = s.record id
  order : t.journal.submissions = s.journal.submissions

/-- The status a write leaves. -/
def Op.leaves : Op V → ExecutionStatus
  | yieldExecution .. => .pending
  | resolveStep .. => .pending
  | markStepOutcomeUnknown .. => .waiting
  | failExecution .. => .failed
  | _ => .cancelled

/-- What a write needs besides its lease. -/
def Op.Applies (store : JournalStore V) (c : Claim V) (r : Record) : Op V → Prop
  | resolveStep _ step state output _ => c.cancellationRequested = false ∧ r.Running step ∧
      state ∈ [StepState.succeeded, .pending, .failed] ∧ ∃ payload,
        resolvedPayload store step state output = .ok payload
  | markStepOutcomeUnknown _ step _ => c.cancellationRequested = false ∧ r.Running step
  | acknowledgeCancellation .. => c.cancellationRequested = true
  | _ => c.cancellationRequested = false

section Writes

variable {store : JournalStore V} {reconcilers : Reconcilers V} {c : Claim V} {status : ExecutionStatus} {s t : Desk V}
  {l : List (Request V × Desk V)} {op : Op V} {now : Instant}

theorem Desk.Left.wait (h : s.Left c status) (delay : ℕ) : (s.wait delay).Left c status := ⟨h.row, h.retry⟩

theorem Desk.Claims.wait (h : s.Claims c) (delay : ℕ) : (s.wait delay).Claims c := ⟨h.idle, h.left.wait delay, h.lease⟩

theorem Desk.Claims.guard_iff (h : s.Claims c) : (s.record c.executionId).Guard c now ↔ now < c.expiresAt := by
  obtain ⟨l, hl, howner, hfence, hexpires⟩ := h.lease
  constructor
  · rintro ⟨l', hl', -, -, hlt⟩
    cases hl.symm.trans hl'
    exact hexpires ▸ hlt
  · exact fun hlt => ⟨l, hl, howner, hfence, hexpires ▸ hlt⟩

/-- The status of an execution that is not RUNNING is written over only if that is a transition. -/
theorem Desk.Claims.accepts (target : ExecutionStatus) (h : s.Claims c) (hq : c.cancellationRequested = false)
    (htarget : target ∈ executionTransitions .running) (hlt : now < c.expiresAt) :
    ∃ row, (s.record c.executionId).Accepts c now row target := by
  obtain ⟨row, hrow, hstatus, hcancel, -⟩ := h.left.row
  refine ⟨row, hrow, hstatus ▸ htarget, ?_, h.guard_iff.mpr hlt⟩
  simpa [hq] using hcancel

/-- A write is accepted as long as the lease lasts. -/
theorem run_stops_iff (hop : op.Stops c) (hs : s.Claims c) (happ : op.Applies store c (s.record c.executionId)) :
    (∃ a j, (op.txn store now).run s.journal = .ok (a, j)) ↔ now < c.expiresAt := by
  have running : ∀ target {step}, (s.record c.executionId).Running step → target ∈ stepTransitions .running →
      now < c.expiresAt → ∃ st, (s.record c.executionId).AcceptsStep c now step st target := by
    rintro target step ⟨st, hst, hrunning⟩ htarget hlt
    exact ⟨st, hst, hrunning ▸ htarget, hs.guard_iff.mpr hlt⟩
  rw [← hs.guard_iff]
  cases op <;> cases hop
  case yieldExecution =>
    constructor
    · rintro ⟨a, j, h⟩
      obtain ⟨row, hrow, -⟩ := JournalStore.run_yieldExecution.mp h
      exact hrow.guard
    · intro h
      obtain ⟨row, hrow⟩ := hs.accepts .pending happ (by decide) (hs.guard_iff.mp h)
      exact ⟨(), _, JournalStore.run_yieldExecution.mpr ⟨row, hrow, rfl⟩⟩
  case resolveStep step state output detail =>
    obtain ⟨hq, hstep, hstate, payload, hpayload⟩ := happ
    constructor
    · rintro ⟨a, j, h⟩
      obtain ⟨payload, row, st, -, -, hrow, -⟩ := JournalStore.run_resolveStep.mp h
      exact hrow.guard
    · intro h
      obtain ⟨row, hrow⟩ := hs.accepts .pending hq (by decide) (hs.guard_iff.mp h)
      have htarget : state ∈ stepTransitions .running := by
        revert hstate
        cases state <;> decide
      obtain ⟨st, hst⟩ := running _ hstep htarget (hs.guard_iff.mp h)
      exact ⟨(), _, JournalStore.run_resolveStep.mpr ⟨payload, row, st, hpayload, hst, hrow, rfl⟩⟩
  case markStepOutcomeUnknown step reason =>
    obtain ⟨hq, hstep⟩ := happ
    constructor
    · rintro ⟨a, j, h⟩
      obtain ⟨row, st, -, hrow, -⟩ := JournalStore.run_markStepOutcomeUnknown.mp h
      exact hrow.guard
    · intro h
      obtain ⟨row, hrow⟩ := hs.accepts .waiting hq (by decide) (hs.guard_iff.mp h)
      obtain ⟨st, hst⟩ := running .outcomeUnknown hstep (by decide) (hs.guard_iff.mp h)
      exact ⟨(), _, JournalStore.run_markStepOutcomeUnknown.mpr ⟨row, st, hst, hrow, rfl⟩⟩
  case failExecution =>
    constructor
    · rintro ⟨a, j, h⟩
      obtain ⟨row, hrow, -⟩ := JournalStore.run_failExecution.mp h
      exact hrow.guard
    · intro h
      obtain ⟨row, hrow⟩ := hs.accepts .failed happ (by decide) (hs.guard_iff.mp h)
      exact ⟨(), _, JournalStore.run_failExecution.mpr ⟨row, hrow, rfl⟩⟩
  case acknowledgeCancellation =>
    constructor
    · rintro ⟨a, j, h⟩
      obtain ⟨row, -, -, hguard, -⟩ := JournalStore.run_acknowledgeCancellation.mp h
      exact hguard
    · intro h
      obtain ⟨row, hrow, hstatus, -⟩ := hs.left.row
      have htarget : .cancelled ∈ executionTransitions row.status := by
        rw [hstatus]
        decide
      exact ⟨(), _, JournalStore.run_acknowledgeCancellation.mpr ⟨row, hrow, htarget, h, rfl⟩⟩

/-- After an accepted write. -/
theorem left_of_run (hop : op.Stops c) (hs : s.Claims c) (happ : op.Applies store c (s.record c.executionId))
    {a : op.Reply}
    {j : Journal} (h : (op.txn store now).run s.journal = .ok (a, j)) :
    ({ s with journal := j } : Desk V).Left c op.leaves := by
  obtain ⟨row, hrow, hstatus, hcancel, hdeadline⟩ := hs.left.row
  have hretry := hs.left.retry
  have hrow' : s.journal.executions.get? c.executionId = some row := hrow
  have hretry' : s.journal.retries.get? c.executionId = none := hretry
  cases op <;> cases hop
  case yieldExecution =>
    obtain ⟨row', -, rfl⟩ := JournalStore.run_yieldExecution.mp h
    exact ⟨by simp [Op.leaves, Desk.record, hrow', hcancel, hdeadline], by simp [Desk.record, hretry']⟩
  case resolveStep =>
    obtain ⟨payload, row', st, -, -, -, rfl⟩ := JournalStore.run_resolveStep.mp h
    exact ⟨by simp [Op.leaves, Desk.record, hrow', hcancel, hdeadline], by simp [Desk.record, hretry']⟩
  case markStepOutcomeUnknown =>
    obtain ⟨row', st, -, -, rfl⟩ := JournalStore.run_markStepOutcomeUnknown.mp h
    exact ⟨by simp [Op.leaves, Desk.record, hrow', hcancel, hdeadline], by simp [Desk.record, hretry']⟩
  case failExecution =>
    obtain ⟨row', -, rfl⟩ := JournalStore.run_failExecution.mp h
    exact ⟨by simp [Op.leaves, Desk.record, hrow', hcancel, hdeadline], by simp [Desk.record, hretry']⟩
  case acknowledgeCancellation reason =>
    obtain ⟨row', hr, -, -, rfl⟩ := JournalStore.run_acknowledgeCancellation.mp h
    cases hrow'.symm.trans hr
    have hq : row.cancellationRequestedAt ≠ none := by
      intro hnone
      rw [hnone] at hcancel
      cases hcancel.trans happ
    rw [JournalStore.acknowledged, if_neg hq]
    exact ⟨by simp [Op.leaves, Desk.record, hrow', hcancel, hdeadline], by simp [Desk.record]⟩

theorem submissions_of_run (hop : op.Stops c) {a : op.Reply} {j j' : Journal}
    (h : (op.txn store now).run j = .ok (a, j')) : j'.submissions = j.submissions := by
  cases op <;> cases hop
  case yieldExecution =>
    obtain ⟨row, -, rfl⟩ := JournalStore.run_yieldExecution.mp h
    exact Journal.submissions_modifyExecution fun _ => rfl
  case resolveStep =>
    obtain ⟨payload, row, st, -, -, -, rfl⟩ := JournalStore.run_resolveStep.mp h
    exact Journal.submissions_modifyExecution (j := j.modifyStep _ _ _) fun _ => rfl
  case markStepOutcomeUnknown =>
    obtain ⟨row, st, -, -, rfl⟩ := JournalStore.run_markStepOutcomeUnknown.mp h
    exact Journal.submissions_modifyExecution (j := j.modifyStep _ _ _) fun _ => rfl
  case failExecution =>
    obtain ⟨row, -, rfl⟩ := JournalStore.run_failExecution.mp h
    exact Journal.submissions_modifyExecution fun _ => rfl
  case acknowledgeCancellation reason =>
    obtain ⟨row, -, -, -, rfl⟩ := JournalStore.run_acknowledgeCancellation.mp h
    have hrequest : (JournalStore.acknowledged c.executionId reason now row j).submissions = j.submissions := by
      unfold JournalStore.acknowledged
      split_ifs
      · exact Journal.submissions_modifyExecution fun _ => rfl
      · rfl
    rw [← hrequest]
    exact Journal.submissions_modifyExecution fun _ => rfl

/-- An operation under the claim moves the execution of the claim. -/
theorem Record.Step.of_under {id : String} {op : Op V} {r r' : Record} (h : Record.Step store now id op r r')
    (hop : op.Under c) : c.executionId = id := by
  cases h <;> cases hop <;> assumption

theorem record_exec_of_under {j : Journal} (hop : op.Under c) {id : String} (hid : id ≠ c.executionId) :
    (Call.exec store j ⟨op, now⟩).record id = j.record id := by
  rcases Call.exec_moves store j ⟨op, now⟩ id with he | hs
  · exact he
  · exact absurd (hs.of_under hop).symm hid

/-- A write under a claim is made in time, or refused. -/
theorem runs_stops (op : Op V) (hplain : store.Plain) (hop : op.Stops c) (hs : s.Claims c)
    (happ : op.Applies store c (s.record c.executionId)) {r : Except Exc op.Reply}
    (h : Runs (asking store reconcilers) (call op) s l r t) :
    (∀ d, d ∉ answersOf reconcilers l) ∧
      (((∀ w ∈ writtenIn l, w < c.expiresAt) ∧ (∃ a, r = .ok a) ∧ Settles c op.leaves s t) ∨
        (∃ w ∈ writtenIn l, ¬ w < c.expiresAt) ∧ ∃ e, r = .error e ∧ Exc.Other e) := by
  obtain ⟨delay, rfl, hr, rfl⟩ := runs_call hs.idle (runs_alone h)
  rw [writtenIn_write hop.writer_eq, writtenIn_nil]
  refine ⟨by simp, ?_⟩
  simp only [List.mem_singleton, forall_eq, exists_eq_left]
  by_cases hlt : (s.wait delay).clock < c.expiresAt
  · obtain ⟨a, j, hrun⟩ := (run_stops_iff hop (hs.wait delay) happ).mpr hlt
    refine .inl ⟨hlt, ⟨a, hr.trans (congrArg Prod.fst (Txn.commit_of_ok hrun))⟩, hs.idle, ?_, ?_, ?_⟩
    · rw [Desk.call_of_run hrun]
      exact left_of_run hop (hs.wait delay) happ hrun
    · exact fun id hid => record_exec_of_under hop.under hid
    · rw [Desk.call_of_run hrun]
      exact submissions_of_run hop hrun
  · refine .inr ⟨hlt, ?_⟩
    cases hrun : (op.txn store (s.wait delay).clock).run s.journal with
    | ok x => exact absurd ((run_stops_iff hop (hs.wait delay) happ).mp ⟨x.1, x.2, hrun⟩) hlt
    | error e =>
      exact ⟨e, hr.trans (congrArg Prod.fst (Txn.commit_of_error hrun)), raises_stops hplain hop _ _ hrun⟩

end Writes

/-! ## An interrupted attempt -/

section Attempt

variable {store : JournalStore V} {reconcilers : Reconcilers V} {activities : String → ActivityPolicy} {c : Claim V}
  {s t : Desk V} {l : List (Request V × Desk V)} {step : String} {value : V}

/-- The attempt was resolved in time, in the state it ended up in. -/
structure Resolves (store : JournalStore V) (reconcilers : Reconcilers V) (activities : String → ActivityPolicy)
    (c : Claim V) (step : String) (state : StepState) (s : Desk V) (l : List (Request V × Desk V)) (t : Desk V) : Prop where
  prompt : ∀ w ∈ writtenIn l, w < c.expiresAt
  saved : ∀ d ∈ answersOf reconcilers l, ∃ payload, resolvedPayload store step d.state d.output = .ok payload
  settles : Settles c (if state = .outcomeUnknown then .waiting else .pending) s t
  decided : state ≠ .outcomeUnknown ↔
    activities step ≠ .undeclared ∧ ∀ d ∈ answersOf reconcilers l, d.state ≠ .outcomeUnknown

/-- Something was late, or an output could not be saved. -/
def Fails (store : JournalStore V) (reconcilers : Reconcilers V) (c : Claim V) (step : String)
    (l : List (Request V × Desk V)) : Prop :=
  (∃ w ∈ writtenIn l, ¬ w < c.expiresAt) ∨
    ∃ d ∈ answersOf reconcilers l, ∀ payload, resolvedPayload store step d.state d.output ≠ .ok payload

theorem runs_resolve (hplain : store.Plain) (hs : s.Claims c) (hq : c.cancellationRequested = false)
    (hstep : (s.record c.executionId).Running step) {r : Except Exc StepState}
    (h : Runs (asking store reconcilers) (resolveInterruptedAttempt store c activities step value) s l r t) :
    (∃ state, r = .ok state ∧ Resolves store reconcilers activities c step state s l t) ∨
      ∃ e, r = .error e ∧ Exc.Other e ∧ Fails store reconcilers c step l := by
  unfold resolveInterruptedAttempt at h
  cases hpolicy : activities step with
  | idempotent =>
    rw [hpolicy] at h
    obtain ⟨x, hx, rfl⟩ := Proc.runs_bind_pure.mp h
    obtain ⟨hanswers, ⟨hprompt, ⟨a, rfl⟩, hsettles⟩ | ⟨hlate, e, rfl, he⟩⟩ :=
      runs_stops (.resolveStep c step .pending store.values.null _) hplain rfl hs
        ⟨hq, hstep, by simp, none, rfl⟩ hx
    · refine .inl ⟨_, rfl, hprompt, fun d hd => absurd hd (hanswers d), hsettles, ?_⟩
      exact iff_of_true (by simp) ⟨by simp [hpolicy], fun d hd => absurd hd (hanswers d)⟩
    · exact .inr ⟨e, rfl, he, .inl hlate⟩
  | undeclared =>
    rw [hpolicy] at h
    obtain ⟨x, hx, rfl⟩ := Proc.runs_bind_pure.mp h
    obtain ⟨hanswers, ⟨hprompt, ⟨a, rfl⟩, hsettles⟩ | ⟨hlate, e, rfl, he⟩⟩ :=
      runs_stops (.markStepOutcomeUnknown c step _) hplain rfl hs ⟨hq, hstep⟩ hx
    · refine .inl ⟨_, rfl, hprompt, fun d hd => absurd hd (hanswers d), hsettles, ?_⟩
      exact iff_of_false (by simp) fun hd => hd.1 hpolicy
    · exact .inr ⟨e, rfl, he, .inl hlate⟩
  | reconcile =>
    rw [hpolicy] at h
    dsimp only at h
    rcases Proc.runs_bind.mp h with ⟨e, -, h'⟩ | ⟨reconciled, s', l₁, l₂, rfl, h', h⟩
    · obtain ⟨delay, -, hr, -⟩ := runs_asked hs.idle h'
      cases hr
    obtain ⟨delay, rfl, hr, rfl⟩ := runs_asked hs.idle h'
    cases hr
    set d := reconcilers step value (s.wait delay) with hd
    have hs' := hs.wait delay
    have keep : ∀ {status}, Settles c status (s.wait delay) t → Settles c status s t :=
      fun h => ⟨h.idle, h.left, h.frame, h.order⟩
    dsimp only at h
    split_ifs at h with hunknown
    · obtain ⟨x, hx, rfl⟩ := Proc.runs_bind_pure.mp h
      obtain ⟨hanswers, ⟨hprompt, ⟨a, rfl⟩, hsettles⟩ | ⟨hlate, e, rfl, he⟩⟩ :=
        runs_stops (.markStepOutcomeUnknown c step _) hplain rfl hs' ⟨hq, hstep⟩ hx
      · have honly : ∀ d', d' ∈ answersOf reconcilers ([(Request.reconcile step value, s.wait delay)] ++ l₂) ↔
            d' = d := by
          simp [hanswers, hd]
        refine .inl ⟨_, rfl, by simpa using hprompt, fun d' hd' => ?_, keep hsettles, ?_⟩
        · rw [(honly d').mp hd', hunknown]
          exact ⟨none, rfl⟩
        · exact iff_of_false (by simp) fun h => h.2 d ((honly d).mpr rfl) hunknown
      · exact .inr ⟨e, rfl, he, .inl (by simpa using hlate)⟩
    · obtain ⟨x, hx, rfl⟩ := Proc.runs_bind_pure.mp h
      cases hpayload : resolvedPayload store step d.state d.output with
      | error e =>
        -- the output cannot be saved
        obtain ⟨delay', rfl, hr, -⟩ := runs_call hs'.idle (runs_alone hx)
        have hrun : ∀ now, ((Op.resolveStep c step d.state d.output (textOr "reconciled" d.detail)).txn store now).run
            (s.wait delay).journal = .error e := by
          intro now
          show (JournalStore.resolveStep store c step d.state d.output (textOr "reconciled" d.detail) now).run _ = _
          unfold JournalStore.resolveStep
          rw [show (if d.state = .succeeded then (store.dump d.output s!"output of step {reprStr step}").map some
            else .ok none) = _ from hpayload]
          rfl
        rw [Txn.commit_of_error (hrun _)] at hr
        refine .inr ⟨e, by rw [hr]; rfl, other_of_payload hplain hpayload, .inr ⟨d, by simp [hd], ?_⟩⟩
        intro payload hp
        cases hpayload.symm.trans hp
      | ok payload =>
        have hdecides : d.state ∈ [StepState.succeeded, .pending, .failed] := by
          have := d.decides
          revert this hunknown
          cases d.state <;> decide
        obtain ⟨hanswers, ⟨hprompt, ⟨a, rfl⟩, hsettles⟩ | ⟨hlate, e, rfl, he⟩⟩ :=
          runs_stops (.resolveStep c step d.state d.output _) hplain rfl hs'
            ⟨hq, hstep, hdecides, payload, hpayload⟩ hx
        · have honly : ∀ d', d' ∈ answersOf reconcilers ([(Request.reconcile step value, s.wait delay)] ++ l₂) ↔
              d' = d := by
            simp [hanswers, hd]
          refine .inl ⟨_, rfl, by simpa using hprompt, fun d' hd' => ?_, ?_, ?_⟩
          · rw [(honly d').mp hd']
            exact ⟨payload, hpayload⟩
          · rw [if_neg hunknown]
            exact keep hsettles
          · refine iff_of_true hunknown ⟨by simp [hpolicy], fun d' hd' => ?_⟩
            rw [(honly d').mp hd']
            exact hunknown
        · exact .inr ⟨e, rfl, he, .inl (by simpa using hlate)⟩

/-- Once the execution is back in the queue or parked, no further attempt of it is resolved. -/
theorem runs_resolve_refused (hplain : store.Plain) (hs : s.heartbeat = none) {status : ExecutionStatus}
    (hstatus : status ∈ [ExecutionStatus.pending, .waiting]) (hleft : s.Left c status) {r : Except Exc StepState}
    (h : Runs (asking store reconcilers) (resolveInterruptedAttempt store c activities step value) s l r t) :
    ∃ e, r = .error e ∧ Exc.Other e := by
  have refused : ∀ (op : Op V) {state : StepState} {s' l' r'}, op.Stops c →
      Runs (asking store reconcilers) (do let _ ← call op; return state) s' l' r' t → s'.heartbeat = none →
      (∀ a j now, (op.txn store now).run s'.journal ≠ .ok (a, j)) → ∃ e, r' = .error e ∧ Exc.Other e := by
    intro op state s' l' r' hop h' hs' hnot
    obtain ⟨x, hx, rfl⟩ := Proc.runs_bind_pure.mp h'
    obtain ⟨delay, -, hr, -⟩ := runs_call hs' (runs_alone hx)
    cases hrun : (op.txn store (s'.clock + delay)).run s'.journal with
    | ok y => exact absurd hrun (hnot _ _ _)
    | error e =>
      rw [Txn.commit_of_error hrun] at hr
      exact ⟨e, by rw [hr]; rfl, raises_stops hplain hop _ _ hrun⟩
  have illegal : ∀ {target now row}, target ∈ [ExecutionStatus.pending, .waiting] →
      ¬ (s.record c.executionId).Accepts c now row target := by
    rintro target now row htarget ⟨hrow, hlegal, -, -⟩
    obtain ⟨row', hrow', hstatus', -⟩ := hleft.row
    cases hrow.symm.trans hrow'
    rw [hstatus'] at hlegal
    revert hstatus htarget hlegal
    cases status <;> cases target <;> decide
  have resolve : ∀ {state output detail} a j now,
      ((Op.resolveStep c step state output detail).txn store now).run s.journal ≠ .ok (a, j) := by
    intro state output detail a j now hrun
    obtain ⟨payload, row, st, -, -, hrow, -⟩ := JournalStore.run_resolveStep.mp hrun
    exact illegal (by simp) hrow
  have mark : ∀ {reason} a j now,
      ((Op.markStepOutcomeUnknown c step reason).txn store now).run s.journal ≠ .ok (a, j) := by
    intro reason a j now hrun
    obtain ⟨row, st, -, hrow, -⟩ := JournalStore.run_markStepOutcomeUnknown.mp hrun
    exact illegal (by simp) hrow
  unfold resolveInterruptedAttempt at h
  cases hpolicy : activities step with
  | idempotent =>
    rw [hpolicy] at h
    exact refused (.resolveStep c step _ _ _) rfl h hs resolve
  | undeclared =>
    rw [hpolicy] at h
    exact refused (.markStepOutcomeUnknown c step _) rfl h hs mark
  | reconcile =>
    rw [hpolicy] at h
    dsimp only at h
    rcases Proc.runs_bind.mp h with ⟨e, -, h'⟩ | ⟨reconciled, s', l₁, l₂, rfl, h', h⟩
    · obtain ⟨delay, -, hr, -⟩ := runs_asked hs h'
      cases hr
    obtain ⟨delay, rfl, hr, rfl⟩ := runs_asked hs h'
    cases hr
    dsimp only at h
    split_ifs at h
    · exact refused (.markStepOutcomeUnknown c step _) rfl h hs mark
    · exact refused (.resolveStep c step _ _ _) rfl h hs resolve

/-- The interrupted attempts of an execution: the first one is resolved, and there had better be no other. -/
theorem runs_resolveAll (hplain : store.Plain) (hs : s.Claims c) (hq : c.cancellationRequested = false) {plan : Plan V}
    {rest : List String} (hstep : (s.record c.executionId).Running step) {r : Except Exc (List StepState)}
    (h : Runs (asking store reconcilers) (resolveInterrupted store c activities plan (step :: rest)) s l r t) :
    (∃ state, r = .ok [state] ∧ rest = [] ∧ Resolves store reconcilers activities c step state s l t) ∨
      ∃ e, r = .error e ∧ Exc.Other e ∧ (rest ≠ [] ∨ Fails store reconcilers c step l) := by
  unfold resolveInterrupted at h
  rcases Proc.runs_bind.mp h with ⟨e, rfl, h₁⟩ | ⟨state, s', l₁, l₂, rfl, h₁, h₂⟩
  · rcases runs_resolve hplain hs hq hstep h₁ with ⟨state, hr, -⟩ | ⟨e', hr, he, hfails⟩
    · cases hr
    · cases hr
      exact .inr ⟨e, rfl, he, .inr hfails⟩
  rcases runs_resolve hplain hs hq hstep h₁ with ⟨state', hr, hresolves⟩ | ⟨e, hr, -⟩
  · cases hr
    obtain ⟨x, hx, rfl⟩ := (Proc.runs_bind_pure (g := fun states => state :: states)).mp h₂
    cases rest with
    | nil =>
      obtain ⟨rfl, rfl, rfl⟩ := Proc.runs_pure.mp hx
      rw [List.append_nil]
      exact .inl ⟨state, rfl, rfl, hresolves⟩
    | cons step' rest =>
      unfold resolveInterrupted at hx
      have hleft : ∃ status ∈ [ExecutionStatus.pending, .waiting], s'.Left c status := by
        have hleft := hresolves.settles.left
        split_ifs at hleft
        · exact ⟨_, by simp, hleft⟩
        · exact ⟨_, by simp, hleft⟩
      obtain ⟨status, hstatus, hleft⟩ := hleft
      rcases Proc.runs_bind.mp hx with ⟨e, rfl, h₃⟩ | ⟨state', s'', l₃, l₄, rfl, h₃, -⟩
      · obtain ⟨e', he', hother⟩ := runs_resolve_refused hplain hresolves.settles.idle hstatus hleft h₃
        cases he'
        exact .inr ⟨e, rfl, hother, .inl (List.cons_ne_nil _ _)⟩
      · obtain ⟨e', he', -⟩ := runs_resolve_refused hplain hresolves.settles.idle hstatus hleft h₃
        cases he'
  · cases hr

end Attempt

/-! ## One execution -/

section RecoverOne

variable {store : JournalStore V} {reconcilers : Reconcilers V} {definitions : DefinitionLookup V}
  {activities : String → ActivityPolicy} {c : Claim V} {s t : Desk V} {l : List (Request V × Desk V)}

/-- The turn in which `l` is done. -/
def turnOf (reconcilers : Reconcilers V) (claimed : Instant) (l : List (Request V × Desk V)) : Turn V :=
  ⟨claimed, answersOf reconcilers l, writtenIn l⟩

/-- `_recover_one` under a claim: it decides, or stops at a plan that raises before anything is written, or something is
in its way. -/
theorem runs_recoverOne (claimed : Instant) (hplain : store.Plain) (hs : s.Claims c)
    {r : Except Exc (RecoveryAction × StepState)}
    (h : Runs (asking store reconcilers) (recoverOne store c activities definitions) s l r t) :
    ((∃ d, r = .ok d) ∧ Manageable store definitions c (s.record c.executionId) (turnOf reconcilers claimed l) ∧
      ∃ status ∈ [ExecutionStatus.pending, .waiting, .cancelled, .failed], Settles c status s t ∧ (status = .pending ↔
        Returns store definitions activities c (s.record c.executionId) (turnOf reconcilers claimed l))) ∨
    (∃ e, r = .error e ∧ Unplanned store definitions c (s.record c.executionId) e ∧ answersOf reconcilers l = [] ∧
      writtenIn l = [] ∧ ∃ delay, t = s.wait delay) ∨
    ∃ e, r = .error e ∧ Exc.Other e ∧
      ¬ Manageable store definitions c (s.record c.executionId) (turnOf reconcilers claimed l) := by
  have late : (∃ w ∈ writtenIn l, ¬ w < c.expiresAt) →
      ¬ Manageable store definitions c (s.record c.executionId) (turnOf reconcilers claimed l) := by
    rintro ⟨w, hw, hlate⟩ hmanageable
    exact hlate (hmanageable.prompt w hw)
  unfold recoverOne at h
  split_ifs at h with hq
  · -- the cancellation is acknowledged
    obtain ⟨x, hx, rfl⟩ := Proc.runs_bind_pure.mp h
    have hunquiet : ¬ c.cancellationRequested = false := by simp [hq]
    obtain ⟨hanswers, ⟨hprompt, ⟨a, rfl⟩, hsettles⟩ | ⟨hlate, e, rfl, he⟩⟩ :=
      runs_stops (.acknowledgeCancellation c _) hplain rfl hs hq hx
    · refine .inl ⟨⟨_, rfl⟩, ⟨hprompt, fun e he => absurd he.1 hunquiet, fun hq' => absurd hq' hunquiet,
        fun step _ d hd => absurd hd (hanswers d)⟩, .cancelled, by simp, hsettles, ?_⟩
      exact iff_of_false (by decide) fun hreturns => hunquiet hreturns.1
    · exact .inr (.inr ⟨e, rfl, he, late hlate⟩)
  have hq : c.cancellationRequested = false := by simpa using hq
  obtain ⟨running, hread, hrunning, hnodup⟩ : ∃ running : List String,
      (∀ now, ((Op.runningSteps c.executionId : Op V).txn store now).run s.journal = .ok (running, s.journal)) ∧
        (∀ step, step ∈ running ↔ (s.record c.executionId).Running step) ∧ running.Nodup :=
    ⟨_, fun _ => rfl, fun _ => mem_runningSteps, nodup_runningSteps _ _⟩
  obtain ⟨d₁, l₁, rfl, h₁⟩ := runs_reads hs.idle hread h
  have hs₁ := hs.wait d₁
  split_ifs at h₁ with hnone
  · -- nothing was interrupted
    have hquiet : ∀ step, ¬ (s.record c.executionId).Running step := by
      intro step hstep
      rw [← hrunning, hnone] at hstep
      cases hstep
    obtain ⟨x, hx, rfl⟩ := Proc.runs_bind_pure.mp h₁
    obtain ⟨hanswers, ⟨hprompt, ⟨a, rfl⟩, hsettles⟩ | ⟨hlate, e, rfl, he⟩⟩ :=
      runs_stops (.yieldExecution c _) hplain rfl hs₁ hq hx
    · refine .inl ⟨⟨_, rfl⟩, ⟨?_, fun e he => ?_, fun _ _ _ step _ hstep => absurd hstep (hquiet step),
        fun step hstep => absurd hstep (hquiet step)⟩, .pending, by simp, ?_, ?_⟩
      · simpa [turnOf] using hprompt
      · obtain ⟨-, ⟨step, hstep⟩, -⟩ := he
        exact absurd hstep (hquiet step)
      · exact ⟨hsettles.idle, hsettles.left, hsettles.frame, hsettles.order⟩
      · exact iff_of_true rfl ⟨hq, .inl hquiet⟩
    · exact .inr (.inr ⟨e, rfl, he, late (by simpa using hlate)⟩)
  obtain ⟨step, rest, hlist⟩ := List.exists_cons_of_ne_nil hnone
  have hstep : (s.record c.executionId).Running step := (hrunning step).mp (by simp [hlist])
  rcases Proc.runs_bind.mp h₁ with ⟨e, rfl, h₂⟩ | ⟨workflow, s', l₂, l₃, rfl, h₂, h₃⟩
  · -- there is no definition to go on with
    obtain ⟨rfl, hdef, rfl⟩ := Proc.runs_ofExcept.mp h₂
    have hplan : recoveryPlan store definitions c (s.record c.executionId).steps = .error e := by
      rw [recoveryPlan, ← hdef]
      rfl
    exact .inr (.inl ⟨e, rfl, ⟨hq, ⟨step, hstep⟩, hplan⟩, by simp, by simp, d₁, rfl⟩)
  obtain ⟨rfl, hdef, rfl⟩ := Proc.runs_ofExcept.mp h₂
  obtain ⟨d₂, l₄, rfl, h₄⟩ := runs_reads (a := statesOf (s.record c.executionId).steps) hs₁.idle (fun _ => rfl) h₃
  have hs₂ := hs₁.wait d₂
  obtain ⟨d₃, l₅, rfl, h₅⟩ :=
    runs_reads (a := outputsOf store (s.record c.executionId).steps) hs₂.idle (fun _ => rfl) h₄
  have hs₃ := hs₂.wait d₃
  have hplan : recoveryPlan store definitions c (s.record c.executionId).steps =
      planNext workflow store.values.null (statesOf (s.record c.executionId).steps)
        (outputsOf store (s.record c.executionId).steps) := by
    rw [recoveryPlan, ← hdef]
    rfl
  rcases Proc.runs_bind.mp h₅ with ⟨e, rfl, h₆⟩ | ⟨plan, s', l₆, l₇, rfl, h₆, h₇⟩
  · -- the plan raises
    obtain ⟨rfl, he, rfl⟩ := Proc.runs_ofExcept.mp h₆
    refine .inr (.inl ⟨e, rfl, ⟨hq, ⟨step, hstep⟩, hplan.trans he.symm⟩, by simp, ?_, d₁ + d₂ + d₃, ?_⟩)
    · simp
    · simp [Desk.wait, add_assoc]
  obtain ⟨rfl, he, rfl⟩ := Proc.runs_ofExcept.mp h₆
  have hplanned := hplan.trans he.symm
  obtain ⟨x, hx, rfl⟩ := Proc.runs_bind_pure.mp h₇
  rw [hlist] at hx
  -- only the requests of the attempt are answered by a reconciler, or write
  have hanswers : ∀ m, answersOf reconcilers ([(Request.store (.runningSteps c.executionId), s.wait d₁)] ++ ([] ++
      ([(Request.store (.stepStates c.executionId), (s.wait d₁).wait d₂)] ++
        ([(Request.store (.completedOutputs c.executionId), ((s.wait d₁).wait d₂).wait d₃)] ++ ([] ++ m))))) =
        answersOf reconcilers m := by simp
  have hwritten : ∀ m, writtenIn ([(Request.store (.runningSteps c.executionId), s.wait d₁)] ++ ([] ++
      ([(Request.store (.stepStates c.executionId), (s.wait d₁).wait d₂)] ++
        ([(Request.store (.completedOutputs c.executionId), ((s.wait d₁).wait d₂).wait d₃)] ++ ([] ++ m))))) =
        writtenIn m := by simp
  rcases runs_resolveAll hplain hs₃ hq hstep hx with ⟨state, rfl, rfl, hresolves⟩ | ⟨e, rfl, hother, hfails⟩
  · have hone : ∀ step', (s.record c.executionId).Running step' → step' = step := by
      intro step' hstep'
      rw [← hrunning, hlist] at hstep'
      exact List.mem_singleton.mp hstep'
    refine .inl ⟨⟨_, rfl⟩, ⟨?_, fun e' he' => ?_, fun _ _ _ a b ha hb => (hone a ha).trans (hone b hb).symm, ?_⟩,
      if state = .outcomeUnknown then .waiting else .pending, by split_ifs <;> simp, ?_, ?_⟩
    · rw [turnOf, hwritten]
      exact hresolves.prompt
    · cases hplanned.symm.trans he'.2.2
    · intro step' hstep' d hd
      rw [turnOf, hanswers] at hd
      rw [hone step' hstep']
      exact hresolves.saved d hd
    · exact ⟨hresolves.settles.idle, hresolves.settles.left, hresolves.settles.frame, hresolves.settles.order⟩
    · have hstatus : (if state = .outcomeUnknown then ExecutionStatus.waiting else .pending) = .pending ↔
          state ≠ .outcomeUnknown := by
        split_ifs with hu <;> simp [hu]
      rw [hstatus, hresolves.decided, Returns, turnOf, hanswers]
      constructor
      · rintro ⟨hdeclared, hdecided⟩
        refine ⟨hq, .inr ⟨⟨plan, hplanned⟩, fun step' hstep' => ?_⟩⟩
        rw [hone step' hstep']
        exact ⟨hdeclared, hdecided⟩
      · rintro ⟨-, hquiet | ⟨-, hall⟩⟩
        · exact absurd hstep (hquiet step)
        · exact hall step hstep
  · refine .inr (.inr ⟨e, rfl, hother, fun hmanageable => ?_⟩)
    rcases hfails with hrest | ⟨w, hw, hlate⟩ | ⟨d, hd, hunsaved⟩
    · -- a second attempt was interrupted
      obtain ⟨step', rest', rfl⟩ := List.exists_cons_of_ne_nil hrest
      have hstep' : (s.record c.executionId).Running step' := (hrunning step').mp (by simp [hlist])
      have heq := hmanageable.single hq plan hplanned step step' hstep hstep'
      rw [hlist, List.nodup_cons] at hnodup
      exact hnodup.1 (by simp [heq])
    · refine hlate (hmanageable.prompt w ?_)
      rw [turnOf, hwritten]
      exact hw
    · obtain ⟨payload, hp⟩ := hmanageable.saved step hstep d (by rw [turnOf, hanswers]; exact hd)
      exact hunsaved payload hp

/-- `_recover_one` asks for no claim. -/
theorem recoverOne_only : (recoverOne store c activities definitions).Only
    fun q => ∀ owner ttl, q ≠ .store (.claimNext owner ttl) := by
  have one : ∀ {op : Op V}, (∀ owner ttl, op ≠ .claimNext owner ttl) →
      (call op).Only fun q => ∀ owner ttl, q ≠ .store (.claimNext owner ttl) :=
    fun hop => Proc.only_request fun owner ttl he => hop owner ttl (Request.store.inj he)
  have attempt : ∀ {step : String} {value : V}, (resolveInterruptedAttempt store c activities step value).Only
      fun q => ∀ owner ttl, q ≠ .store (.claimNext owner ttl) := by
    intro step value
    unfold resolveInterruptedAttempt
    split
    · exact (one (by simp)).bind fun _ => Proc.only_pure _
    · refine Proc.Only.bind (Proc.only_request (by simp)) fun reconciled => ?_
      cases reconciled with
      | other typeName => exact Proc.only_raise _
      | decided d =>
        dsimp only
        split_ifs
        · exact (one (by simp)).bind fun _ => Proc.only_pure _
        · exact (one (by simp)).bind fun _ => Proc.only_pure _
    · exact (one (by simp)).bind fun _ => Proc.only_pure _
  have attempts : ∀ {plan : Plan V} {interrupted : List String},
      (resolveInterrupted store c activities plan interrupted).Only
        fun q => ∀ owner ttl, q ≠ .store (.claimNext owner ttl) := by
    intro plan interrupted
    induction interrupted with
    | nil => exact Proc.only_pure _
    | cons step rest ih => exact attempt.bind fun _ => ih.bind fun _ => Proc.only_pure _
  unfold recoverOne
  split_ifs
  · exact (one (by simp)).bind fun _ => Proc.only_pure _
  refine (one (by simp)).bind fun running => ?_
  split_ifs
  · exact (one (by simp)).bind fun _ => Proc.only_pure _
  refine (Proc.only_ofExcept _).bind fun workflow => (one (by simp)).bind fun states =>
    (one (by simp)).bind fun outputs => ?_
  exact (Proc.only_ofExcept _).bind fun plan => attempts.bind fun _ => Proc.only_pure _

end RecoverOne

end Xyberos.Durable
