import Xyberos.Durable.Attempts
import Xyberos.Durable.Plans
import Xyberos.Durable.Roster

/-!
# Xyberos.Durable.Obligations — what the writes of a worker rest on

Whatever a worker writes under a claim, it decided on the definition that the claim requires; and while the claim is
the last one on its execution, the step states it decided on are those of the journal, and so are the outputs, unless
it resolved an interrupted attempt itself.  `Planned.may` states this for each request; `planned_runOnce` and
`planned_recover` prove it of the two calls of a worker, for any invariant and any fairness of the others.
-/

set_option autoImplicit false

namespace Xyberos.Durable

open Proc (World Ends)

variable {V κ α : Type}

/-! ## What is read off the steps of an execution -/

section Steps

variable (store : JournalStore V) (steps : String → Option StepRow)

/-- What `step_states` returns. -/
def statesOf : String → Option StepState := fun s => (steps s).map StepRow.state

/-- What `completed_outputs` returns. -/
def outputsOf : String → Option V := fun s =>
  (steps s).bind fun st => if st.state = .succeeded then some (store.load st.output) else none

variable {store} {r : Record} {s : String} {f : StepRow → StepRow} {st : StepRow}

theorem running_iff : r.Running s ↔ statesOf r.steps s = some .running := by
  simp [Record.Running, statesOf]

theorem statesOf_modifyStep (hst : r.steps s = some st) :
    statesOf (r.modifyStep s f).steps = mark (statesOf r.steps) s (f st).state := by
  funext s'
  simp only [statesOf, Record.modifyStep_steps, mark]
  split_ifs
  · rw [hst]
    rfl
  · rfl

/-- Between two states that are not SUCCEEDED the outputs stay. -/
theorem outputsOf_modifyStep (hf : ∀ st, (f st).state ≠ .succeeded) (hst : r.steps s = some st)
    (hs : st.state ≠ .succeeded) : outputsOf store (r.modifyStep s f).steps = outputsOf store r.steps := by
  funext s'
  simp only [outputsOf, Record.modifyStep_steps]
  split_ifs with he
  · subst he
    simp [hst, hf, hs]
  · rfl

/-- The rows `running_steps` selects. -/
theorem mem_runningSteps {j : Journal} {id : String} :
    s ∈ (j.steps.select fun k r => k.1 = id ∧ r.state = .running).map (fun x => x.1.2) ↔
      ∃ st, j.steps.get? (id, s) = some st ∧ st.state = .running := by
  simp only [List.mem_map, Prod.exists]
  constructor
  · rintro ⟨id', s', st, hmem, rfl⟩
    obtain ⟨hst, rfl, hrun⟩ := Table.mem_select.mp hmem
    exact ⟨st, hst, hrun⟩
  · rintro ⟨st, hst, hrun⟩
    exact ⟨id, s, st, Table.mem_select.mpr ⟨hst, rfl, hrun⟩, rfl⟩

theorem nodup_runningSteps (j : Journal) (id : String) :
    ((j.steps.select fun k r => k.1 = id ∧ r.state = .running).map fun x => x.1.2).Nodup := by
  have hkeys := j.steps.nodup_select fun k r => k.1 = id ∧ r.state = .running
  refine List.Nodup.map_on ?_ (List.Nodup.of_map _ hkeys)
  rintro ⟨⟨id₁, s₁⟩, st₁⟩ h₁ ⟨⟨id₂, s₂⟩, st₂⟩ h₂ hs
  obtain ⟨hst₁, rfl, -⟩ := Table.mem_select.mp h₁
  obtain ⟨hst₂, hid, -⟩ := Table.mem_select.mp h₂
  obtain rfl : id₂ = id₁ := hid
  obtain rfl : s₁ = s₂ := hs
  rw [Option.some.inj (hst₁.symm.trans hst₂)]

end Steps

/-! ## Notes -/

/-- What a worker notes: the claim it works under, and whether it resolved an interrupted attempt under it. -/
structure Notes (V : Type) where
  claim : Option (Claim V) := none
  resolved : Bool := false

def Notes.note (n : Notes V) : (q : Request V) → Except Exc q.Reply → Notes V
  | .store (.claimNext _ _), .ok (some c) => { claim := some c }
  | .store (.resolveStep _ _ _ _ _), .ok _ => { n with resolved := true }
  | _, _ => n

/-- Only `claim_next` changes the claim. -/
theorem Notes.note_claim (n : Notes V) {op : Op V} (hop : ∀ owner ttl, op ≠ .claimNext owner ttl)
    (a : Except Exc op.Reply) : (n.note (.store op) a).claim = n.claim := by
  cases op with
  | claimNext owner ttl => exact absurd rfl (hop owner ttl)
  | resolveStep c s state output detail => cases a <;> rfl
  | _ => rfl

/-- Only `resolve_step` is noted besides. -/
theorem Notes.note_of_ne (n : Notes V) {op : Op V} (hop : ∀ owner ttl, op ≠ .claimNext owner ttl)
    (hop' : ∀ c s state output detail, op ≠ .resolveStep c s state output detail) (a : Except Exc op.Reply) :
    n.note (.store op) a = n := by
  cases op with
  | claimNext owner ttl => exact absurd rfl (hop owner ttl)
  | resolveStep c s state output detail => exact absurd rfl (hop' c s state output detail)
  | _ => rfl

/-! ## Obligations -/

/-- The step whose attempt an operation ends. -/
def Op.attempt? : Op V → Option String
  | completeStep _ s _ => some s
  | failStep _ s _ _ _ _ => some s
  | markStepOutcomeUnknown _ s _ => some s
  | resolveStep _ s _ _ _ => some s
  | _ => none

/-- The operation carries out a plan: it starts or skips a step, reports a conflict, or completes the execution. -/
def Op.Decided : Op V → Prop
  | startStep _ _ _ => True
  | skipStep _ _ _ => True
  | completeExecution _ _ => True
  | failExecution _ kind _ => kind = .definitionConflict
  | _ => False

/-- The operation carries out the plan. -/
def Op.CarriesOut (store : JournalStore V) : Op V → Plan V → Prop
  | startStep _ s _, .runStep step _ _ => step.id = s
  | skipStep _ s reason, .skipStep step reason' => step.id = s ∧ reason = reason'
  | completeExecution _ outputs, .complete results _ => outputs = store.values.ofDict results
  | failExecution _ kind message, .conflict _ _ reason => kind = .definitionConflict ∧ message = reason
  | _, _ => False

/-- The plan is made from the states in the record, and from its outputs if they are fresh. -/
def Record.Plans (r : Record) (store : JournalStore V) (w : Workflow V) (fresh : Prop) (plan : Plan V) : Prop :=
  ∃ outputs, planNext w store.values.null (statesOf r.steps) outputs = .ok plan ∧
    (fresh → outputs = outputsOf store r.steps)

/-- Parameters of `planned`: the fleets, the invariant, and what is fair. -/
structure Planned (V κ : Type) where
  store : JournalStore V
  fleet : κ → Fleet V
  inv : Scene V → Prop
  fair : Scene V → Notes V → Instant → Request V → Prop

namespace Planned

variable (E : Planned V κ)

/-- What a write rests on. -/
structure Grounded (k : κ) (x : Station V (Notes V)) (c : Claim V) (op : Op V) (w : Workflow V) : Prop where
  definition : requireDefinition E.store (E.fleet k).definitions c = .ok w
  decided : op.Decided → x.Current c → ∃ plan, (x.scene.record c.executionId).Plans E.store w
    (x.notes.resolved = false) plan ∧ op.CarriesOut E.store plan
  running : ∀ s, op.attempt? = some s → x.Current c → (x.scene.record c.executionId).Running s

/-- Some time ago the step was started under the claim, with a plan that gave it the value. -/
def Started (k : κ) (c : Claim V) (s : String) (v : V) (x : Scene V) : Prop :=
  ∃ (y : Station V (Notes V)) (now : Instant) (key : Option String) (w : Workflow V) (step : Step V) (value : V)
    (sources : List String),
    (y.scene.Proper E.store ∧ E.inv y.scene) ∧
    (y.scene.record c.executionId).Grows (x.record c.executionId) ∧ y.Has E.store c ∧ y.Current c ∧
    E.fair y.scene y.notes now (.store (.startStep c s key)) ∧
    (∃ a, (((Op.startStep c s key).txn E.store now).commit y.scene.journal).1 = .ok a) ∧
    requireDefinition E.store (E.fleet k).definitions c = .ok w ∧
    (y.scene.record c.executionId).Plans E.store w (y.notes.resolved = false) (.runStep step value sources) ∧
    step.id = s ∧ v = if sources = [] then c.input else value

/-- Some time ago the step was RUNNING, and the value was made up from the plan. -/
def Reconstructed (k : κ) (c : Claim V) (s : String) (v : V) (x : Scene V) : Prop :=
  ∃ (y : Scene V) (w : Workflow V) (plan : Plan V), (y.Proper E.store ∧ E.inv y) ∧
    (y.record c.executionId).Grows (x.record c.executionId) ∧
    requireDefinition E.store (E.fleet k).definitions c = .ok w ∧ (y.record c.executionId).Running s ∧
    (y.record c.executionId).Plans E.store w True plan ∧ v = inputFor plan s c

/-- What a worker may ask. -/
def may (k : κ) (x : Station V (Notes V)) : Request V → Prop
  | .store op => ∀ c, op.writer? = some c → x.notes.claim = some c ∧ x.Has E.store c ∧
      (op.Decided ∨ op.attempt? ≠ none → ∃ w, E.Grounded k x c op w)
  | .runStep call => ∃ c, x.notes.claim = some c ∧ x.Has E.store c ∧ E.Started k c call.step.id call.value x.scene
  | .reconcile s v => ∃ c, x.notes.claim = some c ∧ x.Has E.store c ∧
      (x.Current c → E.Reconstructed k c s v x.scene)
  | _ => True

/-- The discipline of these obligations. -/
def discipline : Discipline V κ (Notes V) where
  store := E.store
  inv := E.inv
  may := E.may
  fair := E.fair
  blank := {}
  note := Notes.note

/-! ## Knowledge of a worker -/

/-- The worker works under the claim; while that is the last one, the steps are as `F` says, which may depend on whether
the worker resolved an interrupted attempt. -/
structure Knows (c : Claim V) (F : Bool → (String → Option StepRow) → Prop) (x : Station V (Notes V)) : Prop where
  inv : E.discipline.Inv x.scene
  claim : x.notes.claim = some c
  has : x.Has E.store c
  current : x.Current c → F x.notes.resolved (x.scene.record c.executionId).steps

/-- The worker works under the claim. -/
abbrev Works (c : Claim V) : Station V (Notes V) → Prop := E.Knows c fun _ _ => True

variable {E} {k : κ} {c : Claim V} {F F' : Bool → (String → Option StepRow) → Prop} {x y : Station V (Notes V)}

theorem Knows.mono (h : E.Knows c F x) (hF : ∀ b steps, F b steps → F' b steps) : E.Knows c F' x :=
  ⟨h.inv, h.claim, h.has, fun hc => hF _ _ (h.current hc)⟩

theorem Knows.works (h : E.Knows c F x) : E.Works c x := h.mono fun _ _ _ => trivial

theorem Knows.own (h : E.Knows c F x) {op : Op V} (hop : ∀ c', op.writer? = some c' → c' = c) :
    Discipline.Own x.held (.store op) := by
  intro c' hc'
  rw [hop c' hc']
  exact h.has.held

theorem stable_knows : (E.discipline.world k).Stable (E.Knows c F) := by
  intro x y hxy h
  have hy := Discipline.stable_has x y hxy h.has
  refine ⟨hxy.2.2.1, hxy.2.1 ▸ h.claim, hy, fun hc => ?_⟩
  rw [Discipline.steps_of_interferes hxy h.has hc, hxy.2.1]
  exact h.current (h.has.current_of_grows (hxy.2.2.2.grows _) hc)

/-- A call under the claim. -/
theorem knows_after (h : E.Knows c F x) {now : Instant} {op : Op V} (hop : ∀ owner ttl, op ≠ .claimNext owner ttl)
    (hinv : E.discipline.Inv (E.discipline.after x now op).scene)
    (hF : x.Current c → F x.notes.resolved (x.scene.record c.executionId).steps →
      F' (E.discipline.after x now op).notes.resolved
        ((E.discipline.after x now op).scene.record c.executionId).steps) :
    E.Knows c F' (E.discipline.after x now op) where
  inv := hinv
  claim := (x.notes.note_claim hop _).trans h.claim
  has := Discipline.has_after (D := E.discipline) h.has now op
  current hc := by
    have hx := h.has.current_of_grows (Scene.call_grows E.store x.scene ⟨op, now⟩ _) hc
    exact hF hx (h.current hx)

/-- From a station with `P` the worker keeps its obligations, and if it raises, it works under the claim. -/
abbrev Does (E : Planned V κ) (k : κ) (c : Claim V) (P : Station V (Notes V) → Prop) (p : Coroutine V α)
    (Post : α → Station V (Notes V) → Prop) : Prop :=
  (E.discipline.world k).Triple P p Post fun _ => E.Works c

/-- A call under the claim, or a read. -/
theorem does_call {op : Op V} {F' : op.Reply → Bool → (String → Option StepRow) → Prop}
    (hop : ∀ c', op.writer? = some c' → c' = c) (hne : ∀ owner ttl, op ≠ .claimNext owner ttl)
    (hgrounded : ∀ x, E.Knows c F x → op.Decided ∨ op.attempt? ≠ none → ∃ w, E.Grounded k x c op w)
    (hF : ∀ (x : Station V (Notes V)) now a, x.Has E.store c → x.Current c →
      ((op.txn E.store now).commit x.scene.journal).1 = .ok a →
      F x.notes.resolved (x.scene.record c.executionId).steps → F' a (E.discipline.after x now op).notes.resolved
        ((E.discipline.after x now op).scene.record c.executionId).steps) :
    E.Does k c (E.Knows c F) (call op) fun a => E.Knows c (F' a) := by
  refine Discipline.triple_call stable_knows (fun x hx => ⟨hx.own hop, fun c' hc' => ?_⟩) fun x now hx _ hinv => ?_
  · obtain rfl := hop c' hc'
    exact ⟨hx.claim, hx.has, hgrounded x hx⟩
  · show Ends _ _ ((op.txn E.store now).commit x.scene.journal).1
    cases ha : ((op.txn E.store now).commit x.scene.journal).1 with
    | error e => exact knows_after hx hne hinv fun _ _ => trivial
    | ok a => exact knows_after hx hne hinv fun hc h => hF x now a hx.has hc ha h

/-- A read of the steps of the execution. -/
theorem does_read {op : Op V} {Q : op.Reply → Prop} {R : op.Reply → (String → Option StepRow) → Prop}
    (hw : op.writer? = none) (hne : ∀ owner ttl, op ≠ .claimNext owner ttl)
    (hread : ∀ now j, ∃ a, (op.txn E.store now).run j = .ok (a, j) ∧ Q a ∧ R a (j.record c.executionId).steps) :
    E.Does k c (E.Knows c F) (call op) fun a x => Q a ∧ E.Knows c (fun b steps => F b steps ∧ R a steps) x := by
  have hno : ∀ c', op.writer? = some c' → False := fun c' hc' => by cases hw.symm.trans hc'
  have hne' : ∀ c s state output detail, op ≠ .resolveStep c s state output detail := by
    rintro c s state output detail rfl
    cases hw
  refine Discipline.triple_call stable_knows (fun x hx => ?_) fun x now hx _ hinv => ?_
  · exact ⟨fun c' hc' => (hno c' hc').elim, fun c' hc' => (hno c' hc').elim⟩
  · obtain ⟨a, hrun, hQ, hR⟩ := hread now x.scene.journal
    show Ends _ _ ((op.txn E.store now).commit x.scene.journal).1
    rw [Txn.commit_of_ok hrun]
    refine ⟨hQ, knows_after hx hne hinv fun _ hF => ?_⟩
    have hj : Call.exec E.store x.scene.journal ⟨op, now⟩ = x.scene.journal := Call.exec_of_run hrun
    have hsteps : ((E.discipline.after x now op).scene.record c.executionId).steps =
        (x.scene.record c.executionId).steps := congrArg (fun j => (Journal.record j c.executionId).steps) hj
    have hnotes : (E.discipline.after x now op).notes = x.notes := x.notes.note_of_ne hne hne' _
    rw [hsteps, hnotes]
    exact ⟨hF, hR⟩

/-- A write that rests on the claim alone. -/
theorem does_plain {op : Op V} (hop : ∀ c', op.writer? = some c' → c' = c) (hne : ∀ owner ttl, op ≠ .claimNext owner ttl)
    (hplain : ¬ op.Decided ∧ op.attempt? = none) : E.Does k c (E.Knows c F) (call op) fun _ => E.Works c :=
  does_call hop hne (fun _ _ h => absurd h (by simp [hplain])) fun _ _ _ _ _ _ _ => trivial

/-- The last call under the claim, and what is returned. -/
theorem does_ending {op : Op V} {a : op.Reply → α} (h : E.Does k c (E.Knows c F) (call op) fun _ => E.Works c) :
    E.Does k c (E.Knows c F) (do let r ← call op; return a r) fun _ => E.Works c :=
  .bind h fun _ => .pure fun _ hx => hx

/-- A request that is neither a call of the store, of a reconciler, nor of a step. -/
theorem does_await {q : Request V} {P : Station V (Notes V) → Prop} (hq : ∀ op, q ≠ .store op)
    (hstep : ∀ call, q ≠ .runStep call) (hreconcile : ∀ s v, q ≠ .reconcile s v)
    (hP : (E.discipline.world k).Stable P) (hworks : ∀ x, P x → E.Works c x) :
    E.Does k c P (await q) fun _ => P := by
  refine Discipline.triple_await hq hP (fun x _ => ?_) fun x a hx => ?_
  · cases q with
    | store op => exact absurd rfl (hq op)
    | runStep call => exact absurd rfl (hstep call)
    | reconcile s v => exact absurd rfl (hreconcile s v)
    | _ => trivial
  · have hnotes : E.discipline.note x.notes q a = x.notes := by
      cases q with
      | store op => exact absurd rfl (hq op)
      | _ => rfl
    rw [hnotes]
    cases a with
    | error e => exact hworks x hx
    | ok b => exact hx

/-- A value at hand. -/
theorem does_ofExcept {e : Except Exc α} {Post : α → Station V (Notes V) → Prop}
    (h : ∀ a, e = .ok a → ∀ x, E.Knows c F x → Post a x) : E.Does k c (E.Knows c F) (Proc.ofExcept e) Post :=
  .ofExcept h fun _ _ _ hx => hx.works

/-! ## What a worker reads -/

theorem does_stepStates :
    E.Does k c (E.Knows c F) (call (.stepStates c.executionId))
      fun states => E.Knows c fun b steps => F b steps ∧ states = statesOf steps :=
  (does_read (Q := fun _ => True) rfl (by simp) fun _ _ => ⟨_, rfl, trivial, rfl⟩).weaken (fun _ h => h)
    (fun _ _ h => h.2) fun _ _ h => h

theorem does_completedOutputs :
    E.Does k c (E.Knows c F) (call (.completedOutputs c.executionId))
      fun outputs => E.Knows c fun b steps => F b steps ∧ outputs = outputsOf E.store steps :=
  (does_read (Q := fun _ => True) rfl (by simp) fun _ _ => ⟨_, rfl, trivial, rfl⟩).weaken (fun _ h => h)
    (fun _ _ h => h.2) fun _ _ h => h

theorem does_runningSteps :
    E.Does k c (E.Knows c F) (call (.runningSteps c.executionId))
      fun (running : List String) x => running.Nodup ∧
        E.Knows c (fun b steps => F b steps ∧ ∀ s ∈ running, statesOf steps s = some .running) x :=
  does_read rfl (by simp) fun _ j => ⟨_, rfl, nodup_runningSteps j c.executionId, fun s hs => by
    obtain ⟨st, hst, hrun⟩ := mem_runningSteps.mp hs
    exact (congrArg (Option.map StepRow.state) hst).trans (congrArg some hrun)⟩

end Planned

end Xyberos.Durable
