import Xyberos.Durable.Attempts
import Xyberos.Durable.Conduct
import Xyberos.Durable.Fencing
import Xyberos.Durable.System
import Xyberos.Execution.Policies

/-!
# Xyberos.Durable.Repeat — no step is silently repeated

Take a step that declares neither idempotency nor a reconciler.  A worker starts it only after it saw, under its own
claim, that the step was not RUNNING, and nobody but the holder of that claim can make it RUNNING while the fence of
the claim is the one in the table; and no worker ever resolves it.  So neither of the two moves that
`Step.tracked` excludes occurs (`no_silent_repeat`).

The argument is made for each worker on its own: `surroundings` is what a worker relies on and what it promises, and
the triples of `run_once` and `recover` are proved in it.  `System.Sound` says that every session of a system behaves
so.
-/

set_option autoImplicit false

namespace Xyberos.Durable

open Proc (World Ends)

variable {V α β : Type}

namespace Record

/-! ## Fences -/

/-- The fence does not go down, and while it is `n`, no step becomes RUNNING. -/
structure Keeps (n : ℕ) (r r' : Record) : Prop where
  fence_le : r.fence ≤ r'.fence
  running : n ≤ r.fence → r'.fence = n → ∀ s, r'.Running s → r.Running s

section Fence

variable {store : JournalStore V} {n : ℕ} {r r' : Record} {c : Claim V} {now : Instant} {s s' : String}

theorem Keeps.refl (n : ℕ) (r : Record) : Keeps n r r := ⟨le_refl _, fun _ _ _ h => h⟩

theorem running_modifyStep {f : StepRow → StepRow} (hf : ∀ st, (f st).state ≠ .running)
    (h : (r.modifyStep s' f).Running s) : r.Running s := by
  obtain ⟨st, hst, hrun⟩ := h
  rw [modifyStep_steps] at hst
  split_ifs at hst
  · obtain ⟨st₀, -, rfl⟩ := Option.map_eq_some_iff.mp hst
    exact absurd hrun (hf st₀)
  · exact ⟨st, hst, hrun⟩

/-- An operation that starts or resolves a step is accepted under the fence in the table. -/
theorem Step.starter {id : String} {op : Op V} (h : Step store now id op r r') (hop : op.starter? = some c) :
    c.executionId = id ∧ r.fence = c.fence := by
  cases h with
  | startStep hc _ h =>
    cases hop
    exact ⟨hc, h.guard.fence_eq⟩
  | resolveStep hc h =>
    cases hop
    exact ⟨hc, h.guard.fence_eq⟩
  | _ => cases hop

/-- A step becomes RUNNING only by such an operation. -/
theorem Step.running {id : String} {op : Op V} (h : Step store now id op r r') (hr : r'.Running s) :
    r.Running s ∨ ∃ c, op.starter? = some c := by
  cases h with
  | submit =>
    obtain ⟨st, hst, hrun⟩ := hr
    refine .inl ⟨st, ?_, hrun⟩
    have hst' : (if s ∈ _ then some { state := .pending } else r.steps s) = some st := hst
    split_ifs at hst'
    · cases hst'
      cases hrun
    · exact hst'
  | startStep => exact .inr ⟨_, rfl⟩
  | resolveStep => exact .inr ⟨_, rfl⟩
  | completeStep => exact .inl (running_modifyStep (by simp) hr)
  | skipStep => exact .inl (running_modifyStep (by simp) hr)
  | failStep => exact .inl (running_modifyStep (by simp [failedAttempt]) hr)
  | retryStep => exact .inl (running_modifyStep (by simp [failedAttempt]) hr)
  | markUnknown => exact .inl (running_modifyStep (by simp) hr)
  | requestLive => exact .inl (by simpa [Running] using hr)
  | requestFinish => exact .inl (by simpa [Running, finish] using hr)
  | acknowledge => exact .inl (by simpa [Running] using hr)
  | _ => exact .inl hr

/-- Whoever does not act under the fence `n` keeps it. -/
theorem Step.keeps {id : String} {op : Op V} (h : Step store now id op r r')
    (hc : ∀ c, op.starter? = some c → c.executionId = id → c.fence ≠ n) : Keeps n r r' where
  fence_le := h.fence_le
  running hle hfence s hr := by
    rcases h.running hr with hr | ⟨c, hop⟩
    · exact hr
    · have := h.fence_le
      obtain ⟨hid, hcf⟩ := h.starter hop
      exact absurd (by omega) (hc c hop hid)

end Fence

end Record

theorem exec_keeps {store : JournalStore V} (j : Journal) (x : Call V) {id : String} {n : ℕ}
    (hc : ∀ c, x.op.starter? = some c → c.executionId = id → c.fence ≠ n) :
    (j.record id).Keeps n ((x.exec store j).record id) := by
  rcases x.exec_moves store j id with he | hs
  · rw [he]
    exact .refl n _
  · exact hs.keeps hc

/-! ## What a worker relies on -/

/-- The journal, and the claims a session was handed, by execution and fence. -/
structure Holding where
  journal : Journal
  held : Set (String × ℕ)

variable (f : Fleet V)

/-- The precautions of a worker: it starts and resolves under claims of its own; a step with the default policy it
starts only when it is not RUNNING, as long as the claim is good, and never resolves. -/
def Op.Careful (x : Holding) : Op V → Prop
  | startStep c s _ => (c.executionId, c.fence) ∈ x.held ∧
      (f.activities s = .undeclared → (x.journal.record c.executionId).fence = c.fence →
        ¬ (x.journal.record c.executionId).Running s)
  | resolveStep c s _ _ _ => (c.executionId, c.fence) ∈ x.held ∧ f.activities s ≠ .undeclared
  | _ => True

theorem careful_of_starter {f : Fleet V} {x : Holding} {op : Op V} (hop : op.starter? = none) : op.Careful f x := by
  cases op <;> trivial

/-- A session among the others: they keep its fences, it is careful, and it is handed claims of its own. -/
def surroundings : World (Request V) Request.Reply Exc Holding where
  interferes x y := y.held = x.held ∧ ∀ p ∈ x.held, (x.journal.record p.1).Keeps p.2 (y.journal.record p.1)
  allows
    | .store op, x => op.Careful f x
    | _, _ => True
  answers
    | .store op, x, a, y => ∃ now, a = ((op.txn f.store now).commit x.journal).1 ∧
        y = ⟨Call.exec f.store x.journal ⟨op, now⟩,
          { p | p ∈ x.held ∨ ∃ c, Call.issued f.store x.journal ⟨op, now⟩ = some c ∧ p = (c.executionId, c.fence) }⟩
    | _, x, _, y => y = x

/-- The session holds the claim; as long as the claim is good, the RUNNING steps with the default policy are in
`L`. -/
structure Covers (c : Claim V) (L : String → Prop) (x : Holding) : Prop where
  held : (c.executionId, c.fence) ∈ x.held
  fence_le : c.fence ≤ (x.journal.record c.executionId).fence
  running : (x.journal.record c.executionId).fence = c.fence →
    ∀ s, f.activities s = .undeclared → (x.journal.record c.executionId).Running s → L s

section Covers

variable {f} {c : Claim V} {L : String → Prop}

theorem Covers.mono {L' : String → Prop} {x : Holding} (h : Covers f c L x)
    (hL : ∀ s, f.activities s = .undeclared → L s → L' s) : Covers f c L' x :=
  ⟨h.held, h.fence_le, fun hf s hs hr => hL s hs (h.running hf s hs hr)⟩

theorem Covers.of_keeps {x y : Holding} (h : Covers f c L x) (held : (c.executionId, c.fence) ∈ y.held)
    (hle : (x.journal.record c.executionId).fence ≤ (y.journal.record c.executionId).fence)
    (hk : (y.journal.record c.executionId).fence = c.fence → ∀ s, f.activities s = .undeclared →
      (y.journal.record c.executionId).Running s → (x.journal.record c.executionId).Running s) :
    Covers f c L y where
  held := held
  fence_le := h.fence_le.trans hle
  running hf s hs hr := by
    have := h.fence_le
    exact h.running (by omega) s hs (hk hf s hs hr)

theorem stable_covers : (surroundings f).Stable (Covers f c L) := by
  rintro x y ⟨hheld, hkeeps⟩ h
  have hk := hkeeps _ h.held
  exact h.of_keeps (hheld ▸ h.held) hk.fence_le fun hf s _ hr => hk.running h.fence_le hf s hr

theorem stable_true : (surroundings f).Stable fun _ => True := fun _ _ _ _ => trivial

end Covers

/-! ## What a worker does -/

section Triples

variable {f} {c : Claim V} {L : String → Prop} {P : Holding → Prop}

/-- Every exception is allowed. -/
abbrev Behaves (f : Fleet V) (P : Holding → Prop) (p : Coroutine V α) (Post : α → Holding → Prop) : Prop :=
  (surroundings f).Triple P p Post fun _ _ => True

theorem behaves_call {op : Op V} {Post : op.Reply → Holding → Prop} (hP : (surroundings f).Stable P)
    (hcareful : ∀ x, P x → op.Careful f x)
    (hpost : ∀ x now a held, P x → ((op.txn f.store now).commit x.journal).1 = .ok a →
      held = { p | p ∈ x.held ∨ ∃ c, Call.issued f.store x.journal ⟨op, now⟩ = some c ∧ p = (c.executionId, c.fence) } →
      Post a ⟨Call.exec f.store x.journal ⟨op, now⟩, held⟩) :
    Behaves f P (call op) Post := by
  refine .request hP fun x hx => ⟨hcareful x hx, ?_⟩
  rintro a y ⟨now, ha, rfl⟩
  cases a with
  | error e => trivial
  | ok a => exact hpost x now a _ hx ha.symm rfl

/-- What a session holds does not get less. -/
theorem behaves_await {q : Request V} (hq : ∀ op, q ≠ .store op) (hP : (surroundings f).Stable P) :
    Behaves f P (await q) fun _ => P := by
  refine .request hP fun x hx => ?_
  cases q with
  | store op => exact absurd rfl (hq op)
  | _ =>
    refine ⟨trivial, ?_⟩
    rintro a y rfl
    cases a with
    | error e => trivial
    | ok a => exact hx

theorem behaves_claimNext {owner : String} {ttl : Option Duration} :
    Behaves f (fun _ => True) (call (.claimNext owner ttl))
      fun claim? x => ∀ c, claim? = some c → Covers f c (fun _ => True) x := by
  refine behaves_call stable_true (fun _ _ => trivial) fun x now a held _ ha hheld c hc => ?_
  subst hc
  have hissued : Call.issued f.store x.journal ⟨.claimNext owner ttl, now⟩ = some c := by
    have ha' : ((f.store.claimNext owner ttl now).commit x.journal).1 = .ok (some c) := ha
    simp only [Call.issued, ha']
  obtain ⟨-, -, -, -, l, hl, -, hfence⟩ := issued_spec hissued
  refine ⟨by rw [hheld]; exact .inr ⟨c, hissued, rfl⟩, ?_, fun _ _ _ _ => trivial⟩
  have hrecord : ((Call.exec f.store x.journal ⟨.claimNext owner ttl, now⟩).record c.executionId).lease = some l := hl
  rw [Record.fence, hrecord]
  exact hfence.ge

theorem Record.Step.running_of_resolve {store : JournalStore V} {now : Instant} {id s s' : String}
    {state : StepState} {output : V} {detail : Option String} {r r' : Record}
    (h : Record.Step store now id (.resolveStep c s' state output detail) r r') (hne : s ≠ s')
    (hr : r'.Running s) : r.Running s := by
  cases h with
  | resolveStep => simpa [Record.Running, hne] using hr

/-- An operation other than the start of a step leaves the RUNNING steps with the default policy as they are. -/
theorem behaves_covers {op : Op V} (hop : ∀ c s key, op ≠ .startStep c s key)
    (hcareful : ∀ x, Covers f c L x → op.Careful f x) :
    Behaves f (Covers f c L) (call op) fun _ => Covers f c L := by
  refine behaves_call stable_covers hcareful fun x now a held hx _ hheld => ?_
  have hmem : (c.executionId, c.fence) ∈ held := by
    rw [hheld]
    exact .inl hx.held
  rcases Call.exec_moves f.store x.journal ⟨op, now⟩ c.executionId with he | hs
  · exact hx.of_keeps hmem (by rw [he]) fun _ s _ hr => he ▸ hr
  · refine hx.of_keeps hmem hs.fence_le fun _ s hs' hr => ?_
    have hcare := hcareful x hx
    rcases hs.running hr with hr | ⟨c', hstarter⟩
    · exact hr
    · cases op <;> cases hstarter
      · exact absurd rfl (hop _ _ _)
      · exact hs.running_of_resolve (fun he => hcare.2 (he ▸ hs')) hr

theorem behaves_runningSteps :
    Behaves f (Covers f c fun _ => True) (call (.runningSteps c.executionId))
      fun (running : List String) => Covers f c (· ∈ running) := by
  refine behaves_call stable_covers (fun _ _ => trivial) fun x now a held hx ha hheld => ?_
  cases ha
  refine ⟨by rw [hheld]; exact .inl hx.held, hx.fence_le, fun _ s _ hr => ?_⟩
  obtain ⟨st, hst, hrun⟩ := hr
  exact List.mem_map.mpr ⟨((c.executionId, s), st), Table.mem_select.mpr ⟨hst, rfl, hrun⟩, rfl⟩

/-- A coroutine that starts and resolves no step. -/
theorem behaves_of_mild {p : Coroutine V α} (h : p.Only Request.Mild) : Behaves f P p fun _ _ => True := by
  refine (World.Triple.of_only h stable_true fun q x hq _ => ⟨?_, fun _ _ _ => trivial⟩).pre fun _ _ => trivial
  cases q with
  | store op => exact careful_of_starter hq
  | _ => trivial

theorem behaves_mildCall {op : Op V} (hop : op.starter? = none) : Behaves f P (call op) fun _ _ => True :=
  behaves_of_mild (Proc.only_request hop : (call op).Only Request.Mild)

/-- The operations a worker ends with. -/
theorem behaves_ending {op : Op V} {a : op.Reply → α} (hop : op.starter? = none) :
    Behaves f P (do let r ← call op; return a r) fun _ _ => True :=
  .bind (behaves_mildCall hop) fun _ => .pure fun _ _ => trivial

variable {w : DurableWorker V}

/-- The one place where a step is started. -/
theorem behaves_runStep {workflow : Workflow V} {stepId : String} {value : V} :
    Behaves f (Covers f c fun _ => False) (w.runStep c workflow stepId value) fun _ _ => True :=
  .bind (.ofExcept (fun _ _ _ hx => hx) fun _ _ _ _ => trivial) fun _ =>
    .bind (behaves_call stable_covers (fun _ hx => ⟨hx.held, fun hs hf hr => hx.running hf _ hs hr⟩)
      fun _ _ _ _ _ _ _ => trivial) fun _ =>
    behaves_of_mild (P := fun _ => True) (only_startedStep.mono fun _ h => h.2)

/-! ### Interrupted attempts -/

/-- An attempt of a step with the default policy ends up in an unknown outcome. -/
theorem behaves_resolveInterruptedAttempt {stepId : String} {input : V} :
    Behaves f (Covers f c L) (resolveInterruptedAttempt f.store c f.activities stepId input)
      fun state x => Covers f c L x ∧ (state ≠ .outcomeUnknown → f.activities stepId ≠ .undeclared) := by
  unfold resolveInterruptedAttempt
  split
  case h_1 hp =>
    have hdeclared : f.activities stepId ≠ .undeclared := by simp [hp]
    exact .bind (behaves_covers (by simp) fun x hx => ⟨hx.held, hdeclared⟩) fun _ =>
      .pure fun x hx => ⟨hx, fun _ => hdeclared⟩
  case h_2 hp =>
    have hdeclared : f.activities stepId ≠ .undeclared := by simp [hp]
    refine .bind (behaves_await (by simp) stable_covers) fun reconciled => ?_
    split
    · exact .raise fun _ _ => trivial
    · split_ifs
      · exact .bind (behaves_covers (by simp) fun x hx => trivial) fun _ => .pure fun x hx => ⟨hx, fun _ => hdeclared⟩
      · exact .bind (behaves_covers (by simp) fun x hx => ⟨hx.held, hdeclared⟩) fun _ =>
          .pure fun x hx => ⟨hx, fun _ => hdeclared⟩
  case h_3 =>
    exact .bind (behaves_covers (by simp) fun x hx => trivial) fun _ =>
      .pure fun x hx => ⟨hx, fun hne => absurd rfl hne⟩

/-- If no outcome is unknown, none of the steps has the default policy. -/
theorem behaves_resolveInterrupted {plan : Plan V} {interrupted : List String} :
    Behaves f (Covers f c L) (resolveInterrupted f.store c f.activities plan interrupted)
      fun states x => Covers f c L x ∧
        (.outcomeUnknown ∉ states → ∀ s ∈ interrupted, f.activities s ≠ .undeclared) := by
  induction interrupted with
  | nil => exact .pure fun x hx => ⟨hx, by simp⟩
  | cons stepId rest ih =>
    have hrest : ∀ state : StepState,
        Behaves f (fun x => Covers f c L x ∧ (state ≠ .outcomeUnknown → f.activities stepId ≠ .undeclared))
          (resolveInterrupted f.store c f.activities plan rest) fun states x => Covers f c L x ∧
            (state ≠ .outcomeUnknown → f.activities stepId ≠ .undeclared) ∧
            (.outcomeUnknown ∉ states → ∀ s ∈ rest, f.activities s ≠ .undeclared) :=
      fun state x hx => (ih.weaken (fun _ h => h) (fun _ _ h => ⟨h.1, hx.2, h.2⟩) fun _ _ h => h) x hx.1
    refine .bind behaves_resolveInterruptedAttempt fun state => (hrest state).bind fun states => .pure ?_
    rintro x ⟨hx, hstep, hrest⟩
    refine ⟨hx, fun hn s hs => ?_⟩
    rw [List.mem_cons, not_or] at hn
    rcases List.mem_cons.mp hs with rfl | hs
    · exact hstep (Ne.symm hn.1)
    · exact hrest hn.2 s hs

/-! ### `run_once` and `recover` -/

theorem behaves_advance {workflow : Workflow V} {outputs : String → Option V} {n : ℕ}
    {states : String → Option StepState} :
    Behaves f (Covers f c fun _ => False) (w.advance c workflow outputs n states) fun _ _ => True := by
  induction n generalizing states with
  | zero => exact .raise fun _ _ => trivial
  | succ n ih =>
    refine .bind (.ofExcept (fun _ _ _ hx => hx) fun _ _ _ _ => trivial) fun plan => ?_
    cases plan with
    | runStep step value sources => exact behaves_runStep
    | skipStep step reason => exact .bind (behaves_covers (by simp) fun _ _ => trivial) fun _ => ih
    | complete outputs reason => exact behaves_ending rfl
    | conflict step sources reason => exact behaves_ending rfl
    | needsDecision step reason => exact behaves_ending rfl

theorem behaves_resumeWork {i : ℕ} {workflow : Workflow V} :
    Behaves f (Covers f c fun _ => True) ((f.worker i).resumeWork c workflow) fun _ _ => True := by
  refine .bind (behaves_covers (by simp) fun _ _ => trivial) fun states =>
    .bind (behaves_covers (by simp) fun _ _ => trivial) fun outputs => .bind behaves_runningSteps fun interrupted => ?_
  split_ifs with hnone
  · exact behaves_advance.pre fun x hx => hx.mono fun s _ hs => by simp [hnone] at hs
  · refine .bind (.ofExcept (fun _ _ _ hx => hx) fun _ _ _ _ => trivial) fun plan =>
      .bind behaves_resolveInterrupted fun outcomes => ?_
    split_ifs with hunknown
    · exact .pure fun _ _ => trivial
    · refine .pre (.bind (behaves_covers (by simp) fun _ _ => trivial) fun states => behaves_advance) fun x hx => ?_
      exact hx.1.mono fun s hs hmem => hx.2 hunknown s hmem hs

theorem behaves_deadlinePassed : Behaves f (Covers f c L) (DurableWorker.deadlinePassed c) fun _ => Covers f c L := by
  unfold DurableWorker.deadlinePassed
  split
  · exact .pure fun _ hx => hx
  · exact .bind (behaves_await (by simp) stable_covers) fun _ => .pure fun _ hx => hx

theorem behaves_work {i : ℕ} : Behaves f (Covers f c fun _ => True) ((f.worker i).work c) fun _ _ => True := by
  unfold DurableWorker.work
  split_ifs
  · exact behaves_ending rfl
  · split
    · exact behaves_ending rfl
    · refine .bind behaves_deadlinePassed fun passed => ?_
      split_ifs
      · exact behaves_ending rfl
      · exact behaves_resumeWork

/-- **`run_once` is careful.** -/
theorem behaves_runOnce (f : Fleet V) (i : ℕ) :
    Behaves f (fun _ => True) (f.worker i).runOnce fun _ _ => True := by
  refine .bind behaves_claimNext fun claim? => ?_
  cases claim? with
  | none => exact .pure fun _ _ => trivial
  | some c => exact .bind (behaves_work.pre fun x hx => hx c rfl) fun _ => .pure fun _ _ => trivial

theorem behaves_recoverOne :
    Behaves f (Covers f c fun _ => True) (recoverOne f.store c f.activities f.definitions) fun _ _ => True := by
  unfold recoverOne
  split_ifs
  · exact behaves_ending rfl
  · refine .bind behaves_runningSteps fun running => ?_
    split_ifs
    · exact behaves_ending rfl
    · refine .bind (.ofExcept (fun _ _ _ hx => hx) fun _ _ _ _ => trivial) fun workflow =>
        .bind (behaves_covers (by simp) fun _ _ => trivial) fun states =>
        .bind (behaves_covers (by simp) fun _ _ => trivial) fun outputs =>
        .bind (.ofExcept (fun _ _ _ hx => hx) fun _ _ _ _ => trivial) fun plan =>
        .bind behaves_resolveInterrupted fun resolved => .pure fun _ _ => trivial

theorem behaves_recoverEach {owner : String} {ttl : Option Duration} {expired : List String}
    {report : RecoveryReport} :
    Behaves f (fun _ => True) (recoverEach f.store f.definitions f.activities owner ttl expired report)
      fun _ _ => True := by
  induction expired generalizing report with
  | nil => exact .pure fun _ _ => trivial
  | cons executionId rest ih =>
    refine .bind behaves_claimNext fun claim? => ?_
    cases claim? with
    | none => exact .pure fun _ _ => trivial
    | some c =>
      dsimp only
      split_ifs
      · exact .pure fun _ _ => trivial
      · refine .bind (behaves_recoverOne.pre fun x hx => hx c rfl).attempt fun decided => ?_
        cases decided with
        | ok decision => exact ih.pre fun _ _ => trivial
        | error error =>
          dsimp only
          split_ifs
          · exact .bind (behaves_mildCall rfl) fun _ => ih
          · exact .raise fun _ _ => trivial

/-- **`recover` is careful.** -/
theorem behaves_recover (f : Fleet V) (i : ℕ) :
    Behaves f (fun _ => True) (f.worker i).recover fun _ _ => True :=
  .bind (behaves_mildCall rfl) fun _ => behaves_recoverEach

end Triples

/-! ## A careful call -/

section Careful

variable {f} {x : Holding} {y : Call V}

/-- A careful call keeps the fences of everybody else. -/
theorem careful_keeps (h : y.op.Careful f x) {p : String × ℕ} (hp : p ∉ x.held) :
    (x.journal.record p.1).Keeps p.2 ((y.exec f.store x.journal).record p.1) := by
  refine exec_keeps x.journal y fun c hop hid hfence => hp ?_
  have hmem : (c.executionId, c.fence) ∈ x.held := by
    obtain ⟨op, now⟩ := y
    cases op <;> cases hop
    · exact h.1
    · exact h.1
  rwa [hid, hfence] at hmem

/-- A careful call makes neither of the two moves that lose track of an attempt. -/
theorem careful_tracked (h : y.op.Careful f x) {id s : String} (hs : f.activities s = .undeclared)
    (ht : (x.journal.record id).Tracked s) : ((y.exec f.store x.journal).record id).Tracked s := by
  rcases y.exec_moves f.store x.journal id with he | hstep
  · rw [he]
    exact ht
  · refine hstep.tracked (fun hrestart => ?_) ht
    obtain ⟨op, now⟩ := y
    cases op <;> try exact hrestart
    case startStep c s' key =>
      obtain ⟨rfl, hrun⟩ := hrestart
      obtain ⟨rfl, hfence⟩ := hstep.starter rfl
      exact h.2 hs hfence hrun
    case resolveStep c s' state output detail =>
      obtain rfl : s' = s := hrestart
      exact h.2 hs

end Careful

/-! ## The system -/

/-- Every session is careful with the claims it was handed, no claim was handed out twice, and the journal keeps track
of the attempts of every step with the default policy. -/
structure System.Sound (f : Fleet V) (held : ℕ → Set (String × ℕ)) (s : System V) : Prop where
  disjoint : ∀ i i' p, p ∈ held i → p ∈ held i' → i = i'
  issued : ∀ i p, p ∈ held i → p.2 ≤ (s.journal.record p.1).fence
  careful : ∀ i, (s.sessions i).main.wp (surroundings f) (fun _ _ => True) ⟨s.journal, held i⟩
  tracked : ∀ id step, f.activities step = .undeclared → (s.journal.record id).Tracked step

namespace System

variable {f} {held : ℕ → Set (String × ℕ)} {s : System V}

/-- A turn that does not touch the journal. -/
theorem Sound.goOn (h : s.Sound f held) {s' : System V} (hj : s'.journal = s.journal)
    (hmain : ∀ i, (s'.sessions i).main.wp (surroundings f) (fun _ _ => True) ⟨s.journal, held i⟩) :
    s'.Sound f held :=
  ⟨h.disjoint, fun i p hp => hj ▸ h.issued i p hp, fun i => hj ▸ hmain i, fun id step hs => hj ▸ h.tracked id step hs⟩

theorem Sound.begin (h : s.Sound f held) (i : ℕ) {p : Coroutine V α}
    (hp : Behaves f (fun _ => True) p fun _ _ => True) :
    (s.setSession i { main := p.discard }).Sound f held := by
  refine h.goOn rfl fun i' => ?_
  by_cases he : i' = i
  · subst he
    have hd : Behaves f (fun _ => True) p.discard fun _ _ => True := hp.bind fun _ => .ret fun _ _ => trivial
    rw [setSession_self]
    exact Proc.wp_mono (hd _ trivial) fun _ _ _ => trivial
  · rw [setSession_of_ne _ he]
    exact h.careful i'

/-- A call that starts and resolves no step concerns nobody. -/
theorem Sound.call (h : s.Sound f held) (y : Call V) (hop : y.op.starter? = none) {s' : System V}
    (hj : s'.journal = y.exec f.store s.journal) (hs : ∀ i, (s'.sessions i).main = (s.sessions i).main) :
    s'.Sound f held where
  disjoint := h.disjoint
  issued i p hp := hj ▸ (h.issued i p hp).trans (exec_fence_le f.store s.journal y p.1)
  careful i := by
    rw [hs, hj]
    refine Proc.wp_of_interferes (fun _ _ h => h) (h.careful i) ⟨rfl, fun p _ => ?_⟩
    exact exec_keeps s.journal y fun c hc => by simp [hop] at hc
  tracked id step hstep :=
    hj ▸ careful_tracked (careful_of_starter hop : y.op.Careful f ⟨s.journal, ∅⟩) hstep (h.tracked id step hstep)

theorem Sound.heartbeatTurn (h : s.Sound f held) (i : ℕ) (now : Instant) :
    (s.exec f (.heartbeat i now)).Sound f held := by
  have hmain : ∀ i', ((s.exec f (.heartbeat i now)).sessions i').main = (s.sessions i').main := by
    intro i'
    by_cases he : i' = i
    · subst he
      show ((s.setSession i' _).sessions i').main = _
      rw [setSession_self, Session.heartbeatTurn_main]
    · show ((s.setSession i _).sessions i').main = _
      rw [setSession_of_ne _ he]
  rcases (s.sessions i).heartbeatTurn_journal f.store (f.worker i).leaseTtl now s.journal with
    hj | ⟨hb, op, -, hop, hj⟩
  · have hj' : (s.exec f (.heartbeat i now)).journal = s.journal := hj
    refine h.goOn hj' fun i' => ?_
    rw [hmain]
    exact h.careful i'
  · refine h.call ⟨op, now⟩ ?_ hj hmain
    unfold Heartbeat.op? at hop
    split at hop <;> cases hop <;> rfl

/-- The claims of worker `i` after a call: a claim it is handed is added. -/
def handed (store : JournalStore V) (j : Journal) (held : ℕ → Set (String × ℕ)) (i : ℕ) (y : Call V) :
    ℕ → Set (String × ℕ) :=
  Function.update held i
    { p | p ∈ held i ∨ ∃ c, y.issued store j = some c ∧ p = (c.executionId, c.fence) }

/-- A careful call of worker `i`, and the coroutine it goes on with. -/
theorem Sound.mainCall (h : s.Sound f held) (i : ℕ) (y : Call V) {s' : System V}
    (hcareful : y.op.Careful f ⟨s.journal, held i⟩) (hj : s'.journal = y.exec f.store s.journal)
    (hothers : ∀ i' ≠ i, s'.sessions i' = s.sessions i')
    (hmain : (s'.sessions i).main.wp (surroundings f) (fun _ _ => True)
      ⟨y.exec f.store s.journal, handed f.store s.journal held i y i⟩) :
    s'.Sound f (handed f.store s.journal held i y) := by
  -- a claim that is handed out has a fence nobody holds
  have hnew : ∀ c, y.issued f.store s.journal = some c →
      c.fence = (s.journal.record c.executionId).fence + 1 ∧
      c.fence ≤ ((y.exec f.store s.journal).record c.executionId).fence := by
    intro c hc
    obtain ⟨-, -, -, hfence, l, hl, -, hlf⟩ := issued_spec hc
    have hlease : ((y.exec f.store s.journal).record c.executionId).lease = some l := hl
    exact ⟨hfence, by rw [Record.fence, hlease]; exact hlf.ge⟩
  have hcases : ∀ i' p, p ∈ handed f.store s.journal held i y i' →
      p ∈ held i' ∨ i' = i ∧ ∃ c, y.issued f.store s.journal = some c ∧ p = (c.executionId, c.fence) := by
    intro i' p hp
    by_cases he : i' = i
    · subst he
      rw [handed, Function.update_self] at hp
      exact hp.imp_right fun hc => ⟨rfl, hc⟩
    · rw [handed, Function.update_of_ne he] at hp
      exact .inl hp
  constructor
  · intro i₁ i₂ p hp₁ hp₂
    rcases hcases i₁ p hp₁ with h₁ | ⟨rfl, c₁, hc₁, rfl⟩
    · rcases hcases i₂ p hp₂ with h₂ | ⟨rfl, c₂, hc₂, rfl⟩
      · exact h.disjoint i₁ i₂ p h₁ h₂
      · have hle : c₂.fence ≤ (s.journal.record c₂.executionId).fence := h.issued i₁ (c₂.executionId, c₂.fence) h₁
        have heq := (hnew c₂ hc₂).1
        omega
    · rcases hcases i₂ _ hp₂ with h₂ | ⟨rfl, -⟩
      · have hle : c₁.fence ≤ (s.journal.record c₁.executionId).fence := h.issued i₂ (c₁.executionId, c₁.fence) h₂
        have heq := (hnew c₁ hc₁).1
        omega
      · rfl
  · intro i' p hp
    rw [hj]
    rcases hcases i' p hp with hp | ⟨-, c, hc, rfl⟩
    · exact (h.issued i' p hp).trans (exec_fence_le f.store s.journal y p.1)
    · exact (hnew c hc).2
  · intro i'
    by_cases he : i' = i
    · subst he
      rw [hj]
      exact hmain
    · rw [hothers i' he, hj, handed, Function.update_of_ne he]
      refine Proc.wp_of_interferes (fun _ _ h => h) (h.careful i') ⟨rfl, fun p hp => ?_⟩
      exact careful_keeps hcareful fun hp' => he (h.disjoint i' i p hp hp')
  · intro id step hs
    rw [hj]
    exact careful_tracked hcareful hs (h.tracked id step hs)

theorem Sound.mainTurn (h : s.Sound f held) (i : ℕ) (now : Instant) (env : Env V) :
    ∃ held', (s.exec f (.main i now env)).Sound f held' := by
  have hothers : ∀ i' ≠ i, (s.exec f (.main i now env)).sessions i' = s.sessions i' :=
    fun i' he => setSession_of_ne _ he _
  have hself : (s.exec f (.main i now env)).sessions i =
      ((s.sessions i).mainTurn f.store now env s.journal).2 := setSession_self ..
  have hj : (s.exec f (.main i now env)).journal = ((s.sessions i).mainTurn f.store now env s.journal).1 := rfl
  have hwp := h.careful i
  -- a turn that leaves the journal as it is
  have quiet : ((s.sessions i).mainTurn f.store now env s.journal).1 = s.journal →
      ((s.sessions i).mainTurn f.store now env s.journal).2.main.wp (surroundings f) (fun _ _ => True)
        ⟨s.journal, held i⟩ → (s.exec f (.main i now env)).Sound f held := by
    intro hj' hmain
    refine h.goOn (hj.trans hj') fun i' => ?_
    by_cases he : i' = i
    · subst he
      rw [hself]
      exact hmain
    · rw [hothers i' he]
      exact h.careful i'
  unfold Session.mainTurn at hself hj quiet
  cases hm : (s.sessions i).main with
  | ret a =>
    rw [hm] at quiet
    exact ⟨held, quiet rfl hwp⟩
  | raise e =>
    rw [hm] at quiet
    exact ⟨held, quiet rfl hwp⟩
  | ask q k =>
    rw [hm] at hself hj hwp quiet
    obtain ⟨hallows, hanswers⟩ := Proc.wp_turn hwp
    cases q with
    | store op =>
      refine ⟨_, h.mainCall i ⟨op, now⟩ hallows hj hothers ?_⟩
      rw [hself, handed, Function.update_self]
      exact hanswers _ _ ⟨now, rfl, rfl⟩
    | _ => exact ⟨held, quiet rfl (hanswers _ _ rfl)⟩

theorem sound_exec (h : ∃ held, s.Sound f held) (a : Action V) : ∃ held, (s.exec f a).Sound f held := by
  obtain ⟨held, h⟩ := h
  cases a with
  | runOnce i => exact ⟨held, h.begin i (behaves_runOnce f i)⟩
  | recover i => exact ⟨held, h.begin i (behaves_recover f i)⟩
  | main i now env => exact h.mainTurn i now env
  | heartbeat i now => exact ⟨held, h.heartbeatTurn i now⟩
  | crash i => exact ⟨held, h.begin i (.ret fun _ _ => trivial : Behaves f _ (.ret ()) _)⟩
  | operate c now => exact ⟨held, h.call ⟨c.op, now⟩ (by cases c <;> rfl) rfl fun _ => rfl⟩

/-- Nothing was handed out yet. -/
theorem sound_empty (f : Fleet V) : System.Sound f (fun _ => ∅) {} where
  disjoint _ _ _ h := h.elim
  issued _ _ h := h.elim
  careful _ := trivial
  tracked _ _ _ := Record.tracked_absent _

end System

/-- **No silent repetition.**  In every history of workers that share their definitions and activities, of operators,
and of crashes, between any two starts of a step with the default policy, the failure of the earlier attempt is
recorded with a scheduled retry. -/
theorem no_silent_repeat (f : Fleet V) (l : List (Action V)) (id step : String)
    (hstep : f.activities step = .undeclared) :
    NoSilentRepeat step ((runActions f l).journal.record id).events := by
  obtain ⟨held, h⟩ : ∃ held, (runActions f l).Sound f held :=
    after_invariant (I := fun s : System V => ∃ held, s.Sound f held) ⟨_, System.sound_empty f⟩
      fun s a h => System.sound_exec h a
  exact (h.tracked id step hstep).noSilentRepeat

/-- One step that may be tried twice, with no delay. -/
def twoAttempts : Workflow String where
  name := "w"
  steps := [{
    id := "a"
    retry := some ⟨2, ["TransientError"],
      ⟨0, 1, 0, 0, Backoff.default.jitter_nonneg, le_refl _, Backoff.default.jitter_nonneg,
        Backoff.default.jitter_nonneg, Backoff.default.jitter_le_one⟩,
      by decide, by decide⟩ }]

/-- Workers that have `twoAttempts` and declare nothing about its step. -/
def plainFleet : Fleet String where
  store := textStore
  definitions _ _ := some twoAttempts
  activities _ := .undeclared
  owner _ := "o"

/-- A step that fails with a transient error. -/
def transientFailure : Env String where
  draw := 0
  outcome := .error ⟨⟨"TransientError", ["XyberosError", "Exception", "BaseException"]⟩, "busy"⟩
  reconciled := .ok (.other "NoneType")

/-- `"e"` is submitted; its step fails, is scheduled again, and is started again. -/
def retriedOnce : List (Action String) :=
  [.operate (.submit twoAttempts "null" none "e" none) 0, .runOnce 0] ++
    List.replicate 11 (.main 0 1 transientFailure) ++ [.runOnce 0] ++ List.replicate 5 (.main 0 2 transientFailure)

theorem no_silent_repeat_retried :
    (((runActions plainFleet retriedOnce).journal.record "e").events.filter fun e => e.Starts "a").length = 2 ∧
    NoSilentRepeat "a" ((runActions plainFleet retriedOnce).journal.record "e").events :=
  ⟨by decide +kernel, no_silent_repeat plainFleet retriedOnce "e" "a" rfl⟩

end Xyberos.Durable
