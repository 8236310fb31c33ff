import Xyberos.Durable.Evolution

/-!
# Xyberos.Durable.Executions — the journal as a family of independent machines

A run of the journal, whoever makes its calls and however they are interleaved, is for every execution a path of its
own state machine (`executions_refined`), whose labels are the calls that concern it.  Along a path nothing of the
history is lost (`history_kept`): events are appended, attempts are counted up, what was submitted stays, and so does
the first cancellation request.
-/

set_option autoImplicit false

namespace Xyberos.Durable

variable {V : Type} {store : JournalStore V}

/-- The execution an operation names; `claim_next` and `expire_deadlines` find theirs. -/
def Op.target? : Op V → Option String
  | .submit _ _ _ id _ => some id
  | .requestCancellation id _ => some id
  | .resumeWaiting id _ => some id
  | op => op.claim?.map Claim.executionId

/-- The machine of one execution, labelled by calls. -/
def Record.Moved (store : JournalStore V) (id : String) (x : Call V) : Record → Record → Prop :=
  Record.Step store x.now id x.op

/-- What a step writes is about the execution the operation names. -/
theorem Record.Step.target {now : Instant} {id : String} {op : Op V} {r r' : Record}
    (h : Record.Step store now id op r r') : ∀ id' ∈ op.target?, id' = id := by
  cases h <;> simp_all [Op.target?, Op.claim?]

/-- What the history of an execution keeps. -/
structure Record.Extends (r r' : Record) : Prop extends Record.Grows r r' where
  events : r.events <+: r'.events
  attempts : ∀ s st, r.steps s = some st → ∃ st', r'.steps s = some st' ∧ st.attempts ≤ st'.attempts
  counted : ∀ row row', r.row = some row → r'.row = some row' → row.attempts ≤ row'.attempts
  requested : ∀ row row', r.row = some row → r'.row = some row' → row.cancellationRequestedAt ≠ none →
    row'.cancellationRequestedAt = row.cancellationRequestedAt ∧ row'.cancellationReason = row.cancellationReason

namespace Record

section Extends

variable {now : Instant} {id : String} {op : Op V} {r r' r'' : Record}

theorem Extends.refl (r : Record) : Extends r r where
  toGrows := .refl r
  events := List.prefix_rfl
  attempts _ st hst := ⟨st, hst, le_refl _⟩
  counted _ _ hrow hrow' := by
    cases hrow.symm.trans hrow'
    exact le_refl _
  requested _ _ hrow hrow' _ := by
    cases hrow.symm.trans hrow'
    exact ⟨rfl, rfl⟩

theorem Extends.trans (h : Extends r r') (h' : Extends r' r'') : Extends r r'' where
  toGrows := h.toGrows.trans h'.toGrows
  events := h.events.trans h'.events
  attempts s st hst := by
    obtain ⟨st', hst', hle⟩ := h.attempts s st hst
    obtain ⟨st'', hst'', hle'⟩ := h'.attempts s st' hst'
    exact ⟨st'', hst'', hle.trans hle'⟩
  counted row row'' hrow hrow'' := by
    obtain ⟨row', hrow', -⟩ := h.row row hrow
    exact (h.counted row row' hrow hrow').trans (h'.counted row' row'' hrow' hrow'')
  requested row row'' hrow hrow'' hreq := by
    obtain ⟨row', hrow', -⟩ := h.row row hrow
    obtain ⟨hat, hreason⟩ := h.requested row row' hrow hrow' hreq
    obtain ⟨hat', hreason'⟩ := h'.requested row' row'' hrow' hrow'' (hat ▸ hreq)
    exact ⟨hat'.trans hat, hreason'.trans hreason⟩

theorem recordRequest_events {reason : Option String} {row : ExecutionRow} :
    r.events <+: (recordRequest id now reason r row).events := by
  unfold recordRequest
  split_ifs
  · exact List.prefix_append ..
  · exact List.prefix_rfl

theorem recordOwnRequest_events {reason : Option String} {row : ExecutionRow} :
    r.events <+: (recordOwnRequest id now reason r row).events := by
  unfold recordOwnRequest
  split_ifs
  · exact List.prefix_append ..
  · exact List.prefix_rfl

/-- Events are appended, one or two at a time. -/
theorem Step.events_appended (h : Step store now id op r r') : r.events <+: r'.events := by
  have twice : ∀ e e' : EventRow, r.events <+: r.events ++ [e] ++ [e'] := fun e e' =>
    (List.prefix_append _ [e]).trans (List.prefix_append _ [e'])
  cases h with
  | release => exact List.prefix_rfl
  | failStep => exact twice _ _
  | retryStep => exact twice _ _
  | markUnknown => exact twice _ _
  | requestLive => exact recordRequest_events
  | requestFinish => exact recordRequest_events.trans (List.prefix_append _ _)
  | acknowledge => exact recordOwnRequest_events.trans (List.prefix_append _ _)
  | _ => exact List.prefix_append _ _

/-- A step is attempted once more, or as often as before. -/
theorem Step.attempts_le (h : Step store now id op r r') {s : String} {st : StepRow} (hst : r.steps s = some st) :
    ∃ st', r'.steps s = some st' ∧ st.attempts ≤ st'.attempts := by
  have unwritten : r'.steps = r.steps → ∃ st', r'.steps s = some st' ∧ st.attempts ≤ st'.attempts :=
    fun he => ⟨st, he ▸ hst, le_refl _⟩
  have written : ∀ {s' : String} {f : StepRow → StepRow}, r'.steps = (r.modifyStep s' f).steps →
      (∀ st, r.steps s' = some st → st.attempts ≤ (f st).attempts) →
      ∃ st', r'.steps s = some st' ∧ st.attempts ≤ st'.attempts := by
    intro s' f hsteps hf
    rw [hsteps, modifyStep_steps]
    split_ifs with he
    · subst he
      exact ⟨f st, by rw [hst, Option.map_some], hf st hst⟩
    · exact ⟨st, hst, le_refl _⟩
  cases h with
  | submit absent fresh =>
    refine ⟨st, (if_neg fun hmem => ?_).trans hst, le_refl _⟩
    cases (fresh s hmem).symm.trans hst
  | startStep _ _ h =>
    refine written rfl fun st' hst' => ?_
    cases h.step_eq.symm.trans hst'
    exact Nat.le_succ _
  | completeStep => exact written rfl fun _ _ => le_refl _
  | skipStep => exact written rfl fun _ _ => le_refl _
  | failStep => exact written rfl fun _ _ => le_refl _
  | retryStep => exact written rfl fun _ _ => le_refl _
  | markUnknown => exact written rfl fun _ _ => le_refl _
  | resolveStep => exact written rfl fun _ _ => le_refl _
  | requestLive => exact unwritten recordRequest_steps
  | requestFinish => exact unwritten recordRequest_steps
  | acknowledge => exact unwritten recordOwnRequest_steps
  | _ => exact unwritten rfl

/-- What a row keeps of its attempts and of a cancellation request. -/
structure Requested (row row' : ExecutionRow) : Prop where
  attempts : row.attempts ≤ row'.attempts
  request : row.cancellationRequestedAt ≠ none →
    row'.cancellationRequestedAt = row.cancellationRequestedAt ∧ row'.cancellationReason = row.cancellationReason

theorem Step.requested (h : Step store now id op r r') {row row' : ExecutionRow} (hrow : r.row = some row)
    (hrow' : r'.row = some row') : Requested row row' := by
  -- an `UPDATE` of other columns
  have other : ∀ {f : ExecutionRow → ExecutionRow}, r'.row = r.row.map f → Requested row (f row) →
      Requested row row' := by
    intro f hf hr
    rw [hf, hrow, Option.map_some] at hrow'
    cases hrow'
    exact hr
  -- a request is recorded where there was none, and other columns are written
  have recorded : ∀ {r₁ : Record} {row₁ : ExecutionRow} {f : ExecutionRow → ExecutionRow},
      r₁.row = some (if row.cancellationRequestedAt = none then row₁ else row) → r'.row = r₁.row.map f →
      row₁.attempts = row.attempts → (∀ row, (f row).attempts = row.attempts) →
      (row.cancellationRequestedAt ≠ none → (f row).cancellationRequestedAt = row.cancellationRequestedAt ∧
        (f row).cancellationReason = row.cancellationReason) → Requested row row' := by
    intro r₁ row₁ f hr₁ hf hattempts hfattempts hkeep
    rw [hf, hr₁, Option.map_some] at hrow'
    cases hrow'
    refine ⟨?_, fun hreq => ?_⟩
    · rw [hfattempts]
      split_ifs
      · exact hattempts.ge
      · exact le_refl _
    · rw [if_neg hreq]
      exact hkeep hreq
  cases h with
  | submit absent => cases absent.symm.trans hrow
  | claim hrow₁ =>
    cases hrow.symm.trans hrow₁
    cases hrow'
    exact ⟨le_refl _, fun _ => ⟨rfl, rfl⟩⟩
  | renew => exact other Option.map_id'.symm ⟨le_refl _, fun _ => ⟨rfl, rfl⟩⟩
  | release => exact other Option.map_id'.symm ⟨le_refl _, fun _ => ⟨rfl, rfl⟩⟩
  | skipStep => exact other Option.map_id'.symm ⟨le_refl _, fun _ => ⟨rfl, rfl⟩⟩
  | startStep => exact other rfl ⟨Nat.le_succ _, fun _ => ⟨rfl, rfl⟩⟩
  | requestLive hrow₁ =>
    cases hrow.symm.trans hrow₁
    exact recorded (recordRequest_row hrow) Option.map_id'.symm rfl (fun _ => rfl) fun _ => ⟨rfl, rfl⟩
  | requestFinish hrow₁ =>
    cases hrow.symm.trans hrow₁
    refine recorded (recordRequest_row hrow) rfl rfl (fun _ => rfl) fun hreq => ⟨?_, rfl⟩
    obtain ⟨t, ht⟩ := Option.ne_none_iff_exists'.mp hreq
    show some (row.cancellationRequestedAt.getD now) = row.cancellationRequestedAt
    rw [ht, Option.getD_some]
  | acknowledge _ hrow₁ =>
    cases hrow.symm.trans hrow₁
    exact recorded (recordOwnRequest_row hrow) rfl rfl (fun _ => rfl) fun _ => ⟨rfl, rfl⟩
  | _ => exact other rfl ⟨le_refl _, fun _ => ⟨rfl, rfl⟩⟩

theorem Step.extends (h : Step store now id op r r') : Extends r r' where
  toGrows := h.grows
  events := h.events_appended
  attempts _ _ hst := h.attempts_le hst
  counted _ _ hrow hrow' := (h.requested hrow hrow').attempts
  requested _ _ hrow hrow' := (h.requested hrow hrow').request

end Extends

end Record

/-! ## Runs -/

theorem exists_moved (store : JournalStore V) (j : Journal) (l : List (Call V)) (id : String) :
    ∃ l', l'.Sublist l ∧ Path (Record.Moved store id) (j.record id) l' ((after (Call.exec store) j l).record id) :=
  Path.exists_of_steps (fun j : Journal => j.record id) (fun j x => x.exec_moves store j id) j l

/-- **Refinement.**  Seen from one execution, a run of the journal is a path of the machine of this execution from
nothing, and its labels are calls of the run, in this order, that name no other execution. -/
theorem executions_refined (store : JournalStore V) (l : List (Call V)) (id : String) :
    ∃ l', l'.Sublist l ∧ Path (Record.Moved store id) .absent l' ((runCalls store l).record id) ∧
      ∀ x ∈ l', ∀ id' ∈ x.op.target?, id' = id := by
  obtain ⟨l', hl', hpath⟩ := exists_moved store {} l id
  exact ⟨l', hl', hpath, hpath.forall_labels fun x r r' h => h.target⟩

/-- **The journal only adds.**  Whatever calls follow a run, the history of every execution goes on from what it was:
the events with new ones behind them, what was submitted and the first cancellation request as they were, attempts
counted up, fences not below, resolved steps with their outputs, and a terminal status for good. -/
theorem history_kept (store : JournalStore V) (l l' : List (Call V)) (id : String) :
    ((runCalls store l).record id).Extends ((runCalls store (l ++ l')).record id) := by
  obtain ⟨_, -, hpath⟩ := exists_moved store (runCalls store l) l' id
  rw [runCalls, runCalls, after_append]
  exact Path.rel Record.Extends.refl (fun _ _ _ => Record.Extends.trans) (fun _ _ _ h => Record.Step.extends h) hpath

end Xyberos.Durable
