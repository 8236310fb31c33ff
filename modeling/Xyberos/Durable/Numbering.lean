import Mathlib.Algebra.BigOperators.Group.Finset.Basic
import Xyberos.Durable.Attempts

/-!
# Xyberos.Durable.Numbering — the numbers of attempts

`start_step` counts an attempt in the row of the step and in the row of the execution, and logs its number
(`Counted`, which every move keeps).  The operations that log how an attempt ended read the number back from the row:
`fail_step` and `mark_step_outcome_unknown` log what they read, and `complete_step` logs one more.
`attempts_agree_iff`: the numbers agree in a run exactly when no call of it is accepted that logs another number than
the one of the last start.
-/

set_option autoImplicit false

namespace Xyberos.Durable

variable {V : Type} {store : JournalStore V}

/-- The numbers that the starts of a step carry, in their order. -/
def startNumbers (s : String) (events : List EventRow) : List (Option ℕ) :=
  (events.filter fun e => e.Starts s).map EventRow.attempt

/-- `1, 2, .., n`. -/
def numbers (n : ℕ) : List (Option ℕ) := (List.range n).map fun k => some (k + 1)

/-- How far the number of an event is from the one of the last start of its step. -/
def EventKind.offset? : EventKind → Option ℕ
  | stepSucceeded => some 0
  | stepFailed => some 0
  | stepOutcomeUnknown => some 0
  | retryScheduled => some 1
  | _ => none

/-- An event about the end of an attempt carries the number of the last start of its step, or the next one. -/
def EventRow.Numbered (before : List EventRow) (e : EventRow) : Prop :=
  ∀ k ∈ e.kind.offset?, ∃ s n, e.stepId = some s ∧ (startNumbers s before).getLast? = some (some n) ∧
    e.attempt = some (n + k)

/-- Every event about the end of an attempt carries the right number. -/
def AllNumbered (events : List EventRow) : Prop := ∀ before e after, events = before ++ e :: after → e.Numbered before

theorem startNumbers_append (s : String) (l l' : List EventRow) :
    startNumbers s (l ++ l') = startNumbers s l ++ startNumbers s l' := by
  rw [startNumbers, List.filter_append, List.map_append]
  rfl

theorem startNumbers_of_not {s : String} {l : List EventRow} (h : ∀ e ∈ l, ¬ e.Starts s) : startNumbers s l = [] := by
  rw [startNumbers, List.filter_eq_nil_iff.mpr (by simpa using h)]
  rfl

theorem getLast?_numbers (n : ℕ) : (numbers n).getLast? = if n = 0 then none else some (some n) := by
  cases n with
  | zero => rfl
  | succ n => simp [numbers, List.range_succ]

theorem numbered_of_none {before : List EventRow} {e : EventRow} (h : e.kind.offset? = none) : e.Numbered before := by
  intro k hk
  rw [h] at hk
  cases hk

theorem allNumbered_concat {l : List EventRow} {e : EventRow} : AllNumbered (l ++ [e]) ↔ AllNumbered l ∧ e.Numbered l := by
  constructor
  · intro h
    refine ⟨fun before x after hl => h before x (after ++ [e]) ?_, h l e [] rfl⟩
    rw [hl, List.append_assoc, List.cons_append]
  · rintro ⟨hl, he⟩ before x after h
    rcases Record.split_append h with ⟨mid, hmid, -⟩ | ⟨mid, hmid, hbefore⟩
    · exact hl before x mid hmid
    · cases mid with
      | nil =>
        obtain ⟨rfl, -⟩ := List.cons.inj hmid
        rw [hbefore, List.append_nil]
        exact he
      | cons y mid => simp at hmid

theorem allNumbered_of_none {l : List EventRow} {e : EventRow} (h : AllNumbered l) (he : e.kind.offset? = none) :
    AllNumbered (l ++ [e]) :=
  allNumbered_concat.mpr ⟨h, numbered_of_none he⟩

namespace Record

/-- The attempts in the row of a step. -/
def attemptsOf (r : Record) (s : String) : ℕ := (r.steps s).elim 0 StepRow.attempts

/-- The starts of each step are numbered through to the count in its row, and the count of the execution is the sum
over any set of steps that has all of its own. -/
structure Counted (r : Record) : Prop where
  starts : ∀ s, startNumbers s r.events = numbers (r.attemptsOf s)
  total : ∀ row, r.row = some row → ∀ S : Finset String, (∀ s ∉ S, r.steps s = none) →
    row.attempts = ∑ s ∈ S, r.attemptsOf s

section Counted

variable {r r' : Record}

/-- A move that starts nothing and leaves the counts. -/
theorem Counted.frame (h : r.Counted) (new : List EventRow) (hevents : r'.events = r.events ++ new)
    (hnew : ∀ e ∈ new, e.kind ≠ .stepStarted) {f : ExecutionRow → ExecutionRow} (hrow : r'.row = r.row.map f)
    (hf : ∀ row, (f row).attempts = row.attempts)
    (hsteps : ∀ s, (r'.steps s).map StepRow.attempts = (r.steps s).map StepRow.attempts) : r'.Counted := by
  have hattempts : ∀ s, r'.attemptsOf s = r.attemptsOf s := by
    intro s
    have hs := hsteps s
    unfold attemptsOf
    cases hst : r.steps s <;> cases hst' : r'.steps s <;> simp_all
  refine ⟨fun s => ?_, fun row' hrow' S hS => ?_⟩
  · have hnot : ∀ e ∈ new, ¬ e.Starts s := fun e he hstart => hnew e he hstart.1
    rw [hevents, startNumbers_append, startNumbers_of_not hnot, List.append_nil, h.starts, hattempts]
  · rw [hrow] at hrow'
    obtain ⟨row, hr, rfl⟩ := Option.map_eq_some_iff.mp hrow'
    have hcover : ∀ s ∉ S, r.steps s = none := by
      intro s hs
      have hnone := hsteps s
      rw [hS s hs, Option.map_none] at hnone
      exact Option.map_eq_none_iff.mp hnone.symm
    rw [hf, h.total row hr S hcover]
    exact Finset.sum_congr rfl fun s _ => (hattempts s).symm

/-- A write of one step row that leaves its count. -/
theorem attempts_modifyStep (r : Record) (s : String) {f : StepRow → StepRow} (hf : ∀ st, (f st).attempts = st.attempts)
    (s' : String) : ((r.modifyStep s f).steps s').map StepRow.attempts = (r.steps s').map StepRow.attempts := by
  have hcount : StepRow.attempts ∘ f = StepRow.attempts := funext hf
  by_cases he : s' = s
  · subst he
    simp [hcount]
  · simp [he]

/-- An attempt is started and counted. -/
theorem Counted.start (h : r.Counted) {s : String} {st : StepRow} (hst : r.steps s = some st) {f : StepRow → StepRow}
    (hf : (f st).attempts = st.attempts + 1) {g : ExecutionRow → ExecutionRow}
    (hg : ∀ row, (g row).attempts = row.attempts + 1) {e : EventRow} (he : e.Starts s)
    (hn : e.attempt = some (st.attempts + 1)) : (((r.modifyStep s f).modifyRow g).log e).Counted where
  starts s' := by
    have hevents : (((r.modifyStep s f).modifyRow g).log e).events = r.events ++ [e] := rfl
    rw [hevents, startNumbers_append, h.starts s']
    by_cases hs : s' = s
    · subst hs
      have hold : r.attemptsOf s' = st.attempts := by rw [attemptsOf, hst, Option.elim_some]
      have hnew : (((r.modifyStep s' f).modifyRow g).log e).attemptsOf s' = st.attempts + 1 := by
        simp [attemptsOf, hst, hf]
      rw [hold, hnew, startNumbers, List.filter_singleton]
      simp [he, hn, numbers, List.range_succ]
    · have hother : ¬ e.Starts s' := fun h' => hs (Option.some.inj (h'.2.symm.trans he.2))
      have hsame : (((r.modifyStep s f).modifyRow g).log e).attemptsOf s' = r.attemptsOf s' := by
        simp [attemptsOf, hs]
      rw [startNumbers_of_not (by simpa using hother), List.append_nil, hsame]
  total row' hrow' S hS := by
    obtain ⟨row, hrow, rfl⟩ := Option.map_eq_some_iff.mp (show r.row.map g = some row' from hrow')
    have hcover : ∀ s' ∉ S, r.steps s' = none := by
      intro s' hs'
      have hnone := hS s' hs'
      by_cases he' : s' = s
      · subst he'
        simp [hst] at hnone
      · simpa [he'] using hnone
    have hmem : s ∈ S := by
      by_contra hns
      cases hst.symm.trans (hcover s hns)
    have hrest : ∀ s' ∈ S.erase s, (((r.modifyStep s f).modifyRow g).log e).attemptsOf s' = r.attemptsOf s' := by
      intro s' hs'
      simp [attemptsOf, Finset.ne_of_mem_erase hs']
    have hself : (((r.modifyStep s f).modifyRow g).log e).attemptsOf s = r.attemptsOf s + 1 := by
      simp [attemptsOf, hst, hf]
    calc (g row).attempts = ∑ s' ∈ S, r.attemptsOf s' + 1 := by rw [hg, h.total row hrow S hcover]
      _ = r.attemptsOf s + ∑ s' ∈ S.erase s, r.attemptsOf s' + 1 := by rw [Finset.add_sum_erase S _ hmem]
      _ = (r.attemptsOf s + 1) + ∑ s' ∈ S.erase s, r.attemptsOf s' := by omega
      _ = _ := by rw [← hself, ← Finset.sum_congr rfl hrest, Finset.add_sum_erase S _ hmem]

theorem Counted.recordRequest (h : r.Counted) (id : String) (now : Instant) (reason : Option String)
    (row : ExecutionRow) : (recordRequest id now reason r row).Counted := by
  unfold Record.recordRequest
  split_ifs
  · exact h.frame [_] rfl (by simp) rfl (fun _ => rfl) fun _ => rfl
  · exact h

theorem Counted.recordOwnRequest (h : r.Counted) (id : String) (now : Instant) (reason : Option String)
    (row : ExecutionRow) : (recordOwnRequest id now reason r row).Counted := by
  unfold Record.recordOwnRequest
  split_ifs
  · exact h.frame [_] rfl (by simp) rfl (fun _ => rfl) fun _ => rfl
  · exact h

theorem counted_absent : Record.absent.Counted where
  starts _ := rfl
  total row hrow := by cases hrow

end Counted

/-- **Counting.**  Every move keeps the counts. -/
theorem Step.counted {now : Instant} {id : String} {op : Op V} {r r' : Record} (h : Step store now id op r r')
    (hroot : r.Rooted) (hr : r.Counted) : r'.Counted := by
  have same : ∀ s, (r.steps s).map StepRow.attempts = (r.steps s).map StepRow.attempts := fun _ => rfl
  cases h with
  | submit absent fresh =>
    have hempty : r = .absent := hroot absent
    subst hempty
    refine ⟨fun s => ?_, fun row hrow S _ => ?_⟩
    · show startNumbers s ([] ++ [_]) = _
      rw [startNumbers_append, startNumbers_of_not (by simp [EventRow.Starts])]
      show [] = numbers (Option.elim (if _ then _ else none) 0 _)
      split_ifs <;> rfl
    · cases hrow
      refine (Finset.sum_eq_zero fun s _ => ?_).symm
      show Option.elim (if _ then _ else none) 0 _ = 0
      split_ifs <;> rfl
  | claim hrow =>
    refine hr.frame [_] rfl (by simp) (f := fun row => { row with status := .running, updatedAt := now }) ?_
      (fun _ => rfl) same
    rw [hrow]
    rfl
  | renew => exact hr.frame [_] rfl (by simp) Option.map_id'.symm (fun _ => rfl) same
  | release => exact hr.frame [] (List.append_nil _).symm (by simp) Option.map_id'.symm (fun _ => rfl) same
  | expire => exact hr.frame [_] rfl (by simp) rfl (fun _ => rfl) same
  | startStep _ _ h => exact hr.start h.step_eq rfl (fun _ => rfl) ⟨rfl, rfl⟩ rfl
  | completeStep => exact hr.frame [_] rfl (by simp) rfl (fun _ => rfl) (attempts_modifyStep r _ fun _ => rfl)
  | yieldExecution => exact hr.frame [_] rfl (by simp) rfl (fun _ => rfl) same
  | skipStep =>
    exact hr.frame [_] rfl (by simp) Option.map_id'.symm (fun _ => rfl) (attempts_modifyStep r _ fun _ => rfl)
  | failStepDeadline => exact hr.frame [_] rfl (by simp) rfl (fun _ => rfl) same
  | failStep =>
    exact hr.frame [_, _] (List.append_assoc ..) (by simp) rfl (fun _ => rfl) (attempts_modifyStep r _ fun _ => rfl)
  | retryStep =>
    exact hr.frame [_, _] (List.append_assoc ..) (by simp) rfl (fun _ => rfl) (attempts_modifyStep r _ fun _ => rfl)
  | markUnknown =>
    exact hr.frame [_, _] (List.append_assoc ..) (by simp) rfl (fun _ => rfl) (attempts_modifyStep r _ fun _ => rfl)
  | resolveStep => exact hr.frame [_] rfl (by simp) rfl (fun _ => rfl) (attempts_modifyStep r _ fun _ => rfl)
  | completeExecution => exact hr.frame [_] rfl (by simp) rfl (fun _ => rfl) same
  | failExecution => exact hr.frame [_] rfl (by simp) rfl (fun _ => rfl) same
  | timeOutExecution => exact hr.frame [_] rfl (by simp) rfl (fun _ => rfl) same
  | requestLive => exact hr.recordRequest ..
  | requestFinish =>
    exact (hr.recordRequest id now _ _).frame [_] rfl (by simp) rfl (fun _ => rfl) fun _ => rfl
  | acknowledge =>
    exact (hr.recordOwnRequest id now _ _).frame [_] rfl (by simp) rfl (fun _ => rfl) fun _ => rfl
  | markWaiting => exact hr.frame [_] rfl (by simp) rfl (fun _ => rfl) same
  | resume => exact hr.frame [_] rfl (by simp) rfl (fun _ => rfl) same

theorem allNumbered_recordRequest {r : Record} (h : AllNumbered r.events) {id : String} {now : Instant}
    {reason : Option String} {row : ExecutionRow} : AllNumbered (recordRequest id now reason r row).events := by
  unfold recordRequest
  split_ifs
  · exact allNumbered_of_none h rfl
  · exact h

theorem allNumbered_recordOwnRequest {r : Record} (h : AllNumbered r.events) {id : String} {now : Instant}
    {reason : Option String} {row : ExecutionRow} : AllNumbered (recordOwnRequest id now reason r row).events := by
  unfold recordOwnRequest
  split_ifs
  · exact allNumbered_of_none h rfl
  · exact h

/-- The number of the last start is the count in the row, if the step was started. -/
theorem Counted.latest {r : Record} (h : r.Counted) {s : String} {st : StepRow} (hst : r.steps s = some st) :
    (startNumbers s r.events).getLast? = if st.attempts = 0 then none else some (some st.attempts) := by
  have hold : r.attemptsOf s = st.attempts := by rw [attemptsOf, hst, Option.elim_some]
  rw [h.starts, hold, getLast?_numbers]

/-- An event that carries the count of the row, or one more for a scheduled retry. -/
theorem Counted.numbered_iff {r : Record} (h : r.Counted) {s : String} {st : StepRow} (hst : r.steps s = some st)
    {e : EventRow} (hs : e.stepId = some s) {k m : ℕ} (hk : e.kind.offset? = some k) (hm : e.attempt = some m)
    {l : List EventRow} (hl : ∀ e ∈ l, e.kind ≠ .stepStarted) :
    e.Numbered (r.events ++ l) ↔ st.attempts ≠ 0 ∧ m = st.attempts + k := by
  have hnot : ∀ e ∈ l, ¬ e.Starts s := fun e he hstart => hl e he hstart.1
  have hlast : (startNumbers s (r.events ++ l)).getLast? =
      if st.attempts = 0 then none else some (some st.attempts) := by
    rw [startNumbers_append, startNumbers_of_not hnot, List.append_nil, h.latest hst]
  constructor
  · intro hn
    obtain ⟨s', n, hs', hn, hattempt⟩ := hn k hk
    obtain rfl : s' = s := Option.some.inj (hs'.symm.trans hs)
    rw [hlast] at hn
    split_ifs at hn with h0
    cases hn
    exact ⟨h0, Option.some.inj (hm.symm.trans hattempt)⟩
  · rintro ⟨h0, rfl⟩ k' hk'
    obtain rfl : k = k' := Option.some.inj (hk.symm.trans hk')
    exact ⟨s, st.attempts, hs, by rw [hlast, if_neg h0], hm⟩

/-- Anything else is a wrong number. -/
theorem Counted.not_allNumbered {r : Record} (h : r.Counted) {s : String} {st : StepRow} (hst : r.steps s = some st)
    {e : EventRow} (hs : e.stepId = some s) {k m : ℕ} (hk : e.kind.offset? = some k) (hm : e.attempt = some m)
    (hwrong : ¬ (st.attempts ≠ 0 ∧ m = st.attempts + k)) {rest : List EventRow} :
    ¬ AllNumbered (r.events ++ e :: rest) := by
  intro hall
  have he := hall r.events e rest rfl
  rw [← List.append_nil r.events] at he
  exact hwrong ((h.numbered_iff hst hs hk hm (by simp)).mp he)

/-- The end of an attempt is logged with the count of its row. -/
theorem Counted.allNumbered_log {r : Record} (h : r.Counted) (hr : AllNumbered r.events) {s : String} {st : StepRow}
    (hst : r.steps s = some st) (h0 : st.attempts ≠ 0) {e : EventRow} (hs : e.stepId = some s)
    (hk : e.kind.offset? = some 0) (hm : e.attempt = some st.attempts) : AllNumbered (r.events ++ [e]) := by
  have he := (h.numbered_iff hst hs hk hm (l := []) (by simp)).mpr ⟨h0, rfl⟩
  rw [List.append_nil] at he
  exact allNumbered_concat.mpr ⟨hr, he⟩

end Record

/-- The call logs how an attempt ended, and not with the number of the last start: a `complete_step` that is accepted,
or a `fail_step` or `mark_step_outcome_unknown` that is accepted for a step that was never started. -/
def Op.Misnumbers (store : JournalStore V) (now : Instant) (j : Journal) : Op V → Prop
  | completeStep c s output =>
    (∃ payload, store.dump output s!"output of step {reprStr s}" = .ok payload) ∧
      ∃ st, (j.record c.executionId).AcceptsStep c now s st .succeeded
  | failStep c s _ _ retryAt _ =>
    ¬ JournalStore.DeadlineReached c retryAt now ∧ ∃ row st, st.attempts = 0 ∧
      (j.record c.executionId).AcceptsStep c now s st (if retryAt = none then .failed else .pending) ∧
      (j.record c.executionId).Accepts c now row (if retryAt = none then .failed else .retrying)
  | markStepOutcomeUnknown c s _ => ∃ row st, st.attempts = 0 ∧
      (j.record c.executionId).AcceptsStep c now s st .outcomeUnknown ∧
      (j.record c.executionId).Accepts c now row .waiting
  | _ => False

/-- A move whose call does not misnumber keeps the numbers right. -/
theorem Record.Step.allNumbered {now : Instant} {id : String} {op : Op V} {j : Journal} {r' : Record}
    (h : Record.Step store now id op (j.record id) r') (hn : ¬ op.Misnumbers store now j)
    (hcount : (j.record id).Counted) (hr : AllNumbered (j.record id).events) : AllNumbered r'.events := by
  generalize hrec : j.record id = r at *
  cases h with
  | submit => exact allNumbered_of_none hr rfl
  | claim => exact allNumbered_of_none hr rfl
  | renew => exact allNumbered_of_none hr rfl
  | release => exact hr
  | expire => exact allNumbered_of_none hr rfl
  | startStep => exact allNumbered_of_none hr rfl
  | completeStep hc hp h =>
    subst hc hrec
    exact absurd ⟨⟨_, hp⟩, _, h⟩ hn
  | yieldExecution => exact allNumbered_of_none hr rfl
  | skipStep => exact allNumbered_of_none hr rfl
  | failStepDeadline => exact allNumbered_of_none hr rfl
  | @failStep c _ _ _ _ _ row st _ hc notPassed hs h =>
    have h0 : st.attempts ≠ 0 := by
      intro h0
      subst hc hrec
      exact hn ⟨notPassed, row, st, h0, hs, h⟩
    exact allNumbered_of_none (hcount.allNumbered_log hr hs.step_eq h0 rfl rfl rfl) rfl
  | @retryStep c _ _ _ _ _ _ row st hc notPassed hs h =>
    have h0 : st.attempts ≠ 0 := by
      intro h0
      subst hc hrec
      exact hn ⟨notPassed, row, st, h0, hs, h⟩
    refine allNumbered_concat.mpr ⟨hcount.allNumbered_log hr hs.step_eq h0 rfl rfl rfl, ?_⟩
    exact (hcount.numbered_iff hs.step_eq rfl rfl rfl (by simp)).mpr ⟨h0, rfl⟩
  | @markUnknown c _ _ _ row st hc hs h =>
    have h0 : st.attempts ≠ 0 := by
      intro h0
      subst hc hrec
      exact hn ⟨row, st, h0, hs, h⟩
    exact allNumbered_of_none (hcount.allNumbered_log hr hs.step_eq h0 rfl rfl rfl) rfl
  | resolveStep => exact allNumbered_of_none hr rfl
  | completeExecution => exact allNumbered_of_none hr rfl
  | failExecution => exact allNumbered_of_none hr rfl
  | timeOutExecution => exact allNumbered_of_none hr rfl
  | requestLive => exact allNumbered_recordRequest hr
  | requestFinish => exact allNumbered_of_none (allNumbered_recordRequest hr) rfl
  | acknowledge => exact allNumbered_of_none (allNumbered_recordOwnRequest hr) rfl
  | markWaiting => exact allNumbered_of_none hr rfl
  | resume => exact allNumbered_of_none hr rfl

/-- What a call that misnumbers logs carries a wrong number. -/
theorem Op.Misnumbers.wrong {now : Instant} {op : Op V} {j : Journal} (h : op.Misnumbers store now j)
    (hcount : ∀ id, (j.record id).Counted) : ∃ id, ¬ AllNumbered ((Call.exec store j ⟨op, now⟩).record id).events := by
  cases op with
  | completeStep c s output =>
    obtain ⟨⟨payload, hp⟩, st, hs⟩ := h
    refine ⟨c.executionId, ?_⟩
    rw [Call.exec_of_run (x := ⟨.completeStep c s output, now⟩) (a := ())
        (JournalStore.run_completeStep.mpr ⟨payload, st, hp, hs, rfl⟩),
      record_appendEvent_self rfl, record_modifyExecution_self, record_modifyStep_self]
    exact (hcount _).not_allNumbered hs.step_eq rfl rfl rfl fun hn => by omega
  | failStep c s errorType message retryAt reason =>
    obtain ⟨hd, row, st, h0, hs, hrow⟩ := h
    refine ⟨c.executionId, ?_⟩
    cases retryAt with
    | none =>
      rw [Call.exec_of_run (x := ⟨.failStep c s errorType message none reason, now⟩)
          ((JournalStore.run_failStep_failed hd).mpr ⟨row, st, hs, hrow, rfl, rfl⟩),
        record_appendEvent_self rfl, record_appendEvent_self rfl, record_modifyExecution_self, record_modifyStep_self]
      show ¬ AllNumbered ((j.record c.executionId).events ++ [_] ++ [_])
      rw [List.append_assoc]
      exact (hcount _).not_allNumbered hs.step_eq rfl rfl rfl fun hn => hn.1 h0
    | some due =>
      rw [Call.exec_of_run (x := ⟨.failStep c s errorType message (some due) reason, now⟩)
          ((JournalStore.run_failStep_retry hd).mpr ⟨row, st, hs, hrow, rfl, rfl⟩),
        record_appendEvent_self rfl, record_modifyLease_self, record_appendEvent_self rfl, record_modifyExecution_self,
        record_upsertRetry_self, record_modifyStep_self]
      show ¬ AllNumbered ((j.record c.executionId).events ++ [_] ++ [_])
      rw [List.append_assoc]
      exact (hcount _).not_allNumbered hs.step_eq rfl rfl rfl fun hn => hn.1 h0
  | markStepOutcomeUnknown c s reason =>
    obtain ⟨row, st, h0, hs, hrow⟩ := h
    refine ⟨c.executionId, ?_⟩
    rw [Call.exec_of_run (x := ⟨.markStepOutcomeUnknown c s reason, now⟩) (a := ())
        (JournalStore.run_markStepOutcomeUnknown.mpr ⟨row, st, hs, hrow, rfl⟩),
      record_appendEvent_self rfl, record_appendEvent_self rfl, record_modifyExecution_self, record_modifyStep_self]
    show ¬ AllNumbered ((j.record c.executionId).events ++ [_] ++ [_])
    rw [List.append_assoc]
    exact (hcount _).not_allNumbered hs.step_eq rfl rfl rfl fun hn => hn.1 h0
  | _ => exact h.elim

/-! ## Runs -/

/-- The numbers of the attempts of every execution agree: the starts of each step are numbered through to the count in
its row, the count of the execution is the sum of those of its steps, and what ended an attempt carries its number. -/
structure AttemptsAgree (j : Journal) : Prop where
  starts : ∀ id s st, j.steps.get? (id, s) = some st → startNumbers s (j.record id).events = numbers st.attempts
  total : ∀ id row, j.executions.get? id = some row →
    row.attempts = ((j.steps.select fun k _ => k.1 = id).map fun x => x.2.attempts).sum
  numbered : ∀ id, AllNumbered (j.record id).events

/-- The steps of an execution, summed in the order of their rows. -/
theorem Record.Counted.total_select {j : Journal} {id : String} (h : (j.record id).Counted) {row : ExecutionRow}
    (hrow : j.executions.get? id = some row) :
    row.attempts = ((j.steps.select fun k _ => k.1 = id).map fun x => x.2.attempts).sum := by
  have hid : ∀ x ∈ j.steps.select (fun k _ => k.1 = id), x.1 = (id, x.1.2) ∧ j.steps.get? x.1 = some x.2 := by
    rintro ⟨⟨id', s⟩, st⟩ hx
    obtain ⟨hst, hid⟩ := Table.mem_select.mp hx
    exact ⟨Prod.ext hid rfl, hst⟩
  have hnodup : ((j.steps.select fun k _ => k.1 = id).map fun x => x.1.2).Nodup := by
    refine List.Nodup.map_on (fun x hx y hy hs => ?_) (List.Nodup.of_map _ (j.steps.nodup_select _))
    have hkey : x.1 = y.1 := by rw [(hid x hx).1, (hid y hy).1, hs]
    exact List.inj_on_of_nodup_map (j.steps.nodup_select _) hx hy hkey
  have hcover : ∀ s ∉ ((j.steps.select fun k _ => k.1 = id).map fun x => x.1.2).toFinset, (j.record id).steps s = none := by
    intro s hs
    by_contra hne
    obtain ⟨st, hst⟩ := Option.ne_none_iff_exists'.mp hne
    exact hs (List.mem_toFinset.mpr (List.mem_map_of_mem (f := fun x => x.1.2) (Table.mem_select.mpr ⟨hst, rfl⟩)))
  rw [h.total row hrow _ hcover, List.sum_toFinset _ hnodup, List.map_map]
  refine congrArg List.sum (List.map_congr_left fun x hx => ?_)
  obtain ⟨hkey, hst⟩ := hid x hx
  rw [hkey] at hst
  show Option.elim (j.steps.get? (id, x.1.2)) 0 StepRow.attempts = x.2.attempts
  rw [hst, Option.elim_some]

theorem attemptsAgree_iff {j : Journal} (hcount : ∀ id, (j.record id).Counted) :
    AttemptsAgree j ↔ ∀ id, AllNumbered (j.record id).events := by
  refine ⟨AttemptsAgree.numbered, fun h => ⟨fun id s st hst => ?_, fun id row hrow => (hcount id).total_select hrow, h⟩⟩
  have hattempts : (j.record id).attemptsOf s = st.attempts := by
    rw [Record.attemptsOf, Journal.record_steps, hst, Option.elim_some]
  rw [(hcount id).starts, hattempts]

/-- **Attempt numbers.**  In a run, the numbers agree in every state reached exactly when no call of it misnumbers. -/
theorem attempts_agree_iff (store : JournalStore V) (l : List (Call V)) :
    Steps (Call.exec store) (fun j x => AttemptsAgree (x.exec store j)) {} l ↔
      Steps (Call.exec store) (fun j x => ¬ x.op.Misnumbers store x.now j) {} l := by
  have hmoves : ∀ (j : Journal) (x : Call V), (∀ id, (j.record id).Rooted ∧ (j.record id).Counted) →
      ∀ id, ((x.exec store j).record id).Rooted ∧ ((x.exec store j).record id).Counted := by
    intro j x hj id
    rcases x.exec_moves store j id with he | hs
    · rw [he]
      exact hj id
    · exact ⟨fun hn => absurd hn (hs.row_ne_none (hj id).1), hs.counted (hj id).1 (hj id).2⟩
  refine steps_exact (I := fun j => ∀ id, (j.record id).Rooted ∧ (j.record id).Counted)
    (fun _ => ⟨fun _ => rfl, Record.counted_absent⟩) ?_ hmoves fun j x hj hagree => ?_
  · refine (attemptsAgree_iff (j := {}) fun _ => Record.counted_absent).mpr fun id before e after h => ?_
    simp [Record.absent] at h
  · rw [attemptsAgree_iff fun id => (hmoves j x hj id).2]
    constructor
    · intro hall hwrong
      obtain ⟨id, hid⟩ := hwrong.wrong fun id => (hj id).2
      exact hid (hall id)
    · intro hn id
      rcases x.exec_moves store j id with he | hs
      · rw [he]
        exact hagree.numbered id
      · exact hs.allNumbered hn (hj id).2 (hagree.numbered id)

/-- `"e"` is claimed and its step is started and completed. -/
def completedStep : List (Call String) :=
  claimedOnce ++ [⟨.startStep (oneStepClaim 1 1) "a" none, 2⟩, ⟨.completeStep (oneStepClaim 1 1) "a" "1", 3⟩]

/-- The first attempt is logged as the second. -/
theorem attempts_disagree :
    ¬ Steps (Call.exec textStore) (fun j x => AttemptsAgree (x.exec textStore j)) {} completedStep := by
  rintro ⟨-, -, -, h, -⟩
  obtain ⟨s, n, hs, hlast, hattempt⟩ := h.numbered "e" (((runCalls textStore completedStep).record "e").events.take 3)
    { executionId := "e", kind := .stepSucceeded, stepId := "a", attempt := some 2, «at» := 3 } [] (by decide +kernel) 0 rfl
  obtain rfl : "a" = s := Option.some.inj hs
  obtain rfl : 1 = n := Option.some.inj (Option.some.inj hlast)
  exact absurd hattempt (by decide)

end Xyberos.Durable
