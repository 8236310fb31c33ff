import Xyberos.Durable.Runs

/-!
# Xyberos.Durable.Attempts — what the journal knows about the attempts of a step

`Tracked s r`: in the record `r`, the attempts of the step `s` follow one another only through a recorded failure
with a scheduled retry, and an attempt that has none yet is the one the row of the step is about, which is not
PENDING.  Every move keeps this except two: starting the step while it is RUNNING, and resolving it
(`Step.tracked`).
-/

set_option autoImplicit false

namespace Xyberos.Durable

variable {V : Type} {store : JournalStore V}

/-- The event says that an attempt of the step was started. -/
def EventRow.Starts (s : String) (e : EventRow) : Prop := e.kind = .stepStarted ∧ e.stepId = some s

instance (s : String) (e : EventRow) : Decidable (e.Starts s) := inferInstanceAs (Decidable (_ ∧ _))

/-- The events record that the attempt `n` of the step failed, and after that, that the next one is scheduled. -/
def Retried (s : String) (n : ℕ) (events : List EventRow) : Prop :=
  ∃ failed scheduled : EventRow, [failed, scheduled].Sublist events ∧
    failed.kind = .stepFailed ∧ failed.stepId = some s ∧ failed.attempt = some n ∧
    scheduled.kind = .retryScheduled ∧ scheduled.stepId = some s ∧ scheduled.attempt = some (n + 1)

/-- Between any two starts of the step, the failure of the earlier attempt is recorded with a scheduled retry. -/
def NoSilentRepeat (s : String) (events : List EventRow) : Prop :=
  ∀ before e between e' rest, events = before ++ e :: (between ++ e' :: rest) → e.Starts s → e'.Starts s →
    ∃ n, e.attempt = some n ∧ Retried s n between

theorem Retried.append {s : String} {n : ℕ} {l : List EventRow} (h : Retried s n l) (l' : List EventRow) :
    Retried s n (l ++ l') := by
  obtain ⟨failed, scheduled, hsub, h⟩ := h
  exact ⟨failed, scheduled, hsub.trans (List.sublist_append_left l l'), h⟩

namespace Record

/-- The invariant of the attempts of a step. -/
structure Tracked (s : String) (r : Record) : Prop where
  noSilentRepeat : NoSilentRepeat s r.events
  /-- a start with nothing recorded after it is the last one, and the step is not PENDING -/
  settled : ∀ before e after, r.events = before ++ e :: after → e.Starts s →
    ∃ n, e.attempt = some n ∧
      (Retried s n after ∨ ∃ st, r.steps s = some st ∧ st.attempts = n ∧ st.state ≠ .pending)

/-- The step is RUNNING. -/
def Running (s : String) (r : Record) : Prop := ∃ st, r.steps s = some st ∧ st.state = .running

section Tracked

variable {s : String} {r r' : Record}

/-- An event of a longer list is one of the old events or one of the new. -/
theorem split_append {l new before : List EventRow} {e : EventRow} {rest : List EventRow}
    (h : l ++ new = before ++ e :: rest) :
    (∃ mid, l = before ++ e :: mid ∧ rest = mid ++ new) ∨ ∃ mid, new = mid ++ e :: rest ∧ before = l ++ mid := by
  rcases List.append_eq_append_iff.mp h with ⟨mid, hb, hn⟩ | ⟨mid, hl, hn⟩
  · exact .inr ⟨mid, hn, hb⟩
  · cases mid with
    | nil => exact .inr ⟨[], hn.symm, by rw [hl, List.append_nil, List.append_nil]⟩
    | cons x mid =>
      obtain ⟨rfl, rfl⟩ := List.cons.inj hn
      exact .inl ⟨mid, hl, rfl⟩

/-- Events that start no attempt of the step leave no silent repetition. -/
theorem noSilentRepeat_append {l new : List EventRow} (h : NoSilentRepeat s l) (hnew : ∀ e ∈ new, ¬ e.Starts s) :
    NoSilentRepeat s (l ++ new) := by
  intro before e between e' rest hl he he'
  rw [← List.cons_append, ← List.append_assoc] at hl
  rcases split_append hl with ⟨mid, hl', -⟩ | ⟨mid, rfl, -⟩
  · exact h before e between e' mid (by rw [hl', List.append_assoc, List.cons_append]) he he'
  · exact absurd he' (hnew e' (by simp))

/-- A move that starts no attempt of the step, and does not make its row PENDING. -/
theorem Tracked.append (h : r.Tracked s) (new : List EventRow) (hevents : r'.events = r.events ++ new)
    (hnew : ∀ e ∈ new, ¬ e.Starts s)
    (hsteps : ∀ st, r.steps s = some st → st.state ≠ .pending →
      ∃ st', r'.steps s = some st' ∧ st'.attempts = st.attempts ∧ st'.state ≠ .pending) : r'.Tracked s where
  noSilentRepeat := hevents ▸ noSilentRepeat_append h.noSilentRepeat hnew
  settled before e after he hstart := by
    rw [hevents] at he
    rcases split_append he with ⟨mid, hl, rfl⟩ | ⟨mid, rfl, -⟩
    · obtain ⟨n, hn, hret | ⟨st, hst, hatt, hstate⟩⟩ := h.settled before e mid hl hstart
      · exact ⟨n, hn, .inl (hret.append new)⟩
      · obtain ⟨st', hst', hatt', hstate'⟩ := hsteps st hst hstate
        exact ⟨n, hn, .inr ⟨st', hst', hatt'.trans hatt, hstate'⟩⟩
    · exact absurd hstart (hnew e (by simp))

/-- A move that does not touch the step. -/
theorem Tracked.frame (h : r.Tracked s) (new : List EventRow) (hevents : r'.events = r.events ++ new)
    (hnew : ∀ e ∈ new, ¬ e.Starts s) (hsteps : r'.steps s = r.steps s) : r'.Tracked s :=
  h.append new hevents hnew fun st hst hstate => ⟨st, hsteps.trans hst, rfl, hstate⟩

/-- The next attempt of a step that is PENDING: every earlier one has failed and was scheduled again. -/
theorem Tracked.start (h : r.Tracked s) {st : StepRow} (st' : StepRow) {e : EventRow}
    (hst : r.steps s = some st) (pending : st.state = .pending) (hevents : r'.events = r.events ++ [e])
    (hsteps : r'.steps s = some st') (hattempt : e.attempt = some st'.attempts) (hstate : st'.state ≠ .pending) : r'.Tracked s := by
  have hall : ∀ before e after, r.events = before ++ e :: after → e.Starts s →
      ∃ n, e.attempt = some n ∧ Retried s n after := by
    intro before e after he hstart
    obtain ⟨n, hn, hret | ⟨st₁, hst₁, -, hstate₁⟩⟩ := h.settled before e after he hstart
    · exact ⟨n, hn, hret⟩
    · cases hst.symm.trans hst₁
      exact absurd pending hstate₁
  constructor
  · intro before x between x' rest hl hx hx'
    rw [hevents, ← List.cons_append, ← List.append_assoc] at hl
    rcases split_append hl with ⟨mid, hl', -⟩ | ⟨mid, hmid, hl'⟩
    · exact h.noSilentRepeat before x between x' mid (by rw [hl', List.append_assoc, List.cons_append]) hx hx'
    · -- the later one is the new start
      cases mid with
      | nil =>
        rw [List.append_nil] at hl'
        exact hall before x between hl'.symm hx
      | cons y mid => simp at hmid
  · intro before x after hx hstart
    rw [hevents] at hx
    rcases split_append hx with ⟨mid, hl, rfl⟩ | ⟨mid, hmid, -⟩
    · obtain ⟨n, hn, hret⟩ := hall before x mid hl hstart
      exact ⟨n, hn, .inl (hret.append [e])⟩
    · cases mid with
      | nil =>
        obtain ⟨rfl, -⟩ := List.cons.inj hmid
        exact ⟨_, hattempt, .inr ⟨st', hsteps, rfl, hstate⟩⟩
      | cons y mid => simp at hmid

/-- A recorded failure with a scheduled retry settles the attempt the row is about. -/
theorem Tracked.retry (h : r.Tracked s) {st : StepRow} {failed scheduled : EventRow} (hst : r.steps s = some st)
    (hevents : r'.events = r.events ++ [failed, scheduled]) (hf : failed.kind = .stepFailed)
    (hfs : failed.stepId = some s) (hfa : failed.attempt = some st.attempts)
    (hs : scheduled.kind = .retryScheduled) (hss : scheduled.stepId = some s)
    (hsa : scheduled.attempt = some (st.attempts + 1)) : r'.Tracked s where
  noSilentRepeat := by
    refine hevents ▸ noSilentRepeat_append h.noSilentRepeat fun e he hstart => ?_
    rcases List.mem_pair.mp he with rfl | rfl
    · cases hf.symm.trans hstart.1
    · cases hs.symm.trans hstart.1
  settled before e after he hstart := by
    rw [hevents] at he
    rcases split_append he with ⟨mid, hl, rfl⟩ | ⟨mid, hmid, -⟩
    · obtain ⟨n, hn, hret | ⟨st₁, hst₁, hatt, -⟩⟩ := h.settled before e mid hl hstart
      · exact ⟨n, hn, .inl (hret.append _)⟩
      · cases hst.symm.trans hst₁
        subst hatt
        exact ⟨_, hn, .inl ⟨failed, scheduled, List.sublist_append_right mid _, hf, hfs, hfa, hs, hss, hsa⟩⟩
    · have hmem : e ∈ [failed, scheduled] := by rw [hmid]; simp
      rcases List.mem_pair.mp hmem with rfl | rfl
      · cases hf.symm.trans hstart.1
      · cases hs.symm.trans hstart.1

theorem tracked_absent (s : String) : Record.absent.Tracked s where
  noSilentRepeat before _ _ _ _ h := by simp [Record.absent] at h
  settled before _ _ h := by simp [Record.absent] at h

theorem Tracked.recordRequest (h : r.Tracked s) (id : String) (now : Instant) (reason : Option String)
    (row : ExecutionRow) : (recordRequest id now reason r row).Tracked s := by
  unfold Record.recordRequest
  split_ifs
  · exact h.frame [_] rfl (by simp [EventRow.Starts]) rfl
  · exact h

theorem Tracked.recordOwnRequest (h : r.Tracked s) (id : String) (now : Instant) (reason : Option String)
    (row : ExecutionRow) : (recordOwnRequest id now reason r row).Tracked s := by
  unfold Record.recordOwnRequest
  split_ifs
  · exact h.frame [_] rfl (by simp [EventRow.Starts]) rfl
  · exact h

end Tracked

end Record

/-- The operation starts the step while it is RUNNING, or resolves it. -/
def Op.Restarts (s : String) (r : Record) : Op V → Prop
  | startStep _ s' _ => s' = s ∧ r.Running s
  | resolveStep _ s' _ _ _ => s' = s
  | _ => False

namespace Record

/-- **Attempts.**  Every move keeps `Tracked`, except a restart or a resolution of the step. -/
theorem Step.tracked {now : Instant} {id s : String} {op : Op V} {r r' : Record}
    (h : Step store now id op r r') (hn : ¬ op.Restarts s r) (ht : r.Tracked s) : r'.Tracked s := by
  -- a write to the row of a step that does not make it PENDING
  have written : ∀ {s' : String} {f : StepRow → StepRow}, (∀ st, (f st).attempts = st.attempts) →
      (∀ st, (f st).state ≠ .pending) → ∀ st, r.steps s = some st → st.state ≠ .pending →
        ∃ st', (r.modifyStep s' f).steps s = some st' ∧ st'.attempts = st.attempts ∧ st'.state ≠ .pending := by
    intro s' f hatt hstate st hst hp
    by_cases he : s = s'
    · subst he
      exact ⟨f st, by simp [hst], hatt st, hstate st⟩
    · exact ⟨st, by simp [he, hst], rfl, hp⟩
  cases h with
  | submit absent fresh hp =>
    refine ht.append [_] rfl (by simp [EventRow.Starts]) fun st hst hstate => ⟨st, ?_, rfl, hstate⟩
    refine (if_neg fun hmem => ?_).trans hst
    cases (fresh s hmem).symm.trans hst
  | claim => exact ht.frame [_] rfl (by simp [EventRow.Starts]) rfl
  | renew => exact ht.frame [_] rfl (by simp [EventRow.Starts]) rfl
  | release => exact ht.frame [] (List.append_nil _).symm (by simp) rfl
  | expire => exact ht.frame [_] rfl (by simp [EventRow.Starts]) rfl
  | @startStep c s' key _ row st _ _ h source =>
    by_cases he : s' = s
    · subst he
      have pending : st.state = .pending := by
        rcases List.mem_pair.mp source with hs | hs
        · exact hs
        · exact absurd ⟨rfl, st, h.step_eq, hs⟩ hn
      exact ht.start { st with
          state := .running, attempts := st.attempts + 1, startedAt := now, finishedAt := none, idempotencyKey := key }
        h.step_eq pending rfl (by simp [h.step_eq]) rfl (by simp)
    · exact ht.frame [_] rfl (by simp [EventRow.Starts, he]) (if_neg (Ne.symm he))
  | completeStep => exact ht.append [_] rfl (by simp [EventRow.Starts]) (written (fun _ => rfl) (by simp))
  | yieldExecution => exact ht.frame [_] rfl (by simp [EventRow.Starts]) rfl
  | skipStep => exact ht.append [_] rfl (by simp [EventRow.Starts]) (written (fun _ => rfl) (by simp))
  | failStepDeadline => exact ht.frame [_] rfl (by simp [EventRow.Starts]) rfl
  | failStep =>
    exact ht.append [_, _] (List.append_assoc ..) (by simp [EventRow.Starts])
      (written (fun _ => rfl) (by simp [failedAttempt]))
  | @retryStep c s' _ _ due _ _ row st _ _ hs =>
    by_cases he : s' = s
    · subst he
      exact ht.retry hs.step_eq (List.append_assoc ..) rfl rfl rfl rfl rfl rfl
    · exact ht.frame [_, _] (List.append_assoc ..) (by simp [EventRow.Starts]) (if_neg (Ne.symm he))
  | markUnknown =>
    exact ht.append [_, _] (List.append_assoc ..) (by simp [EventRow.Starts])
      (written (fun _ => rfl) (by simp))
  | @resolveStep c s' =>
    exact ht.frame [_] rfl (by simp [EventRow.Starts]) (if_neg fun he => hn he.symm)
  | completeExecution => exact ht.frame [_] rfl (by simp [EventRow.Starts]) rfl
  | failExecution => exact ht.frame [_] rfl (by simp [EventRow.Starts]) rfl
  | timeOutExecution => exact ht.frame [_] rfl (by simp [EventRow.Starts]) rfl
  | requestLive => exact ht.recordRequest ..
  | requestFinish =>
    exact (ht.recordRequest id now _ _).frame [_] rfl (by simp [EventRow.Starts]) rfl
  | acknowledge =>
    exact (ht.recordOwnRequest id now _ _).frame [_] rfl (by simp [EventRow.Starts]) rfl
  | markWaiting => exact ht.frame [_] rfl (by simp [EventRow.Starts]) rfl
  | resume => exact ht.frame [_] rfl (by simp [EventRow.Starts]) rfl

end Record

end Xyberos.Durable
