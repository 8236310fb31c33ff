import Xyberos.Durable.System

/-!
# Xyberos.Durable.Heartbeat — what one turn of the heartbeat does

`Watch.Step` lists what a turn of `_watch` can do to the record of its execution and to itself, with everything it
saw; `Heartbeat.turn_step` proves that it does nothing else.  A refused renewal raises the lease error, which ends the
task quietly, unless a cancellation request is recorded: then it raises the state error, which the task does not
catch.  A `Vigil` is a heartbeat among other calls of the store.
-/

set_option autoImplicit false

namespace Xyberos.Durable

open Txn

variable {V : Type} {j : Journal} {now : Instant}

/-! ## Refused renewals -/

@[simp] theorem durableLeaseError_isInstance (message : String) :
    (durableLeaseError message).isInstance "DurableLeaseError" = true := rfl

@[simp] theorem durableStateError_isInstance (message : String) :
    (durableStateError message).isInstance "DurableLeaseError" = false := rfl

/-- What `_explain_refused_write` raises depends on the request. -/
theorem explainRefusedWrite_class (α : Type) {c : Claim V} (now : Instant) (expected : String) {row : ExecutionRow}
    (hrow : j.executions.get? c.executionId = some row) :
    ∃ e, (explainRefusedWrite c now expected : Tx α).run j = .error e ∧
      (e.isInstance "DurableLeaseError" = true ↔ row.cancellationRequestedAt = none) := by
  unfold explainRefusedWrite
  dsimp only
  rw [run_bind_of (run_select _ _), hrow]
  dsimp only
  cases hq : row.cancellationRequestedAt with
  | some t => exact ⟨_, by rw [if_pos (by simp)]; rfl, by simp⟩
  | none =>
    rw [if_neg (by simp), run_bind_of (run_select _ _)]
    cases j.leases.get? c.executionId with
    | none => exact ⟨_, rfl, by simp⟩
    | some l =>
      dsimp only
      split_ifs
      · exact ⟨_, rfl, by simp⟩
      · exact ⟨_, rfl, by simp⟩

/-- A renewal that the lease does not allow. -/
theorem renewLease_refused (store : JournalStore V) {c : Claim V} (ttl : Option Duration) {row : ExecutionRow}
    (hrow : j.executions.get? c.executionId = some row) (hg : ¬ j.LeaseGuard c now) :
    ∃ e, (store.renewLease c ttl now).commit j = (.error e, j) ∧
      (e.isInstance "DurableLeaseError" = true ↔ row.cancellationRequestedAt = none) := by
  obtain ⟨e, he, hclass⟩ := explainRefusedWrite_class (Claim V) now "lease renewal" hrow
  refine ⟨e, commit_of_error ?_, hclass⟩
  unfold JournalStore.renewLease
  dsimp only
  rw [run_write, Journal.updateLease_of_neg fun l hl hp => hg ⟨l, hl, hp⟩]
  exact he

theorem commit_cancellationRequested {id : String} {row : ExecutionRow} (hrow : j.executions.get? id = some row) :
    (JournalStore.cancellationRequested id).commit j = (.ok row.cancellationRequestedAt.isSome, j) :=
  commit_of_ok (JournalStore.run_cancellationRequested.mpr ⟨row, hrow, rfl, rfl⟩)

/-! ## Turns -/

/-- A turn of `_watch`: where the task stood, and where it stands afterwards with the token. -/
inductive Watch.Step (c : Claim V) (now : Instant) (row : ExecutionRow) (j : Journal) (token : Option String) :
    Watch → Watch → Option String → Prop
  | wake : Step c now row j token .sleeping .checking token
  | asked (reason : String) (requested : row.cancellationRequestedAt ≠ none) :
      Step c now row j token .checking .returned (token.or (some reason))
  | unasked (unrequested : row.cancellationRequestedAt = none) : Step c now row j token .checking .renewing token
  | renewed (guard : j.LeaseGuard c now) : Step c now row j token .renewing .sleeping token
  | lost (reason : String) (unguarded : ¬ j.LeaseGuard c now) (unrequested : row.cancellationRequestedAt = none) :
      Step c now row j token .renewing .returned (token.or (some reason))
  | refused (e : Exc) (unguarded : ¬ j.LeaseGuard c now) (requested : row.cancellationRequestedAt ≠ none) :
      Step c now row j token .renewing (.raised e) token
  | over {watch : Watch} (ended : watch = .returned ∨ ∃ e, watch = .raised e) : Step c now row j token watch watch token

theorem cancelToken_none (token : Option String) : cancelToken token none = token := Option.or_none

/-- **Heartbeat.**  A turn of `_watch` is one of these steps. -/
theorem Heartbeat.turn_step (store : JournalStore V) (ttl : Duration) (now : Instant) (h : Heartbeat V)
    (token : Option String) {row : ExecutionRow} (hrow : j.executions.get? h.claim.executionId = some row) :
    (h.turn store ttl now j token).2.1.claim = h.claim ∧
      Watch.Step h.claim now row j token h.watch (h.turn store ttl now j token).2.1.watch
        (h.turn store ttl now j token).2.2 := by
  obtain ⟨c, watch⟩ := h
  cases watch with
  | sleeping => exact ⟨rfl, .wake⟩
  | returned => exact ⟨rfl, .over (.inl rfl)⟩
  | raised e => exact ⟨rfl, .over (.inr ⟨e, rfl⟩)⟩
  | checking =>
    refine ⟨rfl, ?_⟩
    have hcommit : ((Op.cancellationRequested c.executionId : Op V).txn store now).commit j = _ :=
      commit_cancellationRequested hrow
    simp only [turn, hcommit]
    cases hq : row.cancellationRequestedAt with
    | none =>
      simp only [Option.isSome_none, Watch.answered, Bool.false_eq_true, if_false, cancelToken_none]
      exact .unasked hq
    | some t => exact .asked _ (by simp [hq])
  | renewing =>
    refine ⟨rfl, ?_⟩
    by_cases hg : j.LeaseGuard c now
    · have hcommit : ((Op.renewLease c (some ttl)).txn store now).commit j = (.ok _, _) :=
        commit_of_ok (JournalStore.run_renewLease.mpr ⟨hg, rfl, rfl⟩)
      simp only [turn, hcommit, Watch.answered, cancelToken_none]
      exact .renewed hg
    · obtain ⟨e, hcommit, hclass⟩ := renewLease_refused store (some ttl) hrow hg
      have hcommit' : ((Op.renewLease c (some ttl)).txn store now).commit j = (.error e, j) := hcommit
      simp only [turn, hcommit', Watch.answered]
      by_cases hq : row.cancellationRequestedAt = none
      · rw [if_pos (hclass.mpr hq)]
        exact .lost _ hg hq
      · rw [if_neg fun hi => hq (hclass.mp hi), cancelToken_none]
        exact .refused e hg hq

/-! ## A heartbeat among others -/

/-- The journal, a heartbeat, and the token of the step it watches over. -/
structure Vigil (V : Type) where
  journal : Journal
  heartbeat : Heartbeat V
  token : Option String := none

/-- What happens next: the heartbeat goes on, or anybody calls the store. -/
inductive Vigil.Event (V : Type)
  | turn (now : Instant)
  | call (x : Call V)

namespace Vigil

variable (store : JournalStore V) (ttl : Duration)

def exec (s : Vigil V) : Event V → Vigil V
  | .turn now =>
    let r := s.heartbeat.turn store ttl now s.journal s.token
    ⟨r.1, r.2.1, r.2.2⟩
  | .call x => { s with journal := x.exec store s.journal }

/-- The row of the execution under watch. -/
def row (s : Vigil V) : Option ExecutionRow := s.journal.executions.get? s.heartbeat.claim.executionId

/-- A cancellation request is recorded. -/
def Requested (s : Vigil V) : Prop := ∃ row ∈ s.row, row.cancellationRequestedAt ≠ none

/-- The lease does not carry the claim any more, or it has expired. -/
def Lost (s : Vigil V) (now : Instant) : Prop := ¬ s.journal.LeaseGuard s.heartbeat.claim now

/-- The task has returned, and the token is cancelled. -/
def Signalled (s : Vigil V) : Prop := s.heartbeat.watch = .returned ∧ s.token.isSome

/-- The heartbeat does not raise, it returns only after it cancelled the token, and a turn that finds a request or the
lease lost makes it do so. -/
structure Signals (s : Vigil V) (x : Event V) : Prop where
  quiet : ∀ e, (s.exec store ttl x).heartbeat.watch ≠ .raised e
  cancelled : (s.exec store ttl x).heartbeat.watch = .returned → (s.exec store ttl x).token.isSome
  requested : ∀ now, x = .turn now → s.heartbeat.watch = .checking → s.Requested → (s.exec store ttl x).Signalled
  lost : ∀ now, x = .turn now → s.heartbeat.watch = .renewing → s.Lost now → (s.exec store ttl x).Signalled

/-- The lease is renewed when it is lost and a request is recorded. -/
def Slips (s : Vigil V) (x : Event V) : Prop :=
  ∃ now, x = .turn now ∧ s.heartbeat.watch = .renewing ∧ s.Lost now ∧ s.Requested

/-- The execution is in a journal that calls of the store have made, and the heartbeat has not raised. -/
structure Kept (s : Vigil V) : Prop where
  reached : ∃ l, s.journal = runCalls store l
  present : s.row ≠ none
  quiet : ∀ e, s.heartbeat.watch ≠ .raised e
  cancelled : s.heartbeat.watch = .returned → s.token.isSome

variable {store ttl} {s : Vigil V} {x : Event V}

/-- Whatever is called, the execution stays. -/
theorem Kept.call (hs : Kept store s) (x : Call V) : Kept store { s with journal := x.exec store s.journal } where
  reached := by
    obtain ⟨l, hl⟩ := hs.reached
    exact ⟨l ++ [x], by rw [runCalls, after_concat, hl]; rfl⟩
  present := by
    obtain ⟨l, hl⟩ := hs.reached
    have hrooted := run_rooted store l s.heartbeat.claim.executionId
    rw [← hl] at hrooted
    rcases x.exec_moves store s.journal s.heartbeat.claim.executionId with he | hstep
    · have hrow := congrArg Record.row he
      exact fun hn => hs.present (hrow.symm.trans hn)
    · exact hstep.row_ne_none hrooted
  quiet := hs.quiet
  cancelled := hs.cancelled

theorem turn_step (ttl : Duration) (hs : Kept store s) (now : Instant) : ∃ row, s.row = some row ∧
    (s.exec store ttl (.turn now)).heartbeat.claim = s.heartbeat.claim ∧
    Watch.Step s.heartbeat.claim now row s.journal s.token s.heartbeat.watch
      (s.exec store ttl (.turn now)).heartbeat.watch (s.exec store ttl (.turn now)).token := by
  obtain ⟨row, hrow⟩ := Option.ne_none_iff_exists'.mp hs.present
  exact ⟨row, hrow, s.heartbeat.turn_step store ttl now s.token hrow⟩

theorem slips_turn {now : Instant} :
    Slips s (.turn now) ↔ s.heartbeat.watch = .renewing ∧ s.Lost now ∧ s.Requested := by
  constructor
  · rintro ⟨now', hx, hslips⟩
    cases hx
    exact hslips
  · exact fun h => ⟨now, rfl, h⟩

theorem slips_call {x : Call V} : ¬ Slips s (.call x) := by
  rintro ⟨now, hx, -⟩
  cases hx

theorem signals_turn (now : Instant) : Signals store ttl s (.turn now) ↔
    (∀ e, (s.exec store ttl (.turn now)).heartbeat.watch ≠ .raised e) ∧
    ((s.exec store ttl (.turn now)).heartbeat.watch = .returned → (s.exec store ttl (.turn now)).token.isSome) ∧
    (s.heartbeat.watch = .checking → s.Requested → (s.exec store ttl (.turn now)).Signalled) ∧
    (s.heartbeat.watch = .renewing → s.Lost now → (s.exec store ttl (.turn now)).Signalled) := by
  constructor
  · exact fun h => ⟨h.quiet, h.cancelled, h.requested now rfl, h.lost now rfl⟩
  · rintro ⟨hquiet, hcancelled, hrequested, hlost⟩
    refine ⟨hquiet, hcancelled, ?_, ?_⟩
    · rintro now' hx
      cases hx
      exact hrequested
    · rintro now' hx
      cases hx
      exact hlost

/-- **A step.**  The heartbeat signals unless it slips. -/
theorem signals_iff (ttl : Duration) (hs : Kept store s) (x : Event V) : Signals store ttl s x ↔ ¬ Slips s x := by
  cases x with
  | call x =>
    refine iff_of_true ⟨hs.quiet, hs.cancelled, ?_, ?_⟩ slips_call
    · rintro now hx
      cases hx
    · rintro now hx
      cases hx
  | turn now =>
    obtain ⟨row, hrow, -, hstep⟩ := turn_step ttl hs now
    have hrequested : s.Requested ↔ row.cancellationRequestedAt ≠ none := by
      unfold Requested
      rw [hrow]
      simp
    have hquiet := hs.quiet
    have hcancelled := hs.cancelled
    have hlost : s.Lost now ↔ ¬ s.journal.LeaseGuard s.heartbeat.claim now := Iff.rfl
    rw [signals_turn, slips_turn, hrequested, hlost]
    unfold Signalled
    generalize (s.exec store ttl (.turn now)).heartbeat.watch = after at hstep ⊢
    generalize (s.exec store ttl (.turn now)).token = token at hstep ⊢
    generalize s.heartbeat.watch = watch at hstep hquiet hcancelled ⊢
    cases hstep with
    | wake => simp
    | asked reason requested => simp
    | unasked unrequested => simp [unrequested]
    | renewed guard => simp [guard]
    | lost reason unguarded unrequested => simp [unrequested]
    | refused e unguarded requested => simp [unguarded, requested]
    | _ =>
      rename_i ended
      rcases ended with rfl | ⟨e, rfl⟩
      · simpa using hcancelled
      · exact absurd rfl (hquiet e)

/-- A turn that does not slip keeps everything. -/
theorem Kept.turn (hs : Kept store s) {now : Instant} (hslips : ¬ Slips s (.turn now)) :
    Kept store (s.exec store ttl (.turn now)) := by
  obtain ⟨-, -, hclaim, -⟩ := turn_step ttl hs now
  have hsignals := (signals_iff ttl hs (.turn now)).mpr hslips
  have hjournal : (∃ l, (s.exec store ttl (.turn now)).journal = runCalls store l) ∧
      (s.exec store ttl (.turn now)).journal.executions.get? s.heartbeat.claim.executionId ≠ none := by
    rcases s.heartbeat.turn_journal store ttl now s.journal s.token with hj | ⟨op, -, hj⟩
    · have hj : (s.exec store ttl (.turn now)).journal = s.journal := hj
      rw [hj]
      exact ⟨hs.reached, hs.present⟩
    · have hj : (s.exec store ttl (.turn now)).journal = Call.exec store s.journal ⟨op, now⟩ := hj
      rw [hj]
      exact ⟨(hs.call ⟨op, now⟩).reached, (hs.call ⟨op, now⟩).present⟩
  refine ⟨hjournal.1, ?_, hsignals.quiet, hsignals.cancelled⟩
  show (s.exec store ttl (.turn now)).journal.executions.get? (s.exec store ttl (.turn now)).heartbeat.claim.executionId ≠ _
  rw [hclaim]
  exact hjournal.2

/-- **The heartbeat ends only by signalling the step.**  In a run of a heartbeat among any calls of the store, at any
times, every step signals as it should, if and only if no renewal finds the lease lost and a request recorded. -/
theorem heartbeat_signals_iff (store : JournalStore V) (ttl : Duration) (claim : Claim V) (before : List (Call V))
    (hrow : (runCalls store before).executions.get? claim.executionId ≠ none) (l : List (Event V)) :
    Steps (exec store ttl) (Signals store ttl) ⟨runCalls store before, ⟨claim, .sleeping⟩, none⟩ l ↔
      Steps (exec store ttl) (fun s x => ¬ Slips s x) ⟨runCalls store before, ⟨claim, .sleeping⟩, none⟩ l := by
  have hstart : Kept store ⟨runCalls store before, ⟨claim, .sleeping⟩, none⟩ := by
    refine ⟨⟨before, rfl⟩, hrow, ?_, ?_⟩
    · rintro e h
      cases h
    · rintro h
      cases h
  refine steps_iff_of_kept hstart (fun s x _ hs => signals_iff ttl hs x) fun s x _ hs hslips => ?_
  cases x with
  | call x => exact hs.call x
  | turn now => exact hs.turn hslips

instance (s : Vigil V) : Decidable s.Requested :=
  inferInstanceAs (Decidable (∃ row ∈ s.row, row.cancellationRequestedAt ≠ none))

instance (s : Vigil V) (now : Instant) : Decidable (s.Lost now) :=
  inferInstanceAs (Decidable (¬ s.journal.LeaseGuard s.heartbeat.claim now))

instance (s : Vigil V) : (x : Event V) → Decidable (Slips s x)
  | .turn now => decidable_of_iff (s.heartbeat.watch = .renewing ∧ s.Lost now ∧ s.Requested) slips_turn.symm
  | .call _ => .isFalse slips_call

/-- The heartbeat of the claim on `"e"`, among what happens in `l`, does not raise and signals as it should. -/
abbrev Watches (l : List (Event String)) : Prop :=
  Steps (exec textStore 30000000) (Signals textStore 30000000)
    ⟨runCalls textStore claimedOnce, ⟨oneStepClaim 1 1, .sleeping⟩, none⟩ l

/-- The heartbeat renews once, then an operator asks for cancellation, and it signals. -/
theorem heartbeat_signals_requested :
    Watches [.turn 10, .turn 10, .turn 10, .call ⟨.requestCancellation "e" none, 15⟩, .turn 20, .turn 20] :=
  (heartbeat_signals_iff textStore 30000000 (oneStepClaim 1 1) claimedOnce (by decide +kernel) _).mpr (by decide +kernel)

theorem exists_raised {watch : Watch} (h : watch ∉ [.sleeping, .checking, .renewing, .returned]) :
    ∃ e, watch = .raised e := by
  cases watch with
  | raised e => exact ⟨e, rfl⟩
  | _ => simp at h

/-- The heartbeat wakes up after the lease has expired and finds no request; a request is made; the renewal raises. -/
theorem heartbeat_raises : ¬ Watches
    [.turn 40000000, .turn 40000000, .call ⟨.requestCancellation "e" none, 40000000⟩, .turn 40000000] := by
  rintro ⟨-, -, -, hlast, -⟩
  have hwatch : (after (exec textStore 30000000) ⟨runCalls textStore claimedOnce, ⟨oneStepClaim 1 1, .sleeping⟩, none⟩
      [.turn 40000000, .turn 40000000, .call ⟨.requestCancellation "e" none, 40000000⟩,
        .turn 40000000]).heartbeat.watch ∉ [.sleeping, .checking, .renewing, .returned] := by decide +kernel
  obtain ⟨e, he⟩ := exists_raised hwatch
  exact hlast.quiet e he

end Vigil

end Xyberos.Durable
