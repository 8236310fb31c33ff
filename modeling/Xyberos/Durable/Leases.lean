import Xyberos.Durable.Runs

/-!
# Xyberos.Durable.Leases — leases of executions nobody owns

Runs over one clock that never goes back: a tick waits, then calls the store at the time it then is.
`no_idle_lease_iff`: in every state of a run, no PENDING, RETRYING or WAITING execution has a lease that is still
live, exactly when no call of the run parks an execution.  `mark_waiting` and `mark_step_outcome_unknown` leave the
lease as it is, where `yield_execution`, `fail_step` and `resolve_step` end it.
-/

set_option autoImplicit false

namespace Xyberos.Durable

variable {V : Type} {store : JournalStore V}

/-! ## One clock -/

/-- A call made some time after the previous one. -/
structure Tick (V : Type) where
  op : Op V
  delay : ℕ

/-- The journal and the clock. -/
structure Timed where
  journal : Journal
  clock : Instant

/-- The time at which a tick calls. -/
def Tick.now (x : Tick V) (s : Timed) : Instant := s.clock + x.delay

def Tick.exec (store : JournalStore V) (s : Timed) (x : Tick V) : Timed where
  journal := Call.exec store s.journal ⟨x.op, x.now s⟩
  clock := x.now s

theorem Tick.clock_le (s : Timed) (x : Tick V) : s.clock ≤ x.now s := Int.le_add_of_nonneg_right (Int.natCast_nonneg _)

namespace Record

/-! ## Idle executions -/

/-- If the execution belongs to nobody, its lease, if any, has expired. -/
def NoIdleLease (now : Instant) (r : Record) : Prop :=
  ∀ row, r.row = some row → row.status ∈ [ExecutionStatus.pending, .retrying, .waiting] → r.Unleased now

section NoIdleLease

variable {now : Instant} {r r' : Record}

theorem Unleased.mono {now' : Instant} (h : r.Unleased now) (hle : now ≤ now') : r.Unleased now' :=
  fun l hl => (h l hl).trans hle

theorem Guard.not_unleased {c : Claim V} (h : r.Guard c now) : ¬ r.Unleased now := by
  obtain ⟨l, hl, -, -, hlive⟩ := h
  exact fun hu => absurd (hu l hl) (not_le.mpr hlive)

theorem NoIdleLease.mono {now' : Instant} (h : r.NoIdleLease now) (hle : now ≤ now') : r.NoIdleLease now' :=
  fun row hrow hs => (h row hrow hs).mono hle

theorem NoIdleLease.of_unleased (h : r'.Unleased now) : r'.NoIdleLease now := fun _ _ _ => h

/-- The lease was ended. -/
theorem NoIdleLease.of_ended (h : r'.lease = r.lease.map fun l => { l with expiresAt := now }) :
    r'.NoIdleLease now := by
  refine .of_unleased fun l hl => ?_
  rw [Option.mem_def, h] at hl
  obtain ⟨l', -, rfl⟩ := Option.map_eq_some_iff.mp hl
  exact le_refl now

/-- The execution has an owner or is terminal. -/
theorem NoIdleLease.of_some {row' : ExecutionRow} (hr : r'.row = some row')
    (hs : row'.status ∉ [ExecutionStatus.pending, .retrying, .waiting]) : r'.NoIdleLease now := by
  intro row hrow hmem
  cases hr.symm.trans hrow
  exact absurd hmem hs

/-- Status and lease are the same. -/
theorem NoIdleLease.of_map {f : ExecutionRow → ExecutionRow} (h : r.NoIdleLease now) (hr : r'.row = r.row.map f)
    (hs : ∀ row, (f row).status = row.status) (hl : r'.lease = r.lease) : r'.NoIdleLease now := by
  intro row' hrow' hmem
  rw [hr] at hrow'
  obtain ⟨row, hrow, rfl⟩ := Option.map_eq_some_iff.mp hrow'
  rw [hs] at hmem
  intro l hl'
  exact h row hrow hmem l (hl ▸ hl')

end NoIdleLease

/-- Every move but the two that park an execution keeps it. -/
theorem Step.noIdleLease {now : Instant} {id : String} {op : Op V} {r r' : Record}
    (h : Step store now id op r r') (hroot : r.Rooted) (hr : r.NoIdleLease now)
    (hwait : ∀ c reason, op ≠ .markWaiting c reason)
    (hunknown : ∀ c s reason, op ≠ .markStepOutcomeUnknown c s reason) : r'.NoIdleLease now := by
  cases h with
  | submit absent =>
    refine .of_unleased fun l hl => ?_
    have hl' : r.lease = some l := hl
    rw [hroot absent] at hl'
    cases hl'
  | claim => exact .of_some rfl (by simp)
  | renew _ guard =>
    -- the owner of an idle execution has no live lease to renew
    intro row hrow hs
    exact absurd (hr row hrow hs) guard.not_unleased
  | release => exact .of_ended rfl
  | expire hrow => exact .of_some (congrArg (Option.map _) hrow) (by simp)
  | startStep => exact hr.of_map rfl (fun _ => rfl) rfl
  | completeStep => exact hr.of_map rfl (fun _ => rfl) rfl
  | yieldExecution => exact .of_ended rfl
  | skipStep => exact hr
  | failStepDeadline _ _ h => exact .of_some (congrArg (Option.map _) h.row_eq) (by simp)
  | failStep _ _ _ h => exact .of_some (congrArg (Option.map _) h.row_eq) (by simp)
  | retryStep => exact .of_ended rfl
  | markUnknown => exact absurd rfl (hunknown _ _ _)
  | resolveStep => exact .of_ended rfl
  | completeExecution _ _ h => exact .of_some (congrArg (Option.map _) h.row_eq) (by simp)
  | failExecution _ h => exact .of_some (congrArg (Option.map _) h.row_eq) (by simp)
  | timeOutExecution _ h => exact .of_some (congrArg (Option.map _) h.row_eq) (by simp)
  | requestLive hrow =>
    intro row' hrow' hmem
    rw [recordRequest_row hrow, Option.some.injEq] at hrow'
    have hs := hr _ hrow (by rw [← hrow'] at hmem; split_ifs at hmem <;> exact hmem)
    exact fun l hl => hs l (recordRequest_lease ▸ hl)
  | requestFinish hrow => exact .of_some (congrArg (Option.map _) (recordRequest_row hrow)) (by simp)
  | acknowledge _ hrow => exact .of_some (congrArg (Option.map _) (recordOwnRequest_row hrow)) (by simp)
  | markWaiting => exact absurd rfl (hwait _ _)
  | resume hrow waiting => exact .of_unleased (hr _ hrow (by rw [waiting]; decide))

theorem Step.of_markWaiting {now : Instant} {id reason : String} {c : Claim V} {r r' : Record}
    (h : Step store now id (.markWaiting c reason) r r') :
    c.executionId = id ∧ ∃ row, r.Accepts c now row .waiting := by
  cases h with
  | markWaiting hc h => exact ⟨hc, _, h⟩

theorem Step.of_markUnknown {now : Instant} {id s reason : String} {c : Claim V} {r r' : Record}
    (h : Step store now id (.markStepOutcomeUnknown c s reason) r r') :
    c.executionId = id ∧ ∃ row st, r.AcceptsStep c now s st .outcomeUnknown ∧ r.Accepts c now row .waiting := by
  cases h with
  | markUnknown hc hs h => exact ⟨hc, _, _, hs, h⟩

end Record

/-! ## Runs -/

/-- The call parks an execution: `mark_waiting` or `mark_step_outcome_unknown` by its owner, under a live lease and
without a cancellation request. -/
def Tick.Parks (x : Tick V) (s : Timed) : Prop :=
  ∃ (c : Claim V) (row : ExecutionRow), (s.journal.record c.executionId).Accepts c (x.now s) row .waiting ∧
    ((∃ reason, x.op = .markWaiting c reason) ∨
     (∃ step reason st, x.op = .markStepOutcomeUnknown c step reason ∧
        (s.journal.record c.executionId).AcceptsStep c (x.now s) step st .outcomeUnknown))

/-- No execution that belongs to nobody has a lease that is live now. -/
def Timed.NoIdleLease (s : Timed) : Prop := ∀ id, (s.journal.record id).NoIdleLease s.clock

def Timed.Rooted (s : Timed) : Prop := ∀ id, (s.journal.record id).Rooted

theorem Tick.exec_rooted {s : Timed} (h : s.Rooted) (x : Tick V) : (x.exec store s).Rooted := by
  intro id
  rcases Call.exec_moves store s.journal ⟨x.op, x.now s⟩ id with he | hs
  · exact he ▸ h id
  · exact fun hn => absurd hn (hs.row_ne_none (h id))

/-- A parked execution keeps its live lease. -/
theorem not_noIdleLease_of_parks {s : Timed} {x : Tick V} (h : x.Parks s) : ¬ (x.exec store s).NoIdleLease := by
  obtain ⟨op, delay⟩ := x
  obtain ⟨c, row, hrow, hop⟩ := h
  intro hn
  set now := Tick.now ⟨op, delay⟩ s
  -- the row is WAITING after the call, and the lease is the one that guarded it
  have hafter : ∀ r : Record, (Call.exec store s.journal ⟨op, now⟩).record c.executionId = r →
      r.row = some { row with status := .waiting, updatedAt := now, currentStep := none } →
      r.lease = (s.journal.record c.executionId).lease → False := by
    rintro r rfl hr hl
    exact hrow.guard.not_unleased fun l hl' => hn c.executionId _ hr (by simp) l (hl ▸ hl')
  rcases hop with ⟨reason, hop⟩ | ⟨step, reason, st, hop, hst⟩
  · cases hop
    have hrun : (JournalStore.markWaiting c reason now).run s.journal = .ok ((), _) :=
      JournalStore.run_markWaiting.mpr ⟨row, hrow, rfl⟩
    refine hafter _ (congrArg (Journal.record · _) (Call.exec_of_run (x := ⟨.markWaiting c reason, now⟩) hrun)) ?_ ?_
    · simp [show s.journal.executions.get? c.executionId = some row from hrow.row_eq]
    · simp
  · cases hop
    have hrun : (JournalStore.markStepOutcomeUnknown c step reason now).run s.journal = .ok ((), _) :=
      JournalStore.run_markStepOutcomeUnknown.mpr ⟨row, st, hst, hrow, rfl⟩
    refine hafter _ (congrArg (Journal.record · _)
      (Call.exec_of_run (x := ⟨.markStepOutcomeUnknown c step reason, now⟩) hrun)) ?_ ?_
    · simp [show s.journal.executions.get? c.executionId = some row from hrow.row_eq]
    · simp

theorem noIdleLease_iff {s : Timed} (hroot : s.Rooted) (hs : s.NoIdleLease) (x : Tick V) :
    (x.exec store s).NoIdleLease ↔ ¬ x.Parks s := by
  refine ⟨fun hn h => not_noIdleLease_of_parks h hn, fun hn id => ?_⟩
  have hr : (s.journal.record id).NoIdleLease (x.now s) := (hs id).mono (x.clock_le s)
  obtain ⟨op, delay⟩ := x
  rcases Call.exec_moves store s.journal ⟨op, Tick.now ⟨op, delay⟩ s⟩ id with he | h
  · show (Journal.record _ id).NoIdleLease _
    exact he ▸ hr
  · refine h.noIdleLease (hroot id) hr ?_ ?_
    · rintro c reason rfl
      obtain ⟨rfl, row, hrow⟩ := h.of_markWaiting
      exact hn ⟨c, row, hrow, .inl ⟨reason, rfl⟩⟩
    · rintro c step reason rfl
      obtain ⟨rfl, row, st, hst, hrow⟩ := h.of_markUnknown
      exact hn ⟨c, row, hrow, .inr ⟨step, reason, st, rfl, hst⟩⟩

/-- **Idle leases.**  In every state of a run over one clock, the executions that are PENDING, RETRYING or WAITING
have no live lease, exactly when no call of the run parks an execution. -/
theorem no_idle_lease_iff (store : JournalStore V) (start : Instant) (l : List (Tick V)) :
    Steps (Tick.exec store) (fun s x => (x.exec store s).NoIdleLease) ⟨{}, start⟩ l ↔
      Steps (Tick.exec store) (fun s x => ¬ x.Parks s) ⟨{}, start⟩ l :=
  steps_exact (I := Timed.Rooted) (P := Timed.NoIdleLease) (fun _ _ => rfl) (fun _ _ hrow => by cases hrow)
    (fun _ x h => x.exec_rooted h) fun _ x hroot hs => noIdleLease_iff hroot hs x

/-- `"e"` is claimed and parked by its owner. -/
def parkedOnce : List (Tick String) :=
  [⟨.submit oneStep "null" none "e" none, 0⟩, ⟨.claimNext "o" none, 1⟩,
   ⟨.markWaiting (oneStepClaim 1 1) "an operator decides", 1⟩]

theorem parked_under_live_lease :
    ¬ Steps (Tick.exec textStore) (fun s x => (x.exec textStore s).NoIdleLease) ⟨{}, 0⟩ parkedOnce := by
  rintro ⟨-, -, hn, -⟩
  obtain ⟨row, hrow, hs, hu⟩ : ∃ row ∈ (after (Tick.exec textStore) ⟨{}, 0⟩ parkedOnce).journal.executions.get? "e",
      row.status ∈ [ExecutionStatus.pending, .retrying, .waiting] ∧
      ¬ (after (Tick.exec textStore) ⟨{}, 0⟩ parkedOnce).journal.Unleased "e" 2 := by decide
  exact hu (hn "e" row hrow hs)

end Xyberos.Durable
