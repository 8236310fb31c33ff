import Xyberos.Durable.Recovering

/-!
# Xyberos.Durable.Sweep — a recovery pass

`recover` lists the executions whose lease has expired, by the time it expired, and then asks `claim_next` for one
execution after the other; `claim_next` chooses by the time of submission, and takes whatever is ready.  A pass deals
with its list only if, each time it asks, the execution whose turn it is was submitted before all others that are ready
then (`sweep_complete_iff`).  Which are ready can be told from the journal before the pass: those that were ready,
without the ones that have been dealt with, but for the ones the pass has returned to the queue.
-/

set_option autoImplicit false

namespace Xyberos.Durable

open Proc (Runs World)

variable {V : Type}

/-! ## Recovery passes -/

/-- A call of `recover`, and the executions it goes through. -/
structure Sweep (V : Type) where
  store : JournalStore V
  definitions : DefinitionLookup V
  activities : String → ActivityPolicy
  reconcilers : Reconcilers V
  owner : String
  ttl : Option Duration
  limit : ℕ
  journal : Journal
  clock : Instant
  trace : List (Request V × Desk V)
  result : Except Exc RecoveryReport
  finish : Desk V
  listed : List String

/-- The report says what was decided about the execution. -/
def RecoveryReport.Decides (report : RecoveryReport) (id : String) : Prop :=
  id ∈ report.resumed ++ report.parked ++ report.stopped ∧ ∃ decision, (id, decision) ∈ report.decisions

/-- The execution is in the journal, and is not RUNNING. -/
def Desk.Stopped (id : String) (s : Desk V) : Prop := ∃ row, (s.record id).row = some row ∧ row.status ≠ .running

namespace Sweep

variable (x : Sweep V)

def start : Desk V := ⟨x.journal, x.clock, none, none⟩

def turns : List (Turn V) := turnsOf x.reconcilers x.trace

/-- The pass is made alone, where `json.dumps` raises no error about definitions, and goes through the first `limit`
executions that `expired_leases` lists. -/
structure Alone : Prop where
  plain : x.store.Plain
  runs : Runs (asking x.store x.reconcilers)
    (recover x.store x.definitions x.activities x.owner x.ttl x.limit) x.start x.trace x.result x.finish
  lists : ∃ y found, x.trace.head? = some (.store .expiredLeases, y) ∧
    (((Op.expiredLeases : Op V).txn x.store y.clock).run y.journal) = .ok (found, y.journal) ∧
      x.listed = found.take x.limit

/-- Each listed execution is left in another status than RUNNING with a decision in the report, and the other executions
are left as they were. -/
structure Complete : Prop where
  decided : ∀ id ∈ x.listed, x.finish.Stopped id ∧ ∃ report, x.result = .ok report ∧ report.Decides id
  others : ∀ id ∉ x.listed, x.finish.record id = x.journal.record id

/-- The claim that is handed out on an execution in a turn. -/
def claim (id : String) (row : ExecutionRow) (turn : Turn V) : Claim V :=
  JournalStore.claimOf x.store id row (Record.claimLease x.owner turn.claimed
    (turn.claimed + x.ttl.getD x.store.leaseTtl) (x.journal.leases.get? id))

/-- The execution is returned to the queue in its turn. -/
def Requeued (id : String) (row : ExecutionRow) (turn : Turn V) : Prop :=
  Returns x.store x.definitions x.activities (x.claim id row turn) (x.journal.record id) turn

/-- `claim_next` may take the execution when the pass has dealt with those of `dealt`: it was ready before, and its turn
has not come, or it was returned to the queue in its turn, and its deadline has not passed. -/
def Open (dealt : List (String × Turn V)) (now : Instant) (id : String) : Prop :=
  ∃ row ∈ x.journal.executions.get? id, (id ∉ dealt.map Prod.fst ∧ x.journal.Eligible now id row) ∨
    ∃ turn, (id, turn) ∈ dealt ∧ x.Requeued id row turn ∧ ∀ d ∈ row.deadlineAt, now < d

/-- The execution was submitted before all others that `claim_next` may take. -/
structure Due (dealt : List (String × Turn V)) (now : Instant) (id : String) : Prop where
  opened : x.Open dealt now id
  first : ∀ id', x.Open dealt now id' → id' ≠ id → x.journal.Before id id'

/-- The execution can be dealt with in this turn. -/
structure Goes (dealt : List (String × Turn V)) (id : String) (turn : Turn V) : Prop where
  named : ¬ isBlank x.owner
  due : x.Due dealt turn.claimed id
  manageable : ∃ row ∈ x.journal.executions.get? id,
    Manageable x.store x.definitions (x.claim id row turn) (x.journal.record id) turn

/-- So can all of these, one after the other. -/
def GoesOn : List (String × Turn V) → List (String × Turn V) → Prop
  | _, [] => True
  | dealt, (id, turn) :: rest => x.Goes dealt id turn ∧ GoesOn (dealt ++ [(id, turn)]) rest

/-- **The condition of a pass**: in each turn the listed execution that is dealt with was submitted before all others
that are open then, and nothing gets in the way. -/
def Orderly : Prop := x.GoesOn [] (x.listed.zip x.turns)

/-- What holds before a turn of the loop. -/
structure Sweeping (dealt : List (String × Turn V)) (s : Desk V) : Prop where
  idle : s.heartbeat = none
  order : s.journal.submissions = x.journal.submissions
  others : ∀ id, id ∉ dealt.map Prod.fst → s.record id = x.journal.record id
  left : ∀ p ∈ dealt, ∃ row ∈ x.journal.executions.get? p.1,
    ∃ status ∈ [ExecutionStatus.pending, .waiting, .cancelled, .failed], s.Left (x.claim p.1 row p.2) status ∧
      (status = .pending ↔ x.Requeued p.1 row p.2)

end Sweep

/-! ## The claim of a turn -/

section Claiming

variable {x : Sweep V} {dealt : List (String × Turn V)} {s : Desk V} {now : Instant} {id : String}

theorem Desk.Left.congr {c : Claim V} {status : ExecutionStatus} {t : Desk V} (h : s.Left c status)
    (hrecord : t.record c.executionId = s.record c.executionId) : t.Left c status :=
  ⟨hrecord ▸ h.row, hrecord ▸ h.retry⟩

theorem Sweep.Sweeping.wait (h : x.Sweeping dealt s) (delay : ℕ) : x.Sweeping dealt (s.wait delay) :=
  ⟨h.idle, h.order, h.others, fun p hp => by
    obtain ⟨row, hrow, status, hstatus, hleft, hiff⟩ := h.left p hp
    exact ⟨row, hrow, status, hstatus, hleft.wait delay, hiff⟩⟩

/-- During the pass the executions that are ready are the open ones. -/
theorem Sweep.Sweeping.ready_iff (h : x.Sweeping dealt s) (hnodup : (dealt.map Prod.fst).Nodup) :
    s.journal.Ready now id ↔ x.Open dealt now id := by
  by_cases hid : id ∈ dealt.map Prod.fst
  · obtain ⟨⟨id', turn⟩, hmem, rfl⟩ := List.mem_map.mp hid
    obtain ⟨row, hrow, status, hstatus, ⟨⟨row', hrow', hs', hcancel, hdeadline⟩, hretry⟩, hiff⟩ := h.left _ hmem
    have hretry : s.journal.retries.get? id' = none := hretry
    have hrow' : s.journal.executions.get? id' = some row' := hrow'
    have hdeadline : row'.deadlineAt = row.deadlineAt := hdeadline
    constructor
    · rintro ⟨row'', hrow'', -, hd, helig⟩
      cases hrow'.symm.trans hrow''
      rw [hs'] at helig
      have hpending : status = .pending := by
        revert hstatus helig
        cases status <;> simp
      exact ⟨row, hrow, .inr ⟨turn, hmem, hiff.mp hpending, hdeadline ▸ hd⟩⟩
    · rintro ⟨row'', hrow'', ⟨hnot, -⟩ | ⟨turn', hmem', hrequeued, hd⟩⟩
      · exact absurd hid hnot
      · cases Option.mem_unique hrow hrow''
        obtain rfl : turn = turn' := by
          have := List.inj_on_of_nodup_map hnodup hmem hmem' rfl
          exact congrArg Prod.snd this
        have hpending := hiff.mpr hrequeued
        have hnone : row'.cancellationRequestedAt = none := by
          rw [hrequeued.1] at hcancel
          simpa using hcancel
        refine ⟨row', hrow', .inl hnone, hdeadline ▸ hd, .inl ⟨by simp [hs', hpending], ?_⟩⟩
        simp [hretry]
  · have hrecord := h.others id hid
    have hsame : ∀ row, row ∈ s.journal.executions.get? id ∧ s.journal.Eligible now id row ↔
        row ∈ x.journal.executions.get? id ∧ x.journal.Eligible now id row := by
      intro row
      show (s.record id).row = some row ∧ (s.record id).Eligible now row ↔
        (x.journal.record id).row = some row ∧ (x.journal.record id).Eligible now row
      rw [hrecord]
    refine (exists_congr hsame).trans (exists_congr fun row => and_congr_right fun _ => ?_)
    refine ⟨fun helig => .inl ⟨hid, helig⟩, ?_⟩
    rintro (⟨-, helig⟩ | ⟨turn, hmem, -⟩)
    · exact helig
    · exact absurd (List.mem_map_of_mem hmem) hid

theorem Sweep.Sweeping.candidate_iff (h : x.Sweeping dealt s) (hnodup : (dealt.map Prod.fst).Nodup) :
    s.journal.candidate now = some id ↔ x.Due dealt now id := by
  have hbefore : ∀ id', s.journal.Before id id' ↔ x.journal.Before id id' := by
    intro id'
    rw [Journal.Before, Journal.Before, h.order]
  simp only [Journal.candidate_eq_some_iff, h.ready_iff hnodup, hbefore]
  exact ⟨fun ⟨hopen, hfirst⟩ => ⟨hopen, hfirst⟩, fun ⟨hopen, hfirst⟩ => ⟨hopen, hfirst⟩⟩

/-- What `claim_next` answers. -/
theorem claimNext_cases (store : JournalStore V) (owner : String) (ttl : Option Duration) (now : Instant)
    (j : Journal) :
    (isBlank owner = true ∧ ∃ e, ((Op.claimNext owner ttl).txn store now).run j = .error e) ∨
    (j.candidate now = none ∧ ((Op.claimNext owner ttl).txn store now).run j = .ok (none, j)) ∨
    ∃ id row, ¬ isBlank owner = true ∧ j.candidate now = some id ∧ j.executions.get? id = some row ∧
      ((Op.claimNext owner ttl).txn store now).run j = .ok (some (JournalStore.claimOf store id row
        (Record.claimLease owner now (now + ttl.getD store.leaseTtl) (j.leases.get? id))),
        JournalStore.claimed id owner now (now + ttl.getD store.leaseTtl)
          (Record.claimLease owner now (now + ttl.getD store.leaseTtl) (j.leases.get? id)) j) := by
  show (_ ∧ ∃ e, (store.claimNext owner ttl now).run j = .error e) ∨
    (_ ∧ (store.claimNext owner ttl now).run j = _) ∨ ∃ id row, _ ∧ _ ∧ _ ∧ (store.claimNext owner ttl now).run j = _
  unfold JournalStore.claimNext
  split_ifs with hblank
  · exact .inl ⟨hblank, _, rfl⟩
  rw [Txn.run_bind_of (Txn.run_select _ _)]
  cases hcand : j.candidate now with
  | none => exact .inr (.inl ⟨rfl, rfl⟩)
  | some id =>
    obtain ⟨row, hrow, helig⟩ := JournalStore.candidate_eligible hcand
    refine .inr (.inr ⟨id, row, hblank, rfl, hrow, ?_⟩)
    exact JournalStore.run_claimCandidate hrow (JournalStore.Claimable.of_eligible helig)

/-- The desk after a claim of the turn. -/
theorem claims_of_claim (turn : Turn V) (hs : s.heartbeat = none) {row : ExecutionRow}
    (hrow : x.journal.executions.get? id = some row) (hrecord : s.record id = x.journal.record id)
    (hturn : turn.claimed = s.clock) {j : Journal}
    (hj : j = JournalStore.claimed id x.owner s.clock (s.clock + x.ttl.getD x.store.leaseTtl)
      (Record.claimLease x.owner s.clock (s.clock + x.ttl.getD x.store.leaseTtl)
        (s.journal.leases.get? id)) s.journal) :
    ({ s with journal := j } : Desk V).Claims (x.claim id row turn) ∧
      (({ s with journal := j } : Desk V).record id).steps = (x.journal.record id).steps ∧
      (∀ id' ≠ id, ({ s with journal := j } : Desk V).record id' = s.record id') ∧
      j.submissions = s.journal.submissions := by
  have hrow' : s.journal.executions.get? id = some row := (congrArg Record.row hrecord).trans hrow
  have hlease : s.journal.leases.get? id = x.journal.leases.get? id := congrArg Record.lease hrecord
  have hself : j.record id = _ := (congrArg (Journal.record · id) hj).trans (Moves.record_claimed_self hrow')
  refine ⟨⟨hs, ⟨?_, ?_⟩, ?_⟩, ?_, ?_, ?_⟩
  · show ∃ row', (j.record id).row = some row' ∧ _
    rw [hself]
    exact ⟨_, rfl, rfl, rfl, rfl⟩
  · show (j.record id).retry = none
    rw [hself]
    rfl
  · show ∃ l, (j.record id).lease = some l ∧ _
    rw [hself]
    refine ⟨_, rfl, rfl, ?_, ?_⟩
    · show _ = (x.claim id row turn).fence
      simp [Sweep.claim, JournalStore.claimOf, Record.claimLease, hlease]
    · simp [Sweep.claim, JournalStore.claimOf, Record.claimLease, hturn]
  · show (j.record id).steps = _
    rw [hself, ← hrecord]
    rfl
  · intro id' hne
    show j.record id' = s.journal.record id'
    rw [hj]
    simp [JournalStore.claimed, hne]
  · rw [hj]
    exact Journal.submissions_modifyExecution fun _ => rfl

/-- A turn has been taken. -/
theorem Sweep.Sweeping.next (h : x.Sweeping dealt s) (turn : Turn V) {row : ExecutionRow}
    (hrow : x.journal.executions.get? id = some row) (hid : id ∉ dealt.map Prod.fst) {s₁ t : Desk V}
    (hframe : ∀ id' ≠ id, s₁.record id' = s.record id') (horder : s₁.journal.submissions = s.journal.submissions)
    {status : ExecutionStatus} (hstatus : status ∈ [ExecutionStatus.pending, .waiting, .cancelled, .failed])
    (hsettles : Settles (x.claim id row turn) status s₁ t) (hiff : status = .pending ↔ x.Requeued id row turn) :
    x.Sweeping (dealt ++ [(id, turn)]) t := by
  have hothers : ∀ id' ≠ id, t.record id' = s.record id' :=
    fun id' hne => (hsettles.frame id' hne).trans (hframe id' hne)
  refine ⟨hsettles.idle, hsettles.order.trans (horder.trans h.order), ?_, ?_⟩
  · intro id' hnot
    simp only [List.map_append, List.map_cons, List.map_nil, List.mem_append, List.mem_singleton, not_or] at hnot
    exact (hothers id' hnot.2).trans (h.others id' hnot.1)
  · intro p hp
    rcases List.mem_append.mp hp with hp | hp
    · obtain ⟨row', hrow', status', hstatus', hleft', hiff'⟩ := h.left p hp
      have hne : p.1 ≠ id := fun he => hid (he ▸ List.mem_map_of_mem hp)
      exact ⟨row', hrow', status', hstatus', hleft'.congr (hothers p.1 hne), hiff'⟩
    · cases List.mem_singleton.mp hp
      exact ⟨row, hrow, status, hstatus, hsettles.left, hiff⟩

end Claiming

/-! ## The loop -/

section Loop

variable {x : Sweep V} {dealt : List (String × Turn V)} {ids : List String} {report : RecoveryReport} {s t : Desk V}
  {l : List (Request V × Desk V)} {r : Except Exc RecoveryReport}

theorem RecoveryReport.decides_record (report : RecoveryReport) (id : String) (d : RecoveryAction × StepState) :
    (report.record id d).Decides id ∧ ∀ id', report.Decides id' → (report.record id d).Decides id' := by
  obtain ⟨action, state⟩ := d
  cases action <;> simp only [record, Decides, List.mem_append, List.mem_singleton, Prod.mk.injEq] <;> grind

theorem RecoveryReport.decides_stopped (report : RecoveryReport) (id decision : String) :
    ({ report with
      stopped := report.stopped ++ [id]
      decisions := report.decisions ++ [(id, decision)] } : RecoveryReport).Decides id ∧
    ∀ id', report.Decides id' → ({ report with
      stopped := report.stopped ++ [id]
      decisions := report.decisions ++ [(id, decision)] } : RecoveryReport).Decides id' := by
  simp only [Decides, List.mem_append, List.mem_singleton, Prod.mk.injEq]
  grind

theorem Settles.stopped {c : Claim V} {status : ExecutionStatus} (h : Settles c status s t) (hne : status ≠ .running) :
    t.Stopped c.executionId := by
  obtain ⟨row, hrow, hstatus, -⟩ := h.left.row
  exact ⟨row, hrow, hstatus ▸ hne⟩

/-- The loop begins with a claim. -/
theorem head_recoverEach {W : World (Request V) Request.Reply Exc (Desk V)} {store : JournalStore V}
    {definitions : DefinitionLookup V} {activities : String → ActivityPolicy} {owner : String} {ttl : Option Duration}
    (h : Runs W (recoverEach store definitions activities owner ttl ids report) s l r t) :
    ∀ y ∈ l.head?, IsClaim y = true := by
  cases ids with
  | nil =>
    obtain ⟨rfl, -, -⟩ := Proc.runs_pure.mp h
    simp
  | cons id rest =>
    unfold recoverEach at h
    rcases Proc.runs_bind.mp h with ⟨e, -, h'⟩ | ⟨claim?, s', l₁, l₂, rfl, h', -⟩
    · obtain ⟨s', -, rfl, -⟩ := Proc.runs_request.mp h'
      simp [IsClaim]
    · obtain ⟨s', -, rfl, -⟩ := Proc.runs_request.mp h'
      simp [IsClaim]

theorem isClaim_of_only (h : ∀ y ∈ l, ∀ owner ttl, y.1 ≠ .store (.claimNext owner ttl)) :
    ∀ y ∈ l, IsClaim y = false := by
  intro y hy
  have hne := h y hy
  unfold IsClaim
  split
  · exact absurd rfl (hne _ _)
  · rfl

/-- What the loop leaves behind when nothing goes wrong. -/
structure Swept (ids : List String) (report : RecoveryReport) (s : Desk V) (r : Except Exc RecoveryReport)
    (t : Desk V) : Prop where
  stopped : ∀ id ∈ ids, t.Stopped id
  frame : ∀ id ∉ ids, t.record id = s.record id
  report : ∃ rep, r = .ok rep ∧ (∀ id ∈ ids, rep.Decides id) ∧ ∀ id, report.Decides id → rep.Decides id

/-- The end of the loop: all was well, or something was left undone. -/
def LoopEnds (x : Sweep V) (dealt : List (String × Turn V)) (ids : List String) (report : RecoveryReport) (s : Desk V)
    (l : List (Request V × Desk V)) (r : Except Exc RecoveryReport) (t : Desk V) : Prop :=
  x.GoesOn dealt (ids.zip (turnsOf x.reconcilers l)) ∧ Swept ids report s r t ∨
    ¬ x.GoesOn dealt (ids.zip (turnsOf x.reconcilers l)) ∧ ∃ id ∈ ids, ¬ t.Stopped id ∨ ∃ e, r = .error e

/-- One execution was dealt with, and the loop goes on. -/
theorem loopEnds_cons {id : String} {rest : List String} {report' : RecoveryReport} {y s₁ : Desk V}
    {m : List (Request V × Desk V)} {owner : String} {ttl : Option Duration} (hnodup : (id :: rest).Nodup)
    (hm : ∀ z ∈ m, IsClaim z = false) (hl : ∀ z ∈ l.head?, IsClaim z = true)
    (hgoes : x.Goes dealt id (turnOf x.reconcilers y.clock m)) (hstopped : s₁.Stopped id)
    (hframe : ∀ id' ≠ id, s₁.record id' = s.record id')
    (hreport : report'.Decides id ∧ ∀ id', report.Decides id' → report'.Decides id')
    (h : LoopEnds x (dealt ++ [(id, turnOf x.reconcilers y.clock m)]) rest report' s₁ l r t) :
    LoopEnds x dealt (id :: rest) report s ([(.store (.claimNext owner ttl), y)] ++ (m ++ l)) r t := by
  obtain ⟨hid, -⟩ := List.nodup_cons.mp hnodup
  unfold LoopEnds
  rw [turnsOf_claim hm hl, List.zip_cons_cons]
  rcases h with ⟨hgoesOn, hswept⟩ | ⟨hnot, id', hid', hleft⟩
  · obtain ⟨rep, hr, hdecides, hkept⟩ := hswept.report
    refine .inl ⟨⟨hgoes, hgoesOn⟩, ?_, ?_, rep, hr, ?_, ?_⟩
    · intro id' hid'
      rcases List.mem_cons.mp hid' with rfl | hid'
      · obtain ⟨row, hrow, hne⟩ := hstopped
        exact ⟨row, by rwa [hswept.frame _ hid], hne⟩
      · exact hswept.stopped id' hid'
    · intro id' hid'
      obtain ⟨hne, hnot⟩ := not_or.mp fun h => hid' (List.mem_cons.mpr h)
      rw [hswept.frame id' hnot, hframe id' hne]
    · intro id' hid'
      rcases List.mem_cons.mp hid' with rfl | hid'
      · exact hkept _ hreport.1
      · exact hdecides id' hid'
    · exact fun id' hd => hkept id' (hreport.2 id' hd)
  · exact .inr ⟨fun h => hnot h.2, id', List.mem_cons_of_mem _ hid', hleft⟩

/-- The loop ends in a turn in which the execution cannot be dealt with. -/
theorem loopEnds_stuck {id : String} {rest : List String} {y : Desk V} {m : List (Request V × Desk V)} {owner : String}
    {ttl : Option Duration} (hm : ∀ z ∈ m, IsClaim z = false)
    (hgoes : ¬ x.Goes dealt id (turnOf x.reconcilers y.clock m)) (hleft : ¬ t.Stopped id ∨ ∃ e, r = .error e) :
    LoopEnds x dealt (id :: rest) report s ([(.store (.claimNext owner ttl), y)] ++ m) r t := by
  refine .inr ⟨fun h => hgoes ?_, id, List.mem_cons_self, hleft⟩
  rw [← List.append_nil m, turnsOf_claim hm (by simp)] at h
  exact h.1

theorem runs_recoverEach (hplain : x.store.Plain) (h : x.Sweeping dealt s) (hnodup : (dealt.map Prod.fst ++ ids).Nodup)
    (hrunning : ∀ id ∈ ids, ∃ row, x.journal.executions.get? id = some row ∧ row.status = .running)
    (hruns : Runs (asking x.store x.reconcilers)
      (recoverEach x.store x.definitions x.activities x.owner x.ttl ids report) s l r t) :
    LoopEnds x dealt ids report s l r t := by
  induction ids generalizing dealt s l report with
  | nil =>
    obtain ⟨rfl, rfl, rfl⟩ := Proc.runs_pure.mp hruns
    exact .inl ⟨trivial, by simp, fun _ _ => rfl, report, rfl, by simp, fun _ hd => hd⟩
  | cons id rest ih =>
    obtain ⟨row, hrow, hstatus⟩ := hrunning id List.mem_cons_self
    obtain ⟨hdealt, hids, hapart⟩ := List.nodup_append.mp hnodup
    have hid : id ∉ dealt.map Prod.fst := fun hmem => hapart id hmem id List.mem_cons_self rfl
    unfold recoverEach at hruns
    rcases Proc.runs_bind.mp hruns with ⟨e, rfl, h₁⟩ | ⟨claim?, s', l₁, l₂, rfl, h₁, h₂⟩
    · -- the claim is refused
      obtain ⟨delay, rfl, hr, -⟩ := runs_call h.idle (runs_alone h₁)
      rw [← List.append_nil [_]]
      refine loopEnds_stuck (by simp) (fun hgoes => ?_) (.inr ⟨e, rfl⟩)
      rcases claimNext_cases x.store x.owner x.ttl (s.wait delay).clock s.journal with
        ⟨hblank, -⟩ | ⟨-, hrun⟩ | ⟨id', row', -, -, -, hrun⟩
      · exact hgoes.named hblank
      · cases hr.trans (congrArg Prod.fst (Txn.commit_of_ok hrun))
      · cases hr.trans (congrArg Prod.fst (Txn.commit_of_ok hrun))
    obtain ⟨delay, rfl, hr, rfl⟩ := runs_call h.idle (runs_alone h₁)
    set y := s.wait delay with hy_eq
    have hy : x.Sweeping dealt y := h.wait delay
    have hrecord : y.record id = x.journal.record id := hy.others id hid
    -- another execution is handed out, or none
    have passed : ∀ {claim? j}, ((Op.claimNext x.owner x.ttl).txn x.store y.clock).run y.journal = .ok (claim?, j) →
        y.journal.candidate y.clock ≠ some id → j.record id = y.record id → l₂ = [] →
        t = y.call x.store (.claimNext x.owner x.ttl) →
        LoopEnds x dealt (id :: rest) report s ([(.store (.claimNext x.owner x.ttl), y)] ++ l₂) r t := by
      rintro claim? j hrun hcand hj rfl rfl
      refine loopEnds_stuck (by simp) (fun hgoes => hcand ((hy.candidate_iff hdealt).mpr hgoes.due)) (.inl ?_)
      rintro ⟨row', hrow', hne⟩
      rw [Desk.call_of_run hrun] at hrow'
      have hrow' : (j.record id).row = some row' := hrow'
      rw [hj, hrecord] at hrow'
      cases hrow.symm.trans hrow'
      exact hne hstatus
    rcases claimNext_cases x.store x.owner x.ttl y.clock y.journal with
      ⟨-, e, hrun⟩ | ⟨hcand, hrun⟩ | ⟨id', row', hblank, hcand, hrow', hrun⟩
    · cases hr.trans (congrArg Prod.fst (Txn.commit_of_error hrun))
    · cases hr.trans (congrArg Prod.fst (Txn.commit_of_ok hrun))
      obtain ⟨rfl, rfl, rfl⟩ := Proc.runs_pure.mp h₂
      exact passed hrun (by simp [hcand]) rfl rfl rfl
    cases hr.trans (congrArg Prod.fst (Txn.commit_of_ok hrun))
    dsimp only at h₂
    split_ifs at h₂ with hne
    · obtain ⟨rfl, rfl, rfl⟩ := Proc.runs_pure.mp h₂
      have hne : id' ≠ id := hne
      refine passed hrun (fun he => hne (Option.some.inj (hcand.symm.trans he))) ?_ rfl rfl
      show Journal.record _ id = y.journal.record id
      simp [JournalStore.claimed, hne.symm]
    -- the execution whose turn it is
    obtain rfl : id' = id := not_not.mp hne
    obtain rfl : row = row' := Option.some.inj (hrow.symm.trans ((congrArg Record.row hrecord).symm.trans hrow'))
    have hlease : y.journal.leases.get? id' = x.journal.leases.get? id' := congrArg Record.lease hrecord
    obtain ⟨hclaims, hsteps, hframe, horder⟩ :=
      claims_of_claim (turnOf x.reconcilers y.clock []) hy.idle hrow hrecord rfl rfl
    rw [← Desk.call_of_run hrun] at hclaims hsteps hframe
    rw [hlease] at h₂
    set c := x.claim id' row (turnOf x.reconcilers y.clock []) with hc
    have hdue : x.Due dealt y.clock id' := (hy.candidate_iff hdealt).mp hcand
    have hnodup' : ∀ turn, ((dealt ++ [(id', turn)]).map Prod.fst ++ rest).Nodup := by
      intro turn
      simpa using hnodup
    have hrest := fun id hid => hrunning id (List.mem_cons_of_mem _ hid)
    have unmanageable : ∀ {m}, ¬ Manageable x.store x.definitions c
        ((y.call x.store (.claimNext x.owner x.ttl)).record id') (turnOf x.reconcilers y.clock m) →
        ¬ x.Goes dealt id' (turnOf x.reconcilers y.clock m) := by
      intro m hnot hgoes
      obtain ⟨row', hrow', hmanageable⟩ := hgoes.manageable
      cases Option.mem_unique hrow hrow'
      exact hnot ((Manageable.congr hsteps).mpr hmanageable)
    rcases Proc.runs_bind.mp h₂ with ⟨e, -, h₃⟩ | ⟨decided, s₂, l₃, l₄, rfl, h₃, h₄⟩
    · obtain ⟨z, hz, -⟩ := Proc.runs_attempt.mp h₃
      cases hz
    obtain ⟨z, hz, h₅⟩ := Proc.runs_attempt.mp h₃
    cases hz
    have hm : ∀ z ∈ l₃, IsClaim z = false := isClaim_of_only (h₅.only recoverOne_only)
    have horder' : (y.call x.store (.claimNext x.owner x.ttl)).journal.submissions = y.journal.submissions := by
      rw [Desk.call_of_run hrun]
      exact horder
    rcases runs_recoverOne y.clock hplain hclaims h₅ with
      ⟨⟨d, rfl⟩, hmanageable, status, hstatus', hsettles, hiff⟩ |
        ⟨e, rfl, hunplanned, hanswers, hwritten, delay', rfl⟩ |
        ⟨e, rfl, hother, hnot⟩
    · -- it was decided what became of it
      have hnext := hy.next (turnOf x.reconcilers y.clock l₃) hrow hid hframe horder' hstatus' hsettles
        (hiff.trans (Returns.congr hsteps))
      have hne : status ≠ .running := by
        rintro rfl
        simp at hstatus'
      exact loopEnds_cons (List.nodup_append.mp hnodup).2.1 hm (head_recoverEach h₄)
        ⟨hblank, hdue, row, hrow, (Manageable.congr hsteps).mp hmanageable⟩ (hsettles.stopped hne)
        (fun id hne => (hsettles.frame id hne).trans (hframe id hne)) (report.decides_record id' d)
        (ih hnext (hnodup' _) hrest h₄)
    · dsimp only at h₄
      split_ifs at h₄ with hversion
      · -- the definition is missing or has changed: the execution is failed
        have hfails : Op.Stops c (.failExecution c .incompatibleDefinition e.message) := rfl
        have hclaims' := hclaims.wait delay'
        rcases Proc.runs_bind.mp h₄ with ⟨e', rfl, h₆⟩ | ⟨u, s₃, l₅, l₆, rfl, h₆, h₇⟩
        · obtain ⟨-, ⟨-, ⟨a, ha⟩, -⟩ | ⟨hlate, -⟩⟩ := runs_stops _ hplain hfails hclaims' hunplanned.1 h₆
          · cases ha
          have hm' : ∀ z ∈ l₄, IsClaim z = false := by
            obtain ⟨delay'', rfl, -, -⟩ := runs_call hclaims'.idle (runs_alone h₆)
            simp [IsClaim]
          refine loopEnds_stuck (m := l₃ ++ l₄) (fun z hz => (List.mem_append.mp hz).elim (hm z) (hm' z))
            (unmanageable fun hmanageable => ?_) (.inr ⟨e', rfl⟩)
          obtain ⟨w, hw, hlate⟩ := hlate
          exact hlate (hmanageable.prompt w (by simp [turnOf, hw]))
        · obtain ⟨hno, ⟨hprompt, -, hsettles⟩ | ⟨-, e', he', -⟩⟩ := runs_stops _ hplain hfails hclaims' hunplanned.1 h₆
          · have hm' : ∀ z ∈ l₅, IsClaim z = false := by
              obtain ⟨delay'', rfl, -, -⟩ := runs_call hclaims'.idle (runs_alone h₆)
              simp [IsClaim]
            have hmanageable : Manageable x.store x.definitions c
                ((y.call x.store (.claimNext x.owner x.ttl)).record id') (turnOf x.reconcilers y.clock (l₃ ++ l₅)) := by
              refine ⟨?_, fun e' he' => ?_, fun _ plan hplan => ?_, fun step _ d hd => ?_⟩
              · simpa [turnOf, hwritten] using hprompt
              · cases hunplanned.2.2.symm.trans he'.2.2
                exact hversion
              · cases hunplanned.2.2.symm.trans hplan
              · simp only [turnOf, answersOf_append, hanswers, List.nil_append] at hd
                exact absurd hd (hno d)
            have hsettles' : Settles c .failed (y.call x.store (.claimNext x.owner x.ttl)) s₃ :=
              ⟨hsettles.idle, hsettles.left, hsettles.frame, hsettles.order⟩
            have hnext := hy.next (turnOf x.reconcilers y.clock (l₃ ++ l₅)) hrow hid hframe horder' (by simp)
              hsettles' (iff_of_false (by decide) fun hrequeued => by
                obtain ⟨-, hquiet | ⟨⟨plan, hplan⟩, -⟩⟩ := (Returns.congr hsteps).mpr hrequeued
                · obtain ⟨step, hstep⟩ := hunplanned.2.1
                  exact hquiet step hstep
                · cases hunplanned.2.2.symm.trans hplan)
            rw [← List.append_assoc l₃ l₅ l₆]
            exact loopEnds_cons (List.nodup_append.mp hnodup).2.1
              (fun z hz => (List.mem_append.mp hz).elim (hm z) (hm' z)) (head_recoverEach h₇)
              ⟨hblank, hdue, row, hrow, (Manageable.congr hsteps).mp hmanageable⟩
              (hsettles.stopped (by simp [Op.leaves]))
              (fun id hne => (hsettles'.frame id hne).trans (hframe id hne))
              (report.decides_stopped id' "incompatible definition") (ih hnext (hnodup' _) hrest h₇)
          · cases he'
      · -- the plan raises something else
        obtain ⟨rfl, rfl, rfl⟩ := Proc.runs_raise.mp h₄
        rw [List.append_nil]
        exact loopEnds_stuck hm (unmanageable fun hmanageable => hversion (hmanageable.planned e hunplanned))
          (.inr ⟨e, rfl⟩)
    · -- something was in the way
      dsimp only at h₄
      split_ifs at h₄ with hversion
      · cases hversion.symm.trans hother
      obtain ⟨rfl, rfl, rfl⟩ := Proc.runs_raise.mp h₄
      rw [List.append_nil]
      exact loopEnds_stuck hm (unmanageable hnot) (.inr ⟨e, rfl⟩)

end Loop

/-! ## The pass -/

/-- The executions `expired_leases` lists are RUNNING, and each is listed once. -/
theorem expiredLeases_spec {j : Journal} {now : Instant} {found : List String}
    (h : (JournalStore.expiredLeases now).run j = .ok (found, j)) :
    found.Nodup ∧ ∀ id ∈ found, ∃ row, j.executions.get? id = some row ∧ row.status = .running := by
  set p := fun (id : String) (l : LeaseRow) => l.expiresAt ≤ now ∧ ∃ r ∈ j.executions.get? id, r.status = .running
  have hperm : found.Perm ((j.leases.select p).map Prod.fst) := by
    cases h
    exact (List.perm_insertionSort _ _).map _
  constructor
  · exact hperm.nodup_iff.mpr (j.leases.nodup.sublist (List.filter_sublist.map Prod.fst))
  · intro id hid
    obtain ⟨x, hx, rfl⟩ := List.mem_map.mp (hperm.mem_iff.mp hid)
    obtain ⟨-, -, row, hrow, hs⟩ := Table.mem_select.mp hx
    exact ⟨row, hrow, hs⟩

/-- A reconciler that cannot decide. -/
def undecided : Reconciliation String := ⟨.outcomeUnknown, "null", none, by decide⟩

def undecidedEnv : Env String := ⟨0, .ok "null", .ok (.decided undecided)⟩

theorem runs_drive_undecided {α : Type} (p : Coroutine String α) (s : Desk String) :
    Runs (asking textStore fun _ _ _ => undecided) p s (drive textStore undecidedEnv p s).1
      (drive textStore undecidedEnv p s).2.1 (drive textStore undecidedEnv p s).2.2 := by
  induction p generalizing s with
  | ret a => exact .ret
  | raise e => exact .raise
  | ask q k ih =>
    have hanswer : (asking textStore fun _ _ _ => undecided).answers q s
        (answer textStore s.clock undecidedEnv s.journal s.heartbeat s.token q).1
        ⟨(answer textStore s.clock undecidedEnv s.journal s.heartbeat s.token q).2.1, s.clock,
          (answer textStore s.clock undecidedEnv s.journal s.heartbeat s.token q).2.2.1,
          (answer textStore s.clock undecidedEnv s.journal s.heartbeat s.token q).2.2.2⟩ := by
      refine ⟨⟨undecidedEnv, trivial, rfl, rfl⟩, ?_⟩
      cases q with
      | reconcile step value => rfl
      | _ => trivial
    exact .ask (World.Later.refl s) hanswer (ih _ _)

/-- A pass at 70 seconds, in which no time passes. -/
def sweepOf (j : Journal) (listed : List String) : Sweep String :=
  let run := drive textStore undecidedEnv
    (recover textStore (fun _ _ => some oneStep) (fun _ => .reconcile) "r" none 100) ⟨j, 70000000, none, none⟩
  ⟨textStore, fun _ _ => some oneStep, fun _ => .reconcile, fun _ _ _ => undecided, "r", none, 100, j, 70000000, run.1,
    run.2.1, run.2.2, listed⟩

theorem sweepOf_alone {j : Journal} {listed : List String}
    (hlisted : (((Op.expiredLeases : Op String).txn textStore 70000000).commit j).1 = .ok listed)
    (hlimit : listed.take 100 = listed) : (sweepOf j listed).Alone where
  plain := fun value e h => by cases h
  runs := runs_drive_undecided _ _
  lists := ⟨⟨j, 70000000, none, none⟩, listed, rfl, Txn.run_of_commit hlisted, hlimit.symm⟩

/-- `"e"` and `"f"` are submitted one after the other; the worker that claims `"e"` for half a minute dies in the middle
of its step, and the one that claims `"f"` for a minute before it starts the step. -/
def abandonedInOrder : Journal :=
  runCalls textStore [⟨.submit oneStep "null" none "e" none, 0⟩, ⟨.submit oneStep "null" none "f" none, 1⟩,
    ⟨.claimNext "o" none, 2⟩, ⟨.startStep (oneStepClaim 1 2) "a" none, 3⟩, ⟨.claimNext "o" (some 60000000), 4⟩]

theorem turns_inOrder : (sweepOf abandonedInOrder ["e", "f"]).turns =
    [⟨70000000, [undecided], [70000000]⟩, ⟨70000000, [], [70000000]⟩] := by
  rfl

/-- The executions there are. -/
theorem mem_inOrder {id : String} {row : ExecutionRow} (hrow : abandonedInOrder.executions.get? id = some row) :
    id = "e" ∨ id = "f" := by
  have hkeys : abandonedInOrder.executions.rows.map Prod.fst = ["e", "f"] := by decide +kernel
  have hmem : id ∈ abandonedInOrder.executions.rows.map Prod.fst := List.mem_map_of_mem (Table.get?_eq_some_iff.mp hrow)
  simpa [hkeys] using hmem

/-- Only the step of `"e"` was interrupted. -/
theorem running_inOrder {id step : String} : (abandonedInOrder.record id).Running step ↔ id = "e" ∧ step = "a" := by
  have hlist : (abandonedInOrder.steps.rows.filter fun x => x.2.state = .running).map Prod.fst = [("e", "a")] := by
    decide +kernel
  have hmem : (id, step) ∈ (abandonedInOrder.steps.rows.filter fun x => x.2.state = .running).map Prod.fst ↔
      (abandonedInOrder.record id).Running step := by
    rw [List.mem_map]
    constructor
    · rintro ⟨⟨key, st⟩, hst, rfl⟩
      obtain ⟨hst, hrunning⟩ := List.mem_filter.mp hst
      exact ⟨st, Table.get?_eq_some_iff.mpr hst, by simpa using hrunning⟩
    · rintro ⟨st, hst, hrunning⟩
      exact ⟨((id, step), st), List.mem_filter.mpr ⟨Table.get?_eq_some_iff.mp hst, by simpa using hrunning⟩, rfl⟩
  rw [← hmem, hlist, List.mem_singleton, Prod.mk.injEq]

theorem sweep_orderly_inOrder : (sweepOf abandonedInOrder ["e", "f"]).Orderly := by
  set x := sweepOf abandonedInOrder ["e", "f"] with hx
  have he : ∃ row ∈ x.journal.executions.get? "e", x.journal.Eligible 70000000 "e" row ∧
      row.cancellationRequestedAt = none ∧
      (recoveryPlan x.store x.definitions (x.claim "e" row ⟨70000000, [undecided], [70000000]⟩)
        (x.journal.record "e").steps).isOk = true := by decide +kernel
  have hf : ∃ row ∈ x.journal.executions.get? "f", x.journal.Eligible 70000000 "f" row := by decide +kernel
  obtain ⟨row, hrow, heligible, hcancel, hplan⟩ := he
  obtain ⟨row', hrow', heligible'⟩ := hf
  have hbefore : x.journal.Before "e" "f" := ⟨0, 1, by decide +kernel, by decide +kernel, .inl (by decide)⟩
  unfold Sweep.Orderly
  rw [turns_inOrder]
  refine ⟨⟨by decide, ⟨⟨row, hrow, .inl ⟨by simp, heligible⟩⟩, ?_⟩, row, hrow, ?_⟩,
    ⟨by decide, ⟨⟨row', hrow', .inl ⟨by simp, heligible'⟩⟩, ?_⟩, row', hrow', ?_⟩, trivial⟩
  · rintro id' ⟨_, hid', -⟩ hne
    rcases mem_inOrder hid' with rfl | rfl
    · exact absurd rfl hne
    · exact hbefore
  · -- the reconciler is asked about the one step of `"e"`
    refine ⟨by simp [Sweep.claim, JournalStore.claimOf, Record.claimLease, hx, sweepOf, textStore], ?_, ?_, ?_⟩
    · rintro e ⟨-, -, hraises⟩
      rw [hraises] at hplan
      cases hplan
    · intro _ _ _ a b ha hb
      rw [(running_inOrder.mp ha).2, (running_inOrder.mp hb).2]
    · rintro step - d hd
      rw [List.mem_singleton.mp hd]
      exact ⟨none, rfl⟩
  · rintro id' ⟨r, hid', hopen⟩ hne
    rcases mem_inOrder hid' with rfl | rfl
    · -- `"e"` was parked
      rcases hopen with ⟨hnot, -⟩ | ⟨turn, hmem, ⟨-, hquiet | ⟨-, hdecided⟩⟩, -⟩
      · exact absurd (by simp) hnot
      · exact absurd (running_inOrder.mpr ⟨rfl, rfl⟩) (hquiet "a")
      · obtain ⟨-, hall⟩ := hdecided "a" (running_inOrder.mpr ⟨rfl, rfl⟩)
        cases List.mem_singleton.mp hmem
        exact absurd rfl (hall undecided (by simp))
    · exact absurd rfl hne
  · have hquiet : ∀ step, ¬ (x.journal.record "f").Running step :=
      fun step h => absurd (running_inOrder.mp h).1 (by decide)
    refine ⟨by simp [Sweep.claim, JournalStore.claimOf, Record.claimLease, hx, sweepOf, textStore], ?_,
      fun _ _ _ a _ ha => absurd ha (hquiet a), fun step h => absurd h (hquiet step)⟩
    rintro e ⟨-, ⟨step, hstep⟩, -⟩
    exact absurd hstep (hquiet step)

/-- `"e"` and `"f"` are submitted one after the other; the worker that claims `"e"` for a minute dies, and so does the
one that claims `"f"` for half a minute. -/
def abandonedTwice : Journal :=
  runCalls textStore [⟨.submit oneStep "null" none "e" none, 0⟩, ⟨.submit oneStep "null" none "f" none, 1⟩,
    ⟨.claimNext "o" (some 60000000), 2⟩, ⟨.claimNext "o" (some 30000000), 3⟩]

end Xyberos.Durable
