import Xyberos.Durable.Fencing
import Xyberos.Durable.Leases

/-!
# Xyberos.Durable.Submission — what an execution was submitted with, and the claims on it

A submission fixes the workflow, the version, the fingerprint, the input, the time of submission and the deadline of
an execution; no operation changes them (`Step.sameWork`).  A claim that is handed out says the same
(`Claim.About`), and goes on doing so.  A `Ledger` is a journal with its clock and the claims handed out so far: a
worker acts under one of them.
-/

set_option autoImplicit false

namespace Xyberos.Durable

variable {V : Type} {store : JournalStore V}

/-! ## The submission -/

/-- The two rows are of the same submission. -/
structure ExecutionRow.SameWork (row row' : ExecutionRow) : Prop where
  workflow : row'.workflow = row.workflow
  version : row'.version = row.version
  fingerprint : row'.fingerprint = row.fingerprint
  input : row'.input = row.input
  submittedAt : row'.submittedAt = row.submittedAt
  deadlineAt : row'.deadlineAt = row.deadlineAt

/-- The claim says what the row says about the submission. -/
structure Claim.About (store : JournalStore V) (c : Claim V) (row : ExecutionRow) : Prop where
  workflow : c.workflow = row.workflow
  version : c.version = row.version
  fingerprint : c.fingerprint = row.fingerprint
  input : c.input = store.load row.input
  deadlineAt : c.deadlineAt = row.deadlineAt

section SameWork

variable {row row' row'' : ExecutionRow} {c : Claim V}

theorem ExecutionRow.SameWork.refl (row : ExecutionRow) : row.SameWork row := ⟨rfl, rfl, rfl, rfl, rfl, rfl⟩

theorem ExecutionRow.SameWork.symm (h : row.SameWork row') : row'.SameWork row :=
  ⟨h.workflow.symm, h.version.symm, h.fingerprint.symm, h.input.symm, h.submittedAt.symm, h.deadlineAt.symm⟩

theorem ExecutionRow.SameWork.trans (h : row.SameWork row') (h' : row'.SameWork row'') : row.SameWork row'' :=
  ⟨h'.workflow.trans h.workflow, h'.version.trans h.version, h'.fingerprint.trans h.fingerprint,
    h'.input.trans h.input, h'.submittedAt.trans h.submittedAt, h'.deadlineAt.trans h.deadlineAt⟩

theorem Claim.About.sameWork (h : c.About store row) (hs : row.SameWork row') : c.About store row' :=
  ⟨h.workflow.trans hs.workflow.symm, h.version.trans hs.version.symm, h.fingerprint.trans hs.fingerprint.symm,
    by rw [h.input, hs.input], h.deadlineAt.trans hs.deadlineAt.symm⟩

end SameWork

namespace Record

/-- **No operation changes what was submitted.** -/
theorem Step.sameWork {now : Instant} {id : String} {op : Op V} {r r' : Record} {row : ExecutionRow}
    (h : Step store now id op r r') (hrow : r.row = some row) : ∃ row', r'.row = some row' ∧ row.SameWork row' := by
  -- an `UPDATE` of other columns
  have map : ∀ {f : ExecutionRow → ExecutionRow}, r'.row = r.row.map f → row.SameWork (f row) →
      ∃ row', r'.row = some row' ∧ row.SameWork row' := by
    intro f hf hsame
    exact ⟨f row, by rw [hf, hrow, Option.map_some], hsame⟩
  cases h with
  | submit absent => cases absent.symm.trans hrow
  | claim hrow' =>
    cases hrow.symm.trans hrow'
    exact ⟨_, rfl, rfl, rfl, rfl, rfl, rfl, rfl⟩
  | renew => exact ⟨row, hrow, .refl row⟩
  | release => exact ⟨row, hrow, .refl row⟩
  | skipStep => exact ⟨row, hrow, .refl row⟩
  | requestLive hrow' =>
    cases hrow.symm.trans hrow'
    rw [recordRequest_row hrow]
    refine ⟨_, rfl, ?_⟩
    split_ifs
    · exact ⟨rfl, rfl, rfl, rfl, rfl, rfl⟩
    · exact .refl row
  | requestFinish hrow' =>
    cases hrow.symm.trans hrow'
    refine ⟨_, congrArg (Option.map _) (recordRequest_row hrow), ?_⟩
    split_ifs <;> exact ⟨rfl, rfl, rfl, rfl, rfl, rfl⟩
  | acknowledge _ hrow' =>
    cases hrow.symm.trans hrow'
    refine ⟨_, congrArg (Option.map _) (recordOwnRequest_row hrow), ?_⟩
    split_ifs <;> exact ⟨rfl, rfl, rfl, rfl, rfl, rfl⟩
  | _ => exact map rfl ⟨rfl, rfl, rfl, rfl, rfl, rfl⟩

end Record

theorem Call.exec_sameWork (store : JournalStore V) (j : Journal) (x : Call V) {id : String} {row : ExecutionRow}
    (hrow : (j.record id).row = some row) :
    ∃ row', ((x.exec store j).record id).row = some row' ∧ row.SameWork row' := by
  rcases x.exec_moves store j id with he | hs
  · exact ⟨row, he ▸ hrow, .refl row⟩
  · exact hs.sameWork hrow

/-! ## The claims handed out -/

/-- The claim a call returns: the one of `claim_next`, or a renewed one. -/
def Call.handsOut (store : JournalStore V) (j : Journal) (x : Call V) : Option (Claim V) :=
  match x.op with
  | .claimNext owner ttl =>
    match ((store.claimNext owner ttl x.now).commit j).1 with
    | .ok c => c
    | .error _ => none
  | .renewLease c ttl =>
    match ((store.renewLease c ttl x.now).commit j).1 with
    | .ok c => some c
    | .error _ => none
  | _ => none

/-- The journal and the clock, and the claims handed out so far. -/
structure Ledger (V : Type) where
  timed : Timed
  claims : List (Claim V) := []

namespace Ledger

/-- The call a tick makes. -/
def call (s : Ledger V) (x : Tick V) : Call V := ⟨x.op, x.now s.timed⟩

def exec (store : JournalStore V) (s : Ledger V) (x : Tick V) : Ledger V where
  timed := x.exec store s.timed
  claims := s.claims ++ ((s.call x).handsOut store s.timed.journal).toList

/-- The call is made under a claim that was handed out, if it is made under a claim. -/
def Authorised (s : Ledger V) (x : Tick V) : Prop := ∀ c ∈ x.op.claim?, c ∈ s.claims

instance [DecidableEq V] : DecidableEq (Claim V) := fun c c' =>
  decidable_of_iff (c.executionId = c'.executionId ∧ c.owner = c'.owner ∧ c.fence = c'.fence ∧
    c.workflow = c'.workflow ∧ c.version = c'.version ∧ c.fingerprint = c'.fingerprint ∧ c.input = c'.input ∧
    c.executionStatus = c'.executionStatus ∧ c.expiresAt = c'.expiresAt ∧ c.deadlineAt = c'.deadlineAt ∧
    c.cancellationRequested = c'.cancellationRequested) (by
      cases c
      cases c'
      simp)

instance [DecidableEq V] (s : Ledger V) (x : Tick V) : Decidable (s.Authorised x) :=
  inferInstanceAs (Decidable (∀ c ∈ x.op.claim?, c ∈ s.claims))

/-- Every claim that was handed out is about an execution of the journal. -/
def Honest (store : JournalStore V) (s : Ledger V) : Prop :=
  ∀ c ∈ s.claims, ∃ row, (s.timed.journal.record c.executionId).row = some row ∧ c.About store row

/-- What is handed out by a call is about an execution of the journal. -/
theorem about_of_handsOut {j : Journal} {x : Call V} {c : Claim V} (h : x.handsOut store j = some c)
    (hc : ∀ c' ∈ x.op.claim?, ∃ row, (j.record c'.executionId).row = some row ∧ c'.About store row) :
    ∃ row, (j.record c.executionId).row = some row ∧ c.About store row := by
  obtain ⟨op, now⟩ := x
  unfold Call.handsOut at h
  cases op <;> try cases h
  case claimNext owner ttl =>
    dsimp only at h
    rcases Txn.commit_cases (store.claimNext owner ttl now) j with ⟨a, j', hrun, hcommit⟩ | ⟨e, -, hcommit⟩
    · rw [hcommit] at h
      dsimp only at h
      subst h
      obtain ⟨hn, -⟩ | ⟨id, row, hrow, -, ha, -⟩ := JournalStore.run_claimNext hrun
      · cases hn
      · cases ha
        exact ⟨row, hrow, rfl, rfl, rfl, rfl, rfl⟩
    · rw [hcommit] at h
      cases h
  case renewLease c' ttl =>
    dsimp only at h
    rcases Txn.commit_cases (store.renewLease c' ttl now) j with ⟨a, j', hrun, hcommit⟩ | ⟨e, -, hcommit⟩
    · rw [hcommit] at h
      cases h
      obtain ⟨-, rfl, -⟩ := JournalStore.run_renewLease.mp hrun
      obtain ⟨row, hrow, h⟩ := hc c' rfl
      exact ⟨row, hrow, h.workflow, h.version, h.fingerprint, h.input, h.deadlineAt⟩
    · rw [hcommit] at h
      cases h

theorem exec_honest {s : Ledger V} (h : s.Honest store) {x : Tick V} (hx : s.Authorised x) :
    (s.exec store x).Honest store := by
  have kept : ∀ c : Claim V, (∃ row, (s.timed.journal.record c.executionId).row = some row ∧ c.About store row) →
      ∃ row, ((s.exec store x).timed.journal.record c.executionId).row = some row ∧ c.About store row := by
    rintro c ⟨row, hrow, habout⟩
    obtain ⟨row', hrow', hsame⟩ := Call.exec_sameWork store s.timed.journal (s.call x) hrow
    exact ⟨row', hrow', habout.sameWork hsame⟩
  intro c hc
  rcases List.mem_append.mp hc with hc | hc
  · exact kept c (h c hc)
  · exact kept c (about_of_handsOut (Option.mem_toList.mp hc) fun c' hc' => h c' (hx c' hc'))

end Ledger

end Xyberos.Durable
