import Xyberos.Base.Run
import Xyberos.Durable.Refine

/-!
# Xyberos.Durable.Runs — runs of the store

A run is a list of calls, each with the time its clock showed: any number of workers and operators, in any
interleaving, with any clocks.  A crash between two transactions is a caller whose calls stop.  `run_record` is the
rule for invariants of one execution.
-/

set_option autoImplicit false

namespace Xyberos.Durable

variable {V : Type}

/-- A call of the store and the `now` it reads. -/
structure Call (V : Type) where
  op : Op V
  now : Instant

/-- The journal after a call: what its transaction committed. -/
def Call.exec (store : JournalStore V) (j : Journal) (x : Call V) : Journal :=
  ((x.op.txn store x.now).commit j).2

/-- The journal after a run from the empty journal. -/
def runCalls (store : JournalStore V) (l : List (Call V)) : Journal := after (Call.exec store) {} l

section Calls

variable {store : JournalStore V} {j : Journal} {x : Call V}

/-- A call that raises changes nothing; any other is a run of its transaction. -/
theorem Call.exec_cases (store : JournalStore V) (j : Journal) (x : Call V) :
    x.exec store j = j ∨ ∃ a, (x.op.txn store x.now).run j = .ok (a, x.exec store j) := by
  unfold Call.exec
  rcases Txn.commit_cases (x.op.txn store x.now) j with ⟨a, j', hr, hc⟩ | ⟨e, -, hc⟩
  · rw [hc]
    exact .inr ⟨a, hr⟩
  · rw [hc]
    exact .inl rfl

theorem Call.exec_of_run {a : x.op.Reply} {j' : Journal} (h : (x.op.txn store x.now).run j = .ok (a, j')) :
    x.exec store j = j' := by
  rw [Call.exec, Txn.commit_of_ok h]

theorem Call.exec_moves (store : JournalStore V) (j : Journal) (x : Call V) :
    Moves store x.now x.op j (x.exec store j) := by
  rcases x.exec_cases store j with h | ⟨a, h⟩
  · exact Moves.of_eq h
  · exact run_step h

end Calls

/-! ## Invariants of one execution -/

/-- The record of an execution that was never submitted. -/
def Record.absent : Record := ⟨none, fun _ => none, none, none, []⟩

@[simp] theorem record_empty (id : String) : (({} : Journal).record id) = Record.absent := rfl

/-- **Invariant rule.**  What every step of an execution keeps holds of every execution after every run. -/
theorem run_record {store : JournalStore V} {I : Record → Prop} (h0 : I .absent)
    (hstep : ∀ now id op r r', I r → Record.Step store now id op r r' → I r') (l : List (Call V)) (id : String) :
    I ((runCalls store l).record id) := by
  have h : ∀ id, I ((runCalls store l).record id) := by
    refine after_invariant (I := fun j : Journal => ∀ id, I (j.record id)) (fun _ => h0) fun j x hj id => ?_
    rcases x.exec_moves store j id with he | hs
    · rw [he]
      exact hj id
    · exact hstep _ _ _ _ _ (hj id) hs
  exact h id

/-- Nothing is kept about an execution that was never submitted. -/
def Record.Rooted (r : Record) : Prop := r.row = none → r = .absent

theorem Record.Guard.row_ne_none {r : Record} {c : Claim V} {now : Instant} (h : r.Guard c now)
    (hr : r.Rooted) : r.row ≠ none := by
  obtain ⟨l, hl, -⟩ := h
  intro hn
  rw [hr hn] at hl
  cases hl

/-- A step leaves a submitted execution. -/
theorem Record.Step.row_ne_none {store : JournalStore V} {now : Instant} {id : String} {op : Op V}
    {r r' : Record} (h : Record.Step store now id op r r') (hr : r.Rooted) : r'.row ≠ none := by
  cases h with
  | submit => exact Option.some_ne_none _
  | claim => exact Option.some_ne_none _
  | renew _ guard => exact guard.row_ne_none hr
  | release _ guard => exact guard.row_ne_none hr
  | expire hrow => simp [hrow]
  | startStep _ hrow => simp [hrow]
  | completeStep _ _ h => simpa using h.guard.row_ne_none hr
  | yieldExecution _ h => simp [h.row_eq]
  | skipStep _ h => simpa using h.guard.row_ne_none hr
  | failStepDeadline _ _ h => simp [h.row_eq]
  | failStep _ _ _ h => simp [h.row_eq]
  | retryStep _ _ _ h => simp [h.row_eq]
  | markUnknown _ _ h => simp [h.row_eq]
  | resolveStep _ _ h => simp [h.row_eq]
  | completeExecution _ _ h => simp [h.row_eq]
  | failExecution _ h => simp [h.row_eq]
  | timeOutExecution _ h => simp [h.row_eq]
  | requestLive hrow => simp [recordRequest_row hrow]
  | requestFinish hrow => simp [finish, recordRequest_row hrow]
  | acknowledge _ hrow => simp [recordOwnRequest_row hrow]
  | markWaiting _ h => simp [h.row_eq]
  | resume hrow => simp [hrow]

theorem run_rooted (store : JournalStore V) (l : List (Call V)) (id : String) :
    ((runCalls store l).record id).Rooted :=
  run_record (fun _ => rfl) (fun _ _ _ _ _ hr h hn => absurd hn (h.row_ne_none hr)) l id

/-! ## A store to compute with -/

/-- JSON values given by their texts. -/
def jsonTexts : Values String where
  null := "null"
  dumps v := .text v
  loads v := v
  ofDict kvs := "\x7b" ++ ",".intercalate (kvs.map fun x => "\"" ++ x.1 ++ "\":" ++ x.2) ++ "\x7d"
  reprFloat q := toString (q.num / q.den) ++ ".0"

/-- One step and no edges. -/
def oneStep : Workflow String := { name := "w", steps := [{ id := "a" }] }

/-- A store with leases of 30 seconds; the digest is the one of `oneStep`. -/
def textStore : JournalStore String where
  values := jsonTexts
  leaseTtl := 30000000
  maxPayloadBytes := 262144
  digest _ := "c528bcbb1d345ae47d553a3e85a7cba5883852072063f0a8209a7f3961865120"

/-- The claim with a given fence that `"o"` is handed on the execution `"e"` of `oneStep` at a time. -/
def oneStepClaim (fence : ℕ) (now : Instant) : Claim String where
  executionId := "e"
  owner := "o"
  fence := fence
  workflow := "w"
  version := "1"
  fingerprint := textStore.definitionFingerprint oneStep
  input := "null"
  executionStatus := .running
  expiresAt := now + 30000000

/-- `"e"` is submitted at 0 and claimed at 1. -/
def claimedOnce : List (Call String) :=
  [⟨.submit oneStep "null" none "e" none, 0⟩, ⟨.claimNext "o" none, 1⟩]

end Xyberos.Durable
