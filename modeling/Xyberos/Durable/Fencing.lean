import Xyberos.Durable.Runs

/-!
# Xyberos.Durable.Fencing — a stale claim can change nothing

A claim carries the fence of the lease it was issued under.  The fence in the table never goes down
(`Step.hasFence`), and a new claim is issued one above it; every guarded operation is accepted only under the fence
in the table (`guard_of_run`).  So a claim whose fence is below one already issued is refused, by every operation,
whatever the clocks show.
-/

set_option autoImplicit false

namespace Xyberos.Durable

variable {V : Type} {store : JournalStore V}

/-! ## Fences only grow -/

/-- The lease has a fence of `n` or more. -/
def Record.HasFence (n : ℕ) (r : Record) : Prop := ∃ l, r.lease = some l ∧ n ≤ l.fence

theorem Record.HasFence.modifyLease {n : ℕ} {r r' : Record} {f : LeaseRow → LeaseRow} (h : r.HasFence n)
    (hr : r'.lease = (r.modifyLease f).lease) (hf : ∀ l, (f l).fence = l.fence) : r'.HasFence n := by
  obtain ⟨l, hl, hn⟩ := h
  refine ⟨f l, ?_, (hf l).symm ▸ hn⟩
  rw [hr, modifyLease_lease, hl, Option.map_some]

theorem Record.HasFence.of_eq {n : ℕ} {r r' : Record} (h : r.HasFence n) (hr : r'.lease = r.lease) :
    r'.HasFence n := by
  obtain ⟨l, hl, hn⟩ := h
  exact ⟨l, hr.trans hl, hn⟩

/-- No move lowers a fence. -/
theorem Record.Step.hasFence {now : Instant} {id : String} {op : Op V} {r r' : Record} {n : ℕ}
    (h : Record.Step store now id op r r') (hf : r.HasFence n) : r'.HasFence n := by
  cases h with
  | claim hrow =>
    obtain ⟨l, hl, hn⟩ := hf
    refine ⟨_, rfl, ?_⟩
    rw [hl]
    exact hn.trans (Nat.le_succ _)
  | renew => exact hf.modifyLease rfl fun _ => rfl
  | release => exact hf.modifyLease rfl fun _ => rfl
  | yieldExecution => exact hf.modifyLease rfl fun _ => rfl
  | retryStep => exact hf.modifyLease rfl fun _ => rfl
  | resolveStep => exact hf.modifyLease rfl fun _ => rfl
  | requestLive => exact hf.of_eq recordRequest_lease
  | requestFinish => exact hf.of_eq recordRequest_lease
  | acknowledge => exact hf.of_eq recordOwnRequest_lease
  | _ => exact hf

theorem exec_hasFence {j : Journal} {id : String} {n : ℕ} (x : Call V) (h : (j.record id).HasFence n) :
    ((x.exec store j).record id).HasFence n := by
  rcases x.exec_moves store j id with he | hs
  · rw [he]
    exact h
  · exact hs.hasFence h

/-! ## The fence in the table -/

namespace Record

/-- The fence in the table; 0 before the first claim. -/
def fence (r : Record) : ℕ := (r.lease.map fun l => l.fence).getD 0

section Fence

variable {now : Instant} {n : ℕ} {r r' : Record} {c : Claim V}

theorem Guard.fence_eq (h : r.Guard c now) : r.fence = c.fence := by
  obtain ⟨l, hl, -, hfence, -⟩ := h
  rw [fence, Option.mem_def.mp hl, Option.map_some, Option.getD_some, hfence]

theorem HasFence.le (h : r.HasFence n) : n ≤ r.fence := by
  obtain ⟨l, hl, hn⟩ := h
  rw [fence, hl, Option.map_some, Option.getD_some]
  exact hn

theorem Step.fence_le {id : String} {op : Op V} (h : Step store now id op r r') : r.fence ≤ r'.fence := by
  cases hl : r.lease with
  | none => simp [fence, hl]
  | some l => exact (h.hasFence ⟨l, hl, by simp [fence, hl]⟩).le

end Fence

end Record

theorem exec_fence_le (store : JournalStore V) (j : Journal) (y : Call V) (id : String) :
    (j.record id).fence ≤ ((y.exec store j).record id).fence := by
  rcases y.exec_moves store j id with he | hs
  · rw [he]
  · exact hs.fence_le

/-! ## Claims that were issued -/

/-- The claim a call hands out. -/
def Call.issued (store : JournalStore V) (j : Journal) (x : Call V) : Option (Claim V) :=
  match x.op with
  | .claimNext owner ttl =>
    match ((store.claimNext owner ttl x.now).commit j).1 with
    | .ok c => c
    | .error _ => none
  | _ => none

/-- What `claim_next` did when it handed out a claim. -/
theorem issued_spec {j : Journal} {x : Call V} {c : Claim V} (h : x.issued store j = some c) :
    ∃ row, j.executions.get? c.executionId = some row ∧ j.Eligible x.now c.executionId row ∧
      c.fence = ((j.leases.get? c.executionId).map fun l => l.fence).getD 0 + 1 ∧
      ∃ l, (x.exec store j).leases.get? c.executionId = some l ∧ l.owner = c.owner ∧ l.fence = c.fence := by
  obtain ⟨op, now⟩ := x
  unfold Call.issued at h
  cases op <;> try cases h
  case claimNext owner ttl =>
    dsimp only at h
    rcases Txn.commit_cases (store.claimNext owner ttl now) j with ⟨a, j', hrun, hc⟩ | ⟨e, -, hc⟩
    · rw [hc] at h
      dsimp only at h
      subst h
      obtain ⟨hn, -⟩ | ⟨id, row, hrow, helig, ha, rfl⟩ := JournalStore.run_claimNext hrun
      · cases hn
      · cases ha
        refine ⟨row, hrow, helig, rfl, ?_⟩
        rw [Call.exec_of_run (x := ⟨.claimNext owner ttl, now⟩) hrun]
        exact ⟨_, JournalStore.upsert_claimLease, rfl, rfl⟩
    · rw [hc] at h
      cases h

/-- A guarded operation under a fence below the one in the table raises and changes nothing. -/
theorem stale_refused {j : Journal} {op : Op V} {c : Claim V} {n : ℕ} (hc : op.claim? = some c)
    (hf : (j.record c.executionId).HasFence n) (hlt : c.fence < n) (now : Instant) :
    ∃ e, (op.txn store now).commit j = (.error e, j) := by
  rcases Txn.commit_cases (op.txn store now) j with ⟨a, j', hrun, -⟩ | ⟨e, -, h⟩
  · obtain ⟨l, hl, -, hfence, -⟩ := guard_of_run hc hrun
    obtain ⟨l', hl', hn⟩ := hf
    cases hl.symm.trans hl'
    omega
  · exact ⟨e, h⟩

/-- **Fencing.**  In any run, let `x` hand out the claim `c` after the calls `pre`.  The execution was not RUNNING
under a live lease; every later claim of it has a larger fence, which is then the one in the table; and from then on
every operation under a smaller fence raises and leaves the journal unchanged. -/
theorem fencing (store : JournalStore V) (pre : List (Call V)) (x : Call V) (c : Claim V)
    (hx : x.issued store (runCalls store pre) = some c) :
    (∀ row, (runCalls store pre).executions.get? c.executionId = some row → row.status = .running →
      (runCalls store pre).Unleased c.executionId x.now) ∧
    ∀ mid : List (Call V),
      (∀ (y : Call V) (c' : Claim V), y.issued store (runCalls store (pre ++ x :: mid)) = some c' → c'.executionId = c.executionId →
        c.fence < c'.fence ∧
        ∃ l, (y.exec store (runCalls store (pre ++ x :: mid))).leases.get? c.executionId = some l ∧
          l.fence = c'.fence) ∧
      ∀ (op : Op V) (stale : Claim V) (now : Instant), op.claim? = some stale →
        stale.executionId = c.executionId → stale.fence < c.fence →
        ∃ e, (op.txn store now).commit (runCalls store (pre ++ x :: mid)) =
          (.error e, runCalls store (pre ++ x :: mid)) := by
  obtain ⟨row, hrow, helig, -, l, hl, -, hlf⟩ := issued_spec hx
  refine ⟨?_, fun mid => ?_⟩
  · intro row' hrow' hs
    cases hrow.symm.trans hrow'
    obtain ⟨-, -, ⟨hs', -⟩ | ⟨-, hu⟩⟩ := helig
    · rw [hs] at hs'
      exact absurd hs' (by decide)
    · exact hu
  · -- the fence stays in the table
    have hfence : ((runCalls store (pre ++ x :: mid)).record c.executionId).HasFence c.fence := by
      rw [runCalls, after_append, after_cons]
      exact after_invariant (I := fun j : Journal => (j.record c.executionId).HasFence c.fence)
        ⟨l, hl, hlf.ge⟩ fun j y hj => exec_hasFence y hj
    refine ⟨?_, ?_⟩
    · intro y c' hy hid
      obtain ⟨-, -, -, hc', l', hl', -, hlf'⟩ := issued_spec hy
      obtain ⟨l₀, hl₀, hn⟩ := hfence
      refine ⟨?_, l', hid ▸ hl', hlf'⟩
      have hl₁ : (runCalls store (pre ++ x :: mid)).leases.get? c'.executionId = some l₀ := hid ▸ hl₀
      rw [hc', hl₁, Option.map_some, Option.getD_some]
      omega
    · intro op stale now hop hid hlt
      exact stale_refused hop (by rw [hid]; exact hfence) hlt now

/-- `"e"` is claimed a second time, at fence 2, and the first claim is refused. -/
theorem fencing_takeover : ∃ e, ((Op.markWaiting (oneStepClaim 1 1) "parked").txn textStore 40000002).commit
      (runCalls textStore (claimedOnce ++ ⟨.claimNext "o" none, 40000000⟩ :: [])) =
    (.error e, runCalls textStore (claimedOnce ++ ⟨.claimNext "o" none, 40000000⟩ :: [])) :=
  ((fencing textStore claimedOnce ⟨.claimNext "o" none, 40000000⟩ (oneStepClaim 2 40000000) rfl).2 []).2 _
    (oneStepClaim 1 1) _ rfl rfl (by decide)

end Xyberos.Durable
