import Xyberos.Durable.Submission

/-!
# Xyberos.Durable.Evolution — what time does to an execution

`Grows` is what every operation keeps, whoever calls it: what was submitted, the steps and those of them that are
resolved, a terminal status, and the fence, which only grows.  `Spares n` is what everybody but the holder of the
claim with the fence `n` keeps while that fence is the one in the table: all the steps, and that the execution is not
RUNNING.
-/

set_option autoImplicit false

namespace Xyberos.Durable

variable {V : Type} {store : JournalStore V}

/-- The claim under which an operation writes rows; a renewal writes none but the lease. -/
def Op.writer? : Op V → Option (Claim V)
  | renewLease _ _ => none
  | op => op.claim?

namespace Record

/-- What every operation keeps. -/
structure Grows (r r' : Record) : Prop where
  fence_le : r.fence ≤ r'.fence
  row : ∀ row, r.row = some row → ∃ row', r'.row = some row' ∧ row.SameWork row'
  ended : ∀ row row', r.row = some row → r'.row = some row' → row.status.IsTerminal → row'.status = row.status
  resolved : ∀ s st, r.steps s = some st → st.state.IsTerminal →
    ∃ st', r'.steps s = some st' ∧ st'.state = st.state ∧ st'.output = st.output
  steps_none : r.row ≠ none → ∀ s, r.steps s = none ↔ r'.steps s = none

/-- What is left alone by those who do not act under the fence `n`, while it is the one in the table. -/
structure Spares (n : ℕ) (r r' : Record) : Prop extends Grows r r' where
  steps : 0 < n → n ≤ r.fence → r'.fence = n → r'.steps = r.steps
  running : n ≤ r.fence → r'.fence = n → ∀ row', r'.row = some row' → row'.status = .running →
    ∃ row, r.row = some row ∧ row.status = .running

section Grows

variable {now : Instant} {n : ℕ} {id : String} {op : Op V} {r r' r'' : Record} {c : Claim V}

theorem Grows.refl (r : Record) : Grows r r where
  fence_le := le_refl _
  row row hrow := ⟨row, hrow, .refl row⟩
  ended row row' hrow hrow' _ := by
    cases hrow.symm.trans hrow'
    rfl
  resolved s st hst _ := ⟨st, hst, rfl, rfl⟩
  steps_none _ _ := Iff.rfl

theorem Grows.trans (h : Grows r r') (h' : Grows r' r'') : Grows r r'' where
  fence_le := h.fence_le.trans h'.fence_le
  row row hrow := by
    obtain ⟨row', hrow', hsame⟩ := h.row row hrow
    obtain ⟨row'', hrow'', hsame'⟩ := h'.row row' hrow'
    exact ⟨row'', hrow'', hsame.trans hsame'⟩
  ended row row'' hrow hrow'' ht := by
    obtain ⟨row', hrow', -⟩ := h.row row hrow
    have hs := h.ended row row' hrow hrow' ht
    exact (h'.ended row' row'' hrow' hrow'' (hs ▸ ht)).trans hs
  resolved s st hst ht := by
    obtain ⟨st', hst', hs, ho⟩ := h.resolved s st hst ht
    obtain ⟨st'', hst'', hs', ho'⟩ := h'.resolved s st' hst' (hs ▸ ht)
    exact ⟨st'', hst'', hs'.trans hs, ho'.trans ho⟩
  steps_none hrow s := by
    obtain ⟨row, hrow'⟩ := Option.ne_none_iff_exists'.mp hrow
    obtain ⟨row', hrow'', -⟩ := h.row row hrow'
    exact (h.steps_none hrow s).trans (h'.steps_none (by simp [hrow'']) s)

theorem Spares.refl (n : ℕ) (r : Record) : Spares n r r :=
  ⟨Grows.refl r, fun _ _ _ => rfl, fun _ _ row hrow hs => ⟨row, hrow, hs⟩⟩

/-- The status of a terminal execution stays. -/
theorem Step.ended {row row' : ExecutionRow} (h : Step store now id op r r') (hrow : r.row = some row)
    (hrow' : r'.row = some row') (ht : row.status.IsTerminal) : row'.status = row.status := by
  -- a guarded write of the status does not leave a terminal one
  have guarded : ∀ {c : Claim V} {row₁ : ExecutionRow} {target : ExecutionStatus},
      r.Accepts c now row₁ target → row'.status = row.status := by
    intro c row₁ target ha
    cases ha.row_eq.symm.trans hrow
    exact absurd ht (not_isTerminal_of_mem ha.legal)
  have same : ∀ {f : ExecutionRow → ExecutionRow}, r'.row = r.row.map f → (∀ row, (f row).status = row.status) →
      row'.status = row.status := by
    intro f hf hs
    rw [hf, hrow, Option.map_some] at hrow'
    cases hrow'
    exact hs row
  cases h with
  | submit absent => cases absent.symm.trans hrow
  | claim hrow₁ elig =>
    cases hrow.symm.trans hrow₁
    obtain ⟨-, -, ⟨hs, -⟩ | ⟨hs, -⟩⟩ := elig
    · rcases List.mem_pair.mp hs with hs | hs <;> exact absurd (hs ▸ ht) (by decide)
    · exact absurd (hs ▸ ht) (by decide)
  | renew => exact same Option.map_id'.symm fun _ => rfl
  | release => exact same Option.map_id'.symm fun _ => rfl
  | expire hrow₁ live =>
    cases hrow.symm.trans hrow₁
    exact absurd ht live
  | startStep => exact same rfl fun _ => rfl
  | completeStep => exact same rfl fun _ => rfl
  | skipStep => exact same Option.map_id'.symm fun _ => rfl
  | yieldExecution _ h => exact guarded h
  | failStepDeadline _ _ h => exact guarded h
  | failStep _ _ _ h => exact guarded h
  | retryStep _ _ _ h => exact guarded h
  | markUnknown _ _ h => exact guarded h
  | resolveStep _ _ h => exact guarded h
  | completeExecution _ _ h => exact guarded h
  | failExecution _ h => exact guarded h
  | timeOutExecution _ h => exact guarded h
  | markWaiting _ h => exact guarded h
  | requestLive hrow₁ live =>
    cases hrow.symm.trans hrow₁
    exact absurd ht live
  | requestFinish hrow₁ live =>
    cases hrow.symm.trans hrow₁
    exact absurd ht live
  | acknowledge _ hrow₁ legal =>
    cases hrow.symm.trans hrow₁
    exact absurd ht (not_isTerminal_of_mem legal)
  | resume hrow₁ waiting =>
    cases hrow.symm.trans hrow₁
    exact absurd (waiting ▸ ht) (by decide)

/-- **Every operation lets an execution grow.** -/
theorem Step.grows (h : Step store now id op r r') : Grows r r' where
  fence_le := h.fence_le
  row _ hrow := h.sameWork hrow
  ended _ _ hrow hrow' ht := h.ended hrow hrow' ht
  resolved s st hst ht := by
    have unwritten : r'.steps = r.steps → ∃ st', r'.steps s = some st' ∧ st'.state = st.state ∧ st'.output = st.output :=
      fun he => ⟨st, he ▸ hst, rfl, rfl⟩
    -- nothing is written to a step that is resolved
    have written : ∀ {c : Claim V} {s' : String} {st' : StepRow} {target : StepState} {f : StepRow → StepRow},
        r.AcceptsStep c now s' st' target → r'.steps = (r.modifyStep s' f).steps →
        ∃ st', r'.steps s = some st' ∧ st'.state = st.state ∧ st'.output = st.output := by
      intro c s' st' target f ha hsteps
      have hne : s ≠ s' := by
        rintro rfl
        cases ha.step_eq.symm.trans hst
        have hlegal := ha.legal
        rw [(stepTransitions_eq_nil_iff st.state).mpr ht] at hlegal
        cases hlegal
      exact ⟨st, by rw [hsteps, modifyStep_steps, if_neg hne, hst], rfl, rfl⟩
    cases h with
    | submit absent fresh =>
      refine ⟨st, (if_neg fun hmem => ?_).trans hst, rfl, rfl⟩
      cases (fresh s hmem).symm.trans hst
    | startStep _ _ h => exact written h rfl
    | completeStep _ _ h => exact written h rfl
    | skipStep _ h => exact written h rfl
    | failStep _ _ hs => exact written hs rfl
    | retryStep _ _ hs => exact written hs rfl
    | markUnknown _ hs => exact written hs rfl
    | resolveStep _ hs => exact written hs rfl
    | requestLive => exact unwritten recordRequest_steps
    | requestFinish => exact unwritten recordRequest_steps
    | acknowledge => exact unwritten recordOwnRequest_steps
    | _ => exact unwritten rfl
  steps_none hrow s := by
    have written : ∀ {s' : String} {f : StepRow → StepRow}, r'.steps = (r.modifyStep s' f).steps →
        (r.steps s = none ↔ r'.steps s = none) := by
      intro s' f hsteps
      rw [hsteps, modifyStep_steps]
      split_ifs with he
      · subst he
        simp
      · exact Iff.rfl
    have unwritten : r'.steps = r.steps → (r.steps s = none ↔ r'.steps s = none) := fun he => by rw [he]
    cases h with
    | submit absent => exact absurd absent hrow
    | startStep => exact written rfl
    | completeStep => exact written rfl
    | skipStep => exact written rfl
    | failStep => exact written rfl
    | retryStep => exact written rfl
    | markUnknown => exact written rfl
    | resolveStep => exact written rfl
    | requestLive => exact unwritten recordRequest_steps
    | requestFinish => exact unwritten recordRequest_steps
    | acknowledge => exact unwritten recordOwnRequest_steps
    | _ => exact unwritten rfl

/-- A guarded write is made under the fence in the table. -/
theorem Step.writer (h : Step store now id op r r') (hop : op.writer? = some c) :
    c.executionId = id ∧ r.fence = c.fence := by
  cases h <;> cases hop
  all_goals first
    | exact ⟨‹_›, (‹r.Guard c now› : r.Guard c now).fence_eq⟩
    | exact ⟨‹_›, (‹r.AcceptsStep c now _ _ _› : r.AcceptsStep c now _ _ _).guard.fence_eq⟩
    | exact ⟨‹_›, (‹r.Accepts c now _ _› : r.Accepts c now _ _).guard.fence_eq⟩

/-- Only guarded writes change the steps of an execution that was ever claimed. -/
theorem Step.steps_eq (h : Step store now id op r r') (hroot : r.Rooted) (hw : op.writer? = none)
    (hpos : 0 < r.fence) : r'.steps = r.steps := by
  cases h with
  | submit absent =>
    rw [hroot absent] at hpos
    exact absurd hpos (lt_irrefl 0)
  | claim => rfl
  | renew => rfl
  | expire => rfl
  | requestLive => exact recordRequest_steps
  | requestFinish => exact recordRequest_steps
  | resume => rfl
  | _ => cases hw

/-- Only a claim makes an execution RUNNING, and it takes the next fence. -/
theorem Step.running_of (h : Step store now id op r r') (hw : op.writer? = none) (hfence : r'.fence = r.fence)
    {row' : ExecutionRow} (hrow' : r'.row = some row') (hs : row'.status = .running) :
    ∃ row, r.row = some row ∧ row.status = .running := by
  -- the row after an `UPDATE` of another status
  have other : ∀ {r₀ : Record} {f : ExecutionRow → ExecutionRow} {target : ExecutionStatus},
      r'.row = r₀.row.map f → (∀ row, (f row).status = target) → target ≠ .running → False := by
    intro r₀ f target hmap hf hne
    rw [hmap] at hrow'
    obtain ⟨row, -, rfl⟩ := Option.map_eq_some_iff.mp hrow'
    exact hne ((hf row).symm.trans hs)
  cases h with
  | submit =>
    cases hrow'
    cases hs
  | claim => simp [fence, claimLease] at hfence
  | renew => exact ⟨row', hrow', hs⟩
  | expire => exact (other rfl (fun _ => rfl) (by decide)).elim
  | requestLive hrow =>
    rw [recordRequest_row hrow, Option.some.injEq] at hrow'
    refine ⟨_, hrow, ?_⟩
    rw [← hs, ← hrow']
    split_ifs <;> rfl
  | requestFinish => exact (other rfl (fun _ => rfl) (by decide)).elim
  | resume => exact (other rfl (fun _ => rfl) (by decide)).elim
  | _ => cases hw

/-- Who does not write under the fence `n` spares its holder. -/
theorem Step.spares (h : Step store now id op r r') (hroot : r.Rooted)
    (hc : ∀ c, op.writer? = some c → c.executionId = id → c.fence ≠ n) : Spares n r r' := by
  have unwritten : n ≤ r.fence → r'.fence = n → op.writer? = none ∧ r'.fence = r.fence := by
    intro hle hfence
    have hr : r.fence = n := le_antisymm (h.fence_le.trans hfence.le) hle
    refine ⟨?_, hfence.trans hr.symm⟩
    by_contra hw
    obtain ⟨c, hop⟩ := Option.ne_none_iff_exists'.mp hw
    obtain ⟨hid, hcf⟩ := h.writer hop
    exact hc c hop hid (hcf.symm.trans hr)
  refine ⟨h.grows, fun hpos hle hfence => ?_, fun hle hfence row' hrow' hs => ?_⟩
  · obtain ⟨hw, -⟩ := unwritten hle hfence
    exact h.steps_eq hroot hw (lt_of_lt_of_le hpos hle)
  · obtain ⟨hw, he⟩ := unwritten hle hfence
    exact h.running_of hw he hrow' hs

theorem not_guard_absent : ¬ Record.absent.Guard c now := by
  rintro ⟨l, hl, -⟩
  cases hl

/-- The only operation on an execution that was never submitted is its submission. -/
theorem Step.of_absent (h : Step store now id op .absent r') :
    ∃ (w : Workflow V) (input : V) (timeout : Option ℚ) (key : Option String) (row' : ExecutionRow),
      op = .submit w input timeout id key ∧ r'.row = some row' ∧ row'.workflow = w.name ∧
      row'.version = w.version ∧ row'.fingerprint = store.definitionFingerprint w ∧ row'.status = .pending ∧
      ∀ s, r'.steps s = if s ∈ w.stepIds then some { state := .pending } else none := by
  cases h with
  | submit absent fresh hp => exact ⟨_, _, _, _, _, rfl, rfl, rfl, rfl, rfl, rfl, fun _ => rfl⟩
  | claim hrow => cases hrow
  | renew _ guard => exact absurd guard not_guard_absent
  | release _ guard => exact absurd guard not_guard_absent
  | expire hrow => cases hrow
  | startStep _ hrow => cases hrow
  | completeStep _ _ h => exact absurd h.guard not_guard_absent
  | yieldExecution _ h => exact absurd h.guard not_guard_absent
  | skipStep _ h => exact absurd h.guard not_guard_absent
  | failStepDeadline _ _ h => exact absurd h.guard not_guard_absent
  | failStep _ _ _ h => exact absurd h.guard not_guard_absent
  | retryStep _ _ _ h => exact absurd h.guard not_guard_absent
  | markUnknown _ _ h => exact absurd h.guard not_guard_absent
  | resolveStep _ _ h => exact absurd h.guard not_guard_absent
  | completeExecution _ _ h => exact absurd h.guard not_guard_absent
  | failExecution _ h => exact absurd h.guard not_guard_absent
  | timeOutExecution _ h => exact absurd h.guard not_guard_absent
  | requestLive hrow => cases hrow
  | requestFinish hrow => cases hrow
  | acknowledge _ hrow => cases hrow
  | markWaiting _ h => exact absurd h.guard not_guard_absent
  | resume hrow => cases hrow

end Grows

end Record

end Xyberos.Durable
