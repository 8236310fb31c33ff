import Xyberos.Durable.StoreSpec

/-!
# Xyberos.Durable.Queue — whom `claim_next` takes

`claim_next` takes the ready execution that was submitted first, and among executions submitted at the same time the one
that stands first in the table (`candidate_eq_some_iff`).  A write that changes a row leaves this order alone.
-/

set_option autoImplicit false

namespace Xyberos.Durable

namespace Journal

variable {j : Journal} {now : Instant} {id : String}

/-! ## The order of submission -/

/-- The executions with the times at which they were submitted, in the order of the table. -/
def submissions (j : Journal) : List (String × Instant) := j.executions.rows.map fun x => (x.1, x.2.submittedAt)

/-- `id` was submitted before `id'`: earlier, or at the same time, and it stands further in front. -/
def Before (j : Journal) (id id' : String) : Prop :=
  ∃ t t', (id, t) ∈ j.submissions ∧ (id', t') ∈ j.submissions ∧
    (t < t' ∨ t = t' ∧ [id, id'].Sublist (j.submissions.map Prod.fst))

/-- `claim_next` may take the execution. -/
def Ready (j : Journal) (now : Instant) (id : String) : Prop := ∃ row ∈ j.executions.get? id, j.Eligible now id row

theorem submissions_keys (j : Journal) : j.submissions.map Prod.fst = j.executions.rows.map Prod.fst := by
  simp [submissions]

theorem mem_submissions {t : Instant} :
    (id, t) ∈ j.submissions ↔ ∃ row, j.executions.get? id = some row ∧ row.submittedAt = t := by
  simp only [submissions, List.mem_map, Prod.exists, Prod.mk.injEq, Table.get?_eq_some_iff]
  constructor
  · rintro ⟨id', row, hrow, rfl, ht⟩
    exact ⟨row, hrow, ht⟩
  · rintro ⟨row, hrow, ht⟩
    exact ⟨id, row, hrow, rfl, ht⟩

/-- A write that does not touch the time of submission. -/
theorem submissions_modifyExecution {f : ExecutionRow → ExecutionRow}
    (hf : ∀ row, (f row).submittedAt = row.submittedAt) : (j.modifyExecution id f).submissions = j.submissions := by
  simp only [submissions, modifyExecution, Table.modify, List.map_map]
  refine List.map_congr_left fun x _ => ?_
  by_cases hx : x.1 = id <;> simp [hx, hf]

/-! ## The oldest of a list -/

/-- `x` goes before `y` in the list. -/
def Precedes (l : List (String × ExecutionRow)) (x y : String × ExecutionRow) : Prop :=
  x.2.submittedAt < y.2.submittedAt ∨ x.2.submittedAt = y.2.submittedAt ∧ [x, y].Sublist l

/-- Two entries stand in one order only. -/
theorem not_sublist_swap {ι : Type} {l : List ι} {x y : ι} (hn : l.Nodup) (h : [x, y].Sublist l) :
    ¬ [y, x].Sublist l := by
  induction l with
  | nil => cases h
  | cons z l ih =>
    obtain ⟨hz, hn⟩ := List.nodup_cons.mp hn
    intro h'
    cases h with
    | cons _ h =>
      cases h' with
      | cons _ h' => exact ih hn h h'
      | cons_cons _ h' => exact hz (h.subset (by simp))
    | cons_cons _ h =>
      cases h' with
      | cons _ h' => exact hz (h'.subset (by simp))
      | cons_cons _ h' => exact hz (List.singleton_sublist.mp h)

theorem oldest_precedes {l : List (String × ExecutionRow)} {x y : String × ExecutionRow} (h : oldest l = some x)
    (hy : y ∈ l) (hne : y ≠ x) : Precedes l x y := by
  induction l generalizing x with
  | nil => cases hy
  | cons z l ih =>
    unfold oldest at h
    cases hl : oldest l with
    | none =>
      rw [hl] at h
      cases h
      rw [oldest_eq_none.mp hl] at hy
      exact absurd (List.mem_singleton.mp hy) hne
    | some w =>
      rw [hl] at h
      dsimp only at h
      split_ifs at h with hlt <;> cases h
      · -- the oldest of the rest is older than the first
        rcases List.mem_cons.mp hy with rfl | hy
        · exact .inl hlt
        · exact (ih hl hy hne).imp_right fun h => ⟨h.1, h.2.cons z⟩
      · have hy : y ∈ l := (List.mem_cons.mp hy).resolve_left hne
        have hwy : w.2.submittedAt ≤ y.2.submittedAt := by
          by_cases he : y = w
          · rw [he]
          · exact (ih hl hy he).elim le_of_lt fun h => h.1.le
        rcases lt_or_eq_of_le ((not_lt.mp hlt).trans hwy) with h | h
        · exact .inl h
        · exact .inr ⟨h, (List.singleton_sublist.mpr hy).cons_cons _⟩

/-- The oldest of a list is the one that goes before all others. -/
theorem oldest_eq_some_iff {l : List (String × ExecutionRow)} (hn : l.Nodup) {x : String × ExecutionRow} :
    oldest l = some x ↔ x ∈ l ∧ ∀ y ∈ l, y ≠ x → Precedes l x y := by
  constructor
  · exact fun h => ⟨oldest_mem h, fun y hy hne => oldest_precedes h hy hne⟩
  · rintro ⟨hx, hfirst⟩
    cases hl : oldest l with
    | none =>
      rw [oldest_eq_none.mp hl] at hx
      cases hx
    | some w =>
      by_contra hne
      have hne : w ≠ x := fun he => hne (congrArg some he)
      have hxw := hfirst w (oldest_mem hl) hne
      rcases oldest_precedes hl hx hne.symm with h | ⟨h, hs⟩
      · rcases hxw with h' | ⟨h', -⟩
        · exact h.asymm h'
        · exact h.ne h'.symm
      · rcases hxw with h' | ⟨-, hs'⟩
        · exact h'.ne h.symm
        · exact not_sublist_swap hn hs hs'

/-! ## The candidate -/

/-- **`claim_next` takes the ready execution that was submitted first.** -/
theorem candidate_eq_some_iff :
    j.candidate now = some id ↔ j.Ready now id ∧ ∀ id', j.Ready now id' → id' ≠ id → j.Before id id' := by
  have hn : (j.executions.select (j.Eligible now)).Nodup := (j.executions.nodup_select _).of_map
  have sub : (j.executions.select (j.Eligible now)).Sublist j.executions.rows := List.filter_sublist
  unfold candidate
  rw [Option.map_eq_some_iff]
  constructor
  · rintro ⟨⟨id, row⟩, hx, rfl⟩
    obtain ⟨hmem, hfirst⟩ := (oldest_eq_some_iff hn).mp hx
    obtain ⟨hrow, helig⟩ := Table.mem_select.mp hmem
    refine ⟨⟨row, hrow, helig⟩, ?_⟩
    rintro id' ⟨row', hrow', helig'⟩ hne
    refine ⟨_, _, mem_submissions.mpr ⟨row, hrow, rfl⟩, mem_submissions.mpr ⟨row', hrow', rfl⟩, ?_⟩
    refine (hfirst (id', row') (Table.mem_select.mpr ⟨hrow', helig'⟩) fun he => hne (congrArg Prod.fst he)).imp_right ?_
    rintro ⟨he, hs⟩
    rw [submissions_keys]
    exact ⟨he, (hs.trans sub).map Prod.fst⟩
  · rintro ⟨⟨row, hrow, helig⟩, hfirst⟩
    refine ⟨(id, row), (oldest_eq_some_iff hn).mpr ⟨Table.mem_select.mpr ⟨hrow, helig⟩, ?_⟩, rfl⟩
    rintro ⟨id', row'⟩ hmem hne
    obtain ⟨hrow', helig'⟩ := Table.mem_select.mp hmem
    have hid : id' ≠ id := by
      rintro rfl
      cases hrow.symm.trans hrow'
      exact hne rfl
    obtain ⟨t, t', ht, ht', hbefore⟩ := hfirst id' ⟨row', hrow', helig'⟩ hid
    obtain ⟨_, h, rfl⟩ := mem_submissions.mp ht
    cases hrow.symm.trans h
    obtain ⟨_, h', rfl⟩ := mem_submissions.mp ht'
    cases hrow'.symm.trans h'
    refine hbefore.imp_right fun ⟨he, hs⟩ => ⟨he, ?_⟩
    rw [submissions_keys, List.sublist_map_iff] at hs
    obtain ⟨l, hl, hkeys⟩ := hs
    -- the two keys are those of the two rows
    obtain ⟨⟨a, r⟩, ⟨b, r'⟩, rfl⟩ : ∃ x y, l = [x, y] := List.length_eq_two.mp
      (by simpa using congrArg List.length hkeys.symm)
    obtain ⟨rfl, rfl⟩ : id = a ∧ id' = b := by simpa using hkeys
    have hfirst : (id, r) ∈ j.executions.rows := hl.subset List.mem_cons_self
    have hsecond : (id', r') ∈ j.executions.rows := hl.subset (List.mem_cons_of_mem _ List.mem_cons_self)
    cases hrow.symm.trans (Table.get?_eq_some_iff.mpr hfirst)
    cases hrow'.symm.trans (Table.get?_eq_some_iff.mpr hsecond)
    have hfilter := hl.filter fun x => decide (j.Eligible now x.1 x.2)
    simpa [Table.select, helig, helig'] using hfilter

end Journal

end Xyberos.Durable
